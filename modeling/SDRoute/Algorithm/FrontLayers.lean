import SDRoute.Algorithm.FrontSort

/-! The layers that different individuals are sorted into, and the ranks that they are told. -/
namespace SDRoute.NSGA2
open Pareto

variable {s t : NSGA2} {union front front' : List ℕ} {fs : List (List ℕ)} {i x y k j : ℕ}

namespace FrontsOf

/-- Front by front the individuals of a depth. -/
theorem getElem?_iff (h : FrontsOf s union fs t) (hnodup : union.Nodup)
    (hfront : fs[k]? = some front) :
    i ∈ front ↔ i ∈ union ∧ depth (better s) union i = k := by
  obtain ⟨lists, c, first, n, hcompared, rfl, -⟩ := h.waves
  have horder := strictOrder_better s
  rw [getElem?_waves] at hfront
  split at hfront
  · obtain rfl := Option.some.inj hfront
    exact hcompared.isLevel_of_graded horder (graded_of_nodup horder hnodup) k i
  · cases hfront

theorem exists_front (h : FrontsOf s union fs t) (hnodup : union.Nodup) (hi : i ∈ union) :
    ∃ front, fs[depth (better s) union i]? = some front := by
  obtain ⟨lists, c, first, n, hcompared, rfl, hexhausted⟩ := h.waves
  have horder := strictOrder_better s
  have hlevel := hcompared.isLevel_of_graded horder (graded_of_nodup horder hnodup)
  rw [getElem?_waves]
  by_cases hle : depth (better s) union i ≤ n
  · exact ⟨_, if_pos hle⟩
  · -- Some individual of the next depth would be in the next front, which is empty.
    obtain ⟨x, hx, hdepth⟩ := exists_depth horder hi (by omega : n + 1 ≤ _)
    have hmem := (hlevel (n + 1) x).mpr ⟨hx, hdepth⟩
    rw [hexhausted.stops] at hmem
    cases hmem

theorem nodup_front (h : FrontsOf s union fs t) (hnodup : union.Nodup) (hfront : front ∈ fs) :
    front.Nodup := by
  obtain ⟨lists, c, first, n, hcompared, rfl, -⟩ := h.waves
  obtain ⟨r, -, rfl⟩ := List.mem_map.mp hfront
  cases r with
  | zero =>
    rw [wave, hcompared.first]
    exact hnodup.filter _
  | succ r => exact nodup_released

theorem ne_nil (h : FrontsOf s union fs t) (hnodup : union.Nodup) (hne : union ≠ [])
    (hfront : front ∈ fs) : front ≠ [] := by
  obtain ⟨k, hk⟩ := List.mem_iff_getElem?.mp hfront
  have hlevel := fun i => h.getElem?_iff (i := i) hnodup hk
  obtain ⟨lists, c, first, n, hcompared, rfl, hexhausted⟩ := h.waves
  rw [getElem?_waves] at hk
  split at hk
  · obtain rfl := Option.some.inj hk
    cases k with
    | zero =>
      obtain ⟨y, hy⟩ := List.exists_mem_of_ne_nil _ hne
      obtain ⟨x, hx, hdepth⟩ := exists_depth (strictOrder_better s) hy (Nat.zero_le _)
      exact List.ne_nil_of_mem ((hlevel x).mpr ⟨hx, hdepth⟩)
    | succ k => exact hexhausted.filled k (by omega)
  · cases hk

theorem nodup_flatten (h : FrontsOf s union fs t) (hnodup : union.Nodup) : fs.flatten.Nodup := by
  refine List.nodup_flatten.mpr ⟨fun front hfront => h.nodup_front hnodup hfront, ?_⟩
  refine List.pairwise_iff_getElem.mpr fun j k hj hk hjk i hij hik => ?_
  have hdepth := ((h.getElem?_iff hnodup (List.getElem?_eq_getElem hj)).mp hij).2
  have hdepth' := ((h.getElem?_iff hnodup (List.getElem?_eq_getElem hk)).mp hik).2
  omega

theorem mem_flatten (h : FrontsOf s union fs t) (hnodup : union.Nodup) :
    i ∈ fs.flatten ↔ i ∈ union := by
  constructor
  · intro hi
    obtain ⟨front, hfront, hmem⟩ := List.mem_flatten.mp hi
    obtain ⟨k, hk⟩ := List.mem_iff_getElem?.mp hfront
    exact ((h.getElem?_iff hnodup hk).mp hmem).1
  · intro hi
    obtain ⟨front, hfront⟩ := h.exists_front hnodup hi
    exact List.mem_flatten.mpr ⟨front, List.mem_of_getElem? hfront,
      (h.getElem?_iff hnodup hfront).mpr ⟨hi, rfl⟩⟩

theorem perm (h : FrontsOf s union fs t) (hnodup : union.Nodup) : fs.flatten.Perm union :=
  (List.perm_ext_iff_of_nodup (h.nodup_flatten hnodup) hnodup).mpr fun _ => h.mem_flatten hnodup

/-- Every front after the first one counts as rank one. -/
theorem rank_eq (h : FrontsOf s union fs t) (hnodup : union.Nodup) (hfront : fs[k]? = some front)
    (hi : i ∈ front) : (t.objects i).paretoRank = min k 1 := by
  have hi' : i ∈ union := ((h.getElem?_iff hnodup hfront).mp hi).1
  have hflatten := h.nodup_flatten hnodup
  rw [h.rank i hi']
  cases fs with
  | nil => cases hfront
  | cons first rest =>
    rw [List.flatten_cons] at hflatten
    rw [List.tail_cons]
    cases k with
    | zero =>
      obtain rfl : first = front := Option.some.inj hfront
      exact List.count_eq_zero_of_not_mem fun hrest =>
        (List.nodup_append.mp hflatten).2.2 i hi i hrest rfl
    | succ k =>
      have hrest : i ∈ rest.flatten :=
        List.mem_flatten.mpr ⟨front, List.mem_of_getElem? (i := k) hfront, hi⟩
      rw [List.count_eq_one_of_mem (List.nodup_append.mp hflatten).2.1 hrest]
      omega

end FrontsOf

/-- Different individuals are sorted into layers by the longest chain that ends in each. -/
theorem fastNondominateSort_layers (s : NSGA2) (hne : union ≠ []) (hnodup : union.Nodup) :
    ∃ fs t, (fastNondominateSort union).exec s = (.ok fs, t) ∧ (∀ front ∈ fs, front ≠ []) ∧
      fs.flatten.Perm union ∧
      (∀ k i : ℕ, (∃ front : List ℕ, fs[k]? = some front ∧ i ∈ front) ↔
        i ∈ union ∧ LongestChain (better s) union i (k + 1)) ∧
      ∀ j k : ℕ, j ≤ k → ∀ front front' : List ℕ, fs[j]? = some front → fs[k]? = some front' →
        ∀ x ∈ front', ∀ y ∈ front, better s x y = false := by
  obtain ⟨fs, t, hrun, h⟩ := (triple_fastNondominateSort (s := s) union).returns rfl
  have horder := strictOrder_better s
  refine ⟨fs, t, hrun, fun front hfront => h.ne_nil hnodup hne hfront, h.perm hnodup, ?_, ?_⟩
  · intro k i
    constructor
    · rintro ⟨front, hfront, hi⟩
      obtain ⟨hi, hdepth⟩ := (h.getElem?_iff hnodup hfront).mp hi
      exact ⟨hi, (longestChain_iff horder hi).mpr hdepth⟩
    · rintro ⟨hi, hchain⟩
      obtain rfl := (longestChain_iff horder hi).mp hchain
      obtain ⟨front, hfront⟩ := h.exists_front hnodup hi
      exact ⟨front, hfront, (h.getElem?_iff hnodup hfront).mpr ⟨hi, rfl⟩⟩
  · intro j k hjk front front' hj hk x hx y hy
    by_contra hbetter
    obtain ⟨hxu, hxdepth⟩ := (h.getElem?_iff hnodup hk).mp hx
    have hydepth := ((h.getElem?_iff hnodup hj).mp hy).2
    have hlt := depth_lt horder hxu (Bool.not_eq_false _ ▸ hbetter)
    omega

/-- Individuals whose delay is their number. -/
def risingDelays : NSGA2 :=
  { rng := fun _ => .zero
    objects := fun i => { chromosome := i, graph := i, delay := i } }

theorem fastNondominateSort_layers_rising :
    ∃ fs t, (fastNondominateSort [2, 0, 1]).exec risingDelays = (.ok fs, t) ∧
      (∀ front ∈ fs, front ≠ []) ∧ fs.flatten.Perm [2, 0, 1] ∧
      (∀ k i : ℕ, (∃ front : List ℕ, fs[k]? = some front ∧ i ∈ front) ↔
        i ∈ [2, 0, 1] ∧ LongestChain (better risingDelays) [2, 0, 1] i (k + 1)) ∧
      ∀ j k : ℕ, j ≤ k → ∀ front front' : List ℕ, fs[j]? = some front → fs[k]? = some front' →
        ∀ x ∈ front', ∀ y ∈ front, better risingDelays x y = false :=
  fastNondominateSort_layers risingDelays (by decide) (by decide)

/-- The tournament: `a` is taken and not `b`. -/
def Wins (a b : Individual) : Prop :=
  a.paretoRank < b.paretoRank ∨
    (a.paretoRank = b.paretoRank ∧ a.crowdingDistance > b.crowdingDistance)

instance (a b : Individual) : Decidable (Wins a b) :=
  inferInstanceAs (Decidable (_ ∨ _))

theorem chosen_eq (a b : Individual) (ind1 ind2 : ℕ) :
    (if a.paretoRank < b.paretoRank then ind1
      else if a.paretoRank = b.paretoRank ∧ a.crowdingDistance > b.crowdingDistance then ind1
      else ind2) = if Wins a b then ind1 else ind2 := by
  unfold Wins
  grind

/-- Of the two copies that are made, the one that wins the tournament joins the population. -/
theorem selectOne_eq (fuel : ℕ) : selectOne fuel = (do
    let s ← get
    let (x, y) ← drawPair s.populationSize fuel
    let ind1 ← copy (← Py.ofOption .indexError (Py.item? s.externalPopulation x))
    let ind2 ← copy (← Py.ofOption .indexError (Py.item? s.externalPopulation y))
    let s ← get
    let chosen := if Wins (s.objects ind1) (s.objects ind2) then ind1 else ind2
    modify fun s => { s with currentPopulation := s.currentPopulation ++ [chosen] }) := by
  simp only [selectOne, chosen_eq]

/-- The ranks are the numbers of the fronts, so that, whatever the crowding distances, an
individual of an earlier front wins. -/
structure Ranked (t : NSGA2) (fs : List (List ℕ)) : Prop where
  rank : ∀ (k : ℕ) (front : List ℕ), fs[k]? = some front →
    ∀ i ∈ front, (t.objects i).paretoRank = k
  wins : ∀ (j k : ℕ) (front front' : List ℕ), j < k → fs[j]? = some front →
    fs[k]? = some front' → ∀ x ∈ front, ∀ y ∈ front', ∀ p q : ℚ,
      Wins { t.objects x with crowdingDistance := p } { t.objects y with crowdingDistance := q } ∧
      ¬ Wins { t.objects y with crowdingDistance := q } { t.objects x with crowdingDistance := p }

theorem ranked_of_rank (h : ∀ (k : ℕ) (front : List ℕ), fs[k]? = some front →
    ∀ i ∈ front, (t.objects i).paretoRank = k) : Ranked t fs := by
  refine ⟨h, fun j k front front' hjk hj hk x hx y hy p q => ?_⟩
  have hxrank := h j front hj x hx
  have hyrank := h k front' hk y hy
  simp only [Wins, hxrank, hyrank]
  omega

/-- Somebody beats somebody who beats somebody. -/
def ChainOfThree (s : NSGA2) (union : List ℕ) : Prop :=
  ∃ a ∈ union, ∃ b ∈ union, ∃ c ∈ union, better s a b = true ∧ better s b c = true

theorem chainOfThree_iff : ChainOfThree s union ↔ ∃ c ∈ union, 2 ≤ depth (better s) union c := by
  have horder := strictOrder_better s
  constructor
  · rintro ⟨a, ha, b, hb, c, hc, hab, hbc⟩
    have hb' := depth_lt horder ha hab
    have hc' := depth_lt horder hb hbc
    exact ⟨c, hc, by omega⟩
  · rintro ⟨c, hc, hdepth⟩
    obtain ⟨b, hb, hbc, hb'⟩ := exists_pred horder (by omega : 0 < depth (better s) union c)
    obtain ⟨a, ha, hab, -⟩ := exists_pred horder (by omega : 0 < depth (better s) union b)
    exact ⟨a, ha, b, hb, c, hc, hab, hbc⟩

/-- The ranks are those of the fronts exactly if there are no more than two fronts. -/
theorem ranked_iff_no_chain (s : NSGA2) (hnodup : union.Nodup) :
    ∃ fs t, (fastNondominateSort union).exec s = (.ok fs, t) ∧
      (Ranked t fs ↔ ¬ ChainOfThree s union) := by
  obtain ⟨fs, t, hrun, h⟩ := (triple_fastNondominateSort (s := s) union).returns rfl
  refine ⟨fs, t, hrun, fun hranked hchain => ?_, fun hchain => ranked_of_rank ?_⟩
  · obtain ⟨c, hc, hdepth⟩ := chainOfThree_iff.mp hchain
    obtain ⟨front, hfront⟩ := h.exists_front hnodup hc
    have hmem := (h.getElem?_iff hnodup hfront).mpr ⟨hc, rfl⟩
    have hrank := hranked.rank _ front hfront c hmem
    rw [h.rank_eq hnodup hfront hmem] at hrank
    omega
  · intro k front hfront i hi
    obtain ⟨hi', hdepth⟩ := (h.getElem?_iff hnodup hfront).mp hi
    have hshallow : ¬ 2 ≤ depth (better s) union i :=
      fun hdeep => hchain (chainOfThree_iff.mpr ⟨i, hi', hdeep⟩)
    rw [h.rank_eq hnodup hfront hi]
    omega

theorem ranked_iff_no_chain_rising : ∃ fs t,
    (fastNondominateSort [2, 0, 1]).exec risingDelays = (.ok fs, t) ∧
      (Ranked t fs ↔ ¬ ChainOfThree risingDelays [2, 0, 1]) :=
  ranked_iff_no_chain risingDelays (by decide)

/-- The third of three individuals of rising delay has rank one, as the second one. -/
theorem not_ranked_of_rising : ¬ ∀ (s : NSGA2) (union : List ℕ), union.Nodup →
    ∃ fs t, (fastNondominateSort union).exec s = (.ok fs, t) ∧ Ranked t fs := by
  intro h
  obtain ⟨fs, t, hrun, hranked⟩ := h risingDelays [2, 0, 1] (by decide)
  have hfronts : ((fastNondominateSort [2, 0, 1]).exec risingDelays).1 = .ok [[0], [1], [2]] := by
    rfl
  have hrank :
      (((fastNondominateSort [2, 0, 1]).exec risingDelays).2.objects 2).paretoRank = 1 := by
    rfl
  rw [hrun] at hfronts hrank
  obtain rfl := Except.ok.inj hfronts
  have hclaimed := hranked.rank 2 [2] rfl 2 (by decide)
  rw [hrank] at hclaimed
  cases hclaimed

end SDRoute.NSGA2
