import Mathlib.Algebra.BigOperators.Group.List.Lemmas
import Mathlib.Algebra.Order.Ring.Int
import Mathlib.Tactic.Ring
import SDRoute.Lib.Depth

/-! Nondominated sorting with counters: every item counts the better ones, and each front counts
down what its items dominate. The list may hold an item more than once, and then the item counts
and is counted with its multiplicity. -/
namespace SDRoute.Pareto

variable {α : Type} [DecidableEq α] {better : α → α → Bool} {union first : List α}
  {c : α → ℤ} {lists : α → List α} {events : List α} {x y : α} {r : ℕ}

/-- The items whose counters reach zero, while each event counts its item down. -/
def released (c : α → ℤ) : List α → List α
  | [] => []
  | e :: events =>
    let next := released (Function.update c e (c e - 1)) events
    if c e - 1 = 0 then e :: next else next

theorem mem_released : y ∈ released c events ↔ 0 < c y ∧ c y ≤ events.count y := by
  induction events generalizing c with
  | nil =>
    simp only [released, List.not_mem_nil, List.count_nil, Nat.cast_zero, false_iff]
    omega
  | cons e events ih =>
    have hnext := ih (c := Function.update c e (c e - 1))
    by_cases hy : y = e
    · subst hy
      rw [Function.update_self] at hnext
      rw [released, List.count_cons_self]
      split <;> simp only [List.mem_cons, true_or, true_iff, hnext] <;> omega
    · rw [Function.update_of_ne hy] at hnext
      rw [released, List.count_cons_of_ne (Ne.symm hy)]
      split <;> simp [hnext, hy]

theorem released_subset : released c events ⊆ events := by
  intro y hy
  obtain ⟨hpos, hle⟩ := mem_released.mp hy
  rw [← List.count_pos_iff]
  omega

theorem nodup_released : (released c events).Nodup := by
  induction events generalizing c with
  | nil => exact .nil
  | cons e events ih =>
    rw [released]
    split
    · refine List.nodup_cons.mpr ⟨fun he => ?_, ih⟩
      rw [mem_released, Function.update_self] at he
      omega
    · exact ih

/-- The last event releases its entry if the counter waits for this event only. -/
theorem released_concat {e : α} : released c (events ++ [e]) =
    if events.count e + 1 = c e then released c events ++ [e] else released c events := by
  induction events generalizing c with
  | nil =>
    simp only [List.nil_append, released, List.count_nil, Nat.cast_zero]
    by_cases hlast : c e - 1 = 0
    · rw [if_pos hlast, if_pos (by omega)]
    · rw [if_neg hlast, if_neg (by omega)]
  | cons a events ih =>
    have hiff : ((a :: events).count e + 1 : ℤ) = c e ↔
        (events.count e + 1 : ℤ) = Function.update c a (c a - 1) e := by
      by_cases ha : e = a
      · subst ha
        rw [Function.update_self, List.count_cons_self]
        omega
      · rw [Function.update_of_ne ha, List.count_cons_of_ne (Ne.symm ha)]
    rw [List.cons_append, released, released, ih]
    simp only [hiff]
    split_ifs <;> rfl

/-- Counters and front after a number of fronts. -/
def wave (lists : α → List α) (c : α → ℤ) (first : List α) : ℕ → (α → ℤ) × List α
  | 0 => (c, first)
  | r + 1 =>
    let events := (wave lists c first r).2.flatMap lists
    (fun y => (wave lists c first r).1 y - events.count y, released (wave lists c first r).1 events)

/-- The first fronts, up to a number. -/
def waves (lists : α → List α) (c : α → ℤ) (first : List α) (k : ℕ) : List (List α) :=
  (List.range (k + 1)).map fun r => (wave lists c first r).2

theorem wave_succ (r : ℕ) : wave lists c first (r + 1) =
    wave lists (wave lists c first 1).1 (wave lists c first 1).2 r := by
  induction r with
  | zero => rfl
  | succ r ih =>
    rw [wave, ih]
    rfl

theorem waves_succ (k : ℕ) : waves lists c first (k + 1) =
    first :: waves lists (wave lists c first 1).1 (wave lists c first 1).2 k := by
  rw [waves, List.range_succ_eq_map, List.map_cons, List.map_map, waves]
  congr 1
  refine List.map_congr_left fun r _ => ?_
  rw [Function.comp_apply, Nat.succ_eq_add_one, wave_succ]

theorem wave_counter (y : α) : (wave lists c first (r + 1)).1 y =
    (wave lists c first r).1 y - ((wave lists c first r).2.flatMap lists).count y := rfl

/-- The counters, lists and first front that comparing all entries gives. -/
structure Compared (better : α → α → Bool) (union : List α) (lists : α → List α) (c : α → ℤ)
    (first : List α) : Prop where
  counter : ∀ y ∈ union, c y = union.count y * dominators better union y
  lists : ∀ x ∈ union, ∀ y,
    (lists x).count y = if better x y then union.count x * union.count y else 0
  first : first = union.filter (dominators better union · = 0)

namespace Compared

theorem first_subset (h : Compared better union lists c first) : first ⊆ union := by
  rw [h.first]
  exact List.filter_subset_self _

theorem lists_subset (h : Compared better union lists c first) (hx : x ∈ union) :
    lists x ⊆ union := by
  intro y hy
  have hcount := List.count_pos_iff.mpr hy
  rw [h.lists x hx y] at hcount
  by_contra hyu
  rw [List.count_eq_zero_of_not_mem hyu, Nat.mul_zero, ite_self] at hcount
  exact absurd hcount (Nat.lt_irrefl 0)

theorem wave_subset (h : Compared better union lists c first) (r : ℕ) :
    (wave lists c first r).2 ⊆ union := by
  induction r with
  | zero => exact h.first_subset
  | succ r ih =>
    intro y hy
    obtain ⟨x, hx, hxy⟩ := List.mem_flatMap.mp (released_subset hy)
    exact h.lists_subset (ih hx) hxy

theorem waves_subset (h : Compared better union lists c first) {k : ℕ} {front : List α}
    (hfront : front ∈ waves lists c first k) : front ⊆ union := by
  obtain ⟨r, -, rfl⟩ := List.mem_map.mp hfront
  exact h.wave_subset r

end Compared

/-- How often the items of a list that are better than `y` occur. -/
def weight (better : α → α → Bool) (union front : List α) (y : α) : ℕ :=
  ((front.filter (better · y)).map (union.count ·)).sum

/-- What the better items of the first front count down in excess of their number: an item that
occurs `m` times counts `m` times with each occurrence. -/
def excess (better : α → α → Bool) (union : List α) (y : α) : ℕ :=
  ((union.filter fun x => dominators better union x = 0 && better x y).map
    (union.count · - 1)).sum

/-- The better entries of one depth. -/
def atDepth (better : α → α → Bool) (union : List α) (d : ℕ) (y : α) : ℕ :=
  union.countP fun x => better x y && depth better union x == d

/-- No item is counted down early: what the first front counts down in excess stays below the
number of better entries in the front before that of the item. -/
def Graded (better : α → α → Bool) (union : List α) : Prop :=
  ∀ y ∈ union, 2 ≤ depth better union y →
    excess better union y < atDepth better union (depth better union y - 1) y

instance : Decidable (Graded better union) :=
  inferInstanceAs (Decidable (∀ y ∈ union, 2 ≤ depth better union y → _))

/-- The better entries of a depth below `r`. -/
def above (better : α → α → Bool) (union : List α) (r : ℕ) (y : α) : ℕ :=
  union.countP fun x => better x y && decide (depth better union x < r)

omit [DecidableEq α] in
theorem above_succ (r : ℕ) (y : α) :
    above better union (r + 1) y = above better union r y + atDepth better union r y := by
  unfold above atDepth
  generalize depth better union = d
  induction union with
  | nil => rfl
  | cons a l ih =>
    simp only [List.countP_cons, ih, Bool.and_eq_true, decide_eq_true_eq, beq_iff_eq]
    grind

theorem count_events (h : Compared better union lists c first) {front : List α}
    (hfront : front ⊆ union) (y : α) :
    (front.flatMap lists).count y = union.count y * weight better union front y := by
  induction front with
  | nil => simp [weight]
  | cons x front ih =>
    rw [List.flatMap_cons, List.count_append, ih fun z hz => hfront (by simp [hz]),
      h.lists x (hfront (by simp)) y]
    unfold weight
    by_cases hxy : better x y
    · rw [if_pos hxy, List.filter_cons_of_pos (by simpa using hxy), List.map_cons, List.sum_cons]
      ring
    · rw [if_neg hxy, List.filter_cons_of_neg (by simpa using hxy), Nat.zero_add]

/-- A front without repetitions that holds a level counts each of its entries once. -/
theorem weight_of_nodup {front : List α} {p : α → Bool} (hnodup : front.Nodup)
    (hmem : ∀ x, x ∈ front ↔ x ∈ union ∧ p x = true) :
    weight better union front y = union.countP fun x => better x y && p x := by
  have hperm : (front.filter (better · y)).Perm
      (union.dedup.filter fun x => better x y && p x) := by
    refine (List.perm_ext_iff_of_nodup (hnodup.filter _) (union.nodup_dedup.filter _)).mpr
      fun x => ?_
    simp only [List.mem_filter, hmem, List.mem_dedup, Bool.and_eq_true]
    tauto
  rw [weight, (hperm.map _).sum_eq, List.sum_map_count_dedup_filter_eq_countP]

theorem weight_first (h : StrictOrder better) (y : α) :
    weight better union (union.filter (dominators better union · = 0)) y =
      excess better union y + above better union 1 y := by
  have hsum : ∀ l ⊆ union, (l.map (union.count ·)).sum =
      (l.map (union.count · - 1)).sum + l.length := by
    intro l
    induction l with
    | nil => simp
    | cons x l ih =>
      intro hl
      have hpos : 0 < union.count x := List.count_pos_iff.mpr (hl (by simp))
      rw [List.map_cons, List.sum_cons, List.map_cons, List.sum_cons, List.length_cons,
        ih fun z hz => hl (by simp [hz])]
      omega
  rw [weight, List.filter_filter, excess]
  have hfilter : (union.filter fun x => better x y && decide (dominators better union x = 0)) =
      union.filter fun x => dominators better union x = 0 && better x y := by
    simp only [Bool.and_comm]
  rw [hfilter, hsum _ (List.filter_subset_self _), ← List.countP_eq_length_filter, above]
  congr 1
  refine List.countP_congr fun x _ => ?_
  have hzero : depth better union x = 0 ↔ dominators better union x = 0 := depth_eq_zero h
  simp only [Bool.and_eq_true, decide_eq_true_eq, Nat.lt_one_iff]
  tauto

omit [DecidableEq α] in
theorem above_mono (better : α → α → Bool) (union : List α) {m n : ℕ} (hmn : m ≤ n) (y : α) :
    above better union m y ≤ above better union n y := by
  refine List.countP_mono_left fun x _ hx => ?_
  simp only [Bool.and_eq_true, decide_eq_true_eq] at hx ⊢
  exact ⟨hx.1, by omega⟩

omit [DecidableEq α] in
theorem dominators_eq_above (h : StrictOrder better) (y : α) :
    dominators better union y = above better union (depth better union y) y := by
  refine List.countP_congr fun x hx => ?_
  simp only [Bool.and_eq_true, decide_eq_true_eq]
  exact ⟨fun hxy => ⟨hxy, depth_lt h hx hxy⟩, fun hxy => hxy.1⟩

/-- What has been counted down for each entry of an item after a number of fronts. -/
def counted (better : α → α → Bool) (union : List α) : ℕ → α → ℕ
  | 0, _ => 0
  | r + 1, y => excess better union y + above better union (r + 1) y

theorem Graded.counted_iff (hg : Graded better union) (h : StrictOrder better) (hy : y ∈ union) :
    counted better union r y < dominators better union y ∧
      dominators better union y ≤ counted better union (r + 1) y ↔
      depth better union y = r + 1 := by
  rw [dominators_eq_above h y]
  rcases lt_trichotomy (depth better union y) (r + 1) with hlt | heq | hgt
  · refine iff_of_false (fun hcounted => ?_) hlt.ne
    cases r with
    | zero =>
      have hzero : depth better union y = 0 := by omega
      have hnone : dominators better union y = _ := dominators_eq_above h y
      rw [(depth_eq_zero h).mp hzero, hzero] at hnone
      rw [hzero, ← hnone] at hcounted
      exact absurd hcounted.1 (Nat.not_lt_zero _)
    | succ r =>
      have hle := above_mono better union (Nat.lt_succ_iff.mp hlt) y
      have := hcounted.1
      rw [counted] at this
      omega
  · refine iff_of_true ⟨?_, ?_⟩ heq
    · cases r with
      | zero =>
        rw [counted, ← dominators_eq_above h, Nat.pos_iff_ne_zero]
        intro hnone
        rw [(depth_eq_zero h).mpr hnone] at heq
        omega
      | succ r =>
        have hgraded := hg y hy (by omega)
        rw [heq, Nat.add_sub_cancel] at hgraded
        rw [counted, heq, above_succ (r + 1)]
        omega
    · rw [counted, heq]
      omega
  · refine iff_of_false (fun hcounted => ?_) (by omega)
    obtain ⟨d, hd⟩ : ∃ d, depth better union y = d + 1 := ⟨depth better union y - 1, by omega⟩
    have hgraded := hg y hy (by omega)
    have hle := above_mono better union (by omega : r + 1 ≤ d) y
    have := hcounted.2
    rw [hd, Nat.add_sub_cancel] at hgraded
    rw [counted, hd, above_succ] at this
    omega

/-- The front of the number holds the items of that depth. -/
def IsLevel (better : α → α → Bool) (union : List α) (lists : α → List α) (c : α → ℤ)
    (first : List α) (r : ℕ) : Prop :=
  ∀ y, y ∈ (wave lists c first r).2 ↔ y ∈ union ∧ depth better union y = r

namespace Compared

theorem counted_succ (hc : Compared better union lists c first) (h : StrictOrder better)
    (hlevel : IsLevel better union lists c first r) (y : α) :
    counted better union (r + 1) y =
      counted better union r y + weight better union (wave lists c first r).2 y := by
  cases r with
  | zero =>
    rw [wave, hc.first, weight_first h, counted, counted]
    exact (Nat.zero_add _).symm
  | succ r =>
    have hlevel' : ∀ x, x ∈ (wave lists c first (r + 1)).2 ↔
        x ∈ union ∧ (depth better union x == r + 1) = true := by
      intro x
      rw [hlevel x, beq_iff_eq]
    have hweight : weight better union (wave lists c first (r + 1)).2 y =
        atDepth better union (r + 1) y := weight_of_nodup nodup_released hlevel'
    rw [hweight, counted, counted, above_succ (r + 1)]
    omega

theorem wave_counter_eq (hc : Compared better union lists c first) (h : StrictOrder better)
    (hlevels : ∀ i < r, IsLevel better union lists c first i) (hy : y ∈ union) :
    (wave lists c first r).1 y =
      union.count y * ((dominators better union y : ℤ) - counted better union r y) := by
  induction r with
  | zero =>
    have hcounter := hc.counter y hy
    simpa [wave, counted] using hcounter
  | succ r ih =>
    rw [wave_counter, ih fun i hi => hlevels i (by omega), count_events hc (hc.wave_subset r),
      hc.counted_succ h (hlevels r (by omega))]
    push_cast
    ring

theorem mem_wave_succ (hc : Compared better union lists c first) (h : StrictOrder better)
    (hlevels : ∀ i ≤ r, IsLevel better union lists c first i) (hy : y ∈ union) :
    y ∈ (wave lists c first (r + 1)).2 ↔ counted better union r y < dominators better union y ∧
      dominators better union y ≤ counted better union (r + 1) y := by
  have hpos : (0 : ℤ) < union.count y := by exact_mod_cast List.count_pos_iff.mpr hy
  rw [wave, mem_released, count_events hc (hc.wave_subset r),
    hc.wave_counter_eq h (fun i hi => hlevels i hi.le) hy, hc.counted_succ h (hlevels r le_rfl),
    Nat.cast_mul, mul_pos_iff_of_pos_left hpos, mul_le_mul_iff_right₀ hpos]
  omega

/-- The fronts are the levels of the order. -/
theorem isLevel_of_graded (hc : Compared better union lists c first) (h : StrictOrder better)
    (hg : Graded better union) (r : ℕ) : IsLevel better union lists c first r := by
  induction r using Nat.strong_induction_on with
  | _ r ih =>
    intro y
    cases r with
    | zero =>
      rw [wave, hc.first, List.mem_filter, depth_eq_zero h]
      simp
    | succ r =>
      by_cases hy : y ∈ union
      · rw [hc.mem_wave_succ h (fun i hi => ih i (Nat.lt_succ_of_le hi)) hy,
          hg.counted_iff h hy, and_iff_right hy]
      · exact iff_of_false (fun hmem => hy (hc.wave_subset _ hmem)) fun hlevel => hy hlevel.1

end Compared

theorem graded_of_nodup (h : StrictOrder better) (hnodup : union.Nodup) : Graded better union := by
  intro y hy hdepth
  have hnone : excess better union y = 0 := by
    refine List.sum_eq_zero fun n hn => ?_
    obtain ⟨x, hx, rfl⟩ := List.mem_map.mp hn
    rw [List.count_eq_one_of_mem hnodup (List.mem_of_mem_filter hx), Nat.sub_self]
  have hpos : 0 < depth better union y := by omega
  obtain ⟨x, hx, hxy, hpred⟩ := exists_pred h hpos
  rw [hnone]
  refine List.countP_pos_iff.mpr ⟨x, hx, ?_⟩
  simp only [hxy, Bool.true_and, beq_iff_eq]
  omega

/-- The fronts up to `k` are filled, and the next one is not. -/
structure Exhausted (lists : α → List α) (c : α → ℤ) (first : List α) (k : ℕ) : Prop where
  filled : ∀ r < k, (wave lists c first (r + 1)).2 ≠ []
  stops : (wave lists c first (k + 1)).2 = []

theorem Exhausted.succ {k : ℕ} (hnext : (wave lists c first 1).2 ≠ [])
    (h : Exhausted lists (wave lists c first 1).1 (wave lists c first 1).2 k) :
    Exhausted lists c first (k + 1) := by
  refine ⟨fun r hr => ?_, ?_⟩
  · cases r with
    | zero => exact hnext
    | succ r =>
      rw [wave_succ]
      exact h.filled r (by omega)
  · rw [wave_succ]
    exact h.stops

theorem getElem?_waves (k r : ℕ) : (waves lists c first k)[r]? =
    if r ≤ k then some (wave lists c first r).2 else none := by
  rw [waves, List.getElem?_map]
  split
  · rw [List.getElem?_range (by omega), Option.map_some]
  · rw [List.getElem?_eq_none (by simpa using by omega), Option.map_none]

/-- Counters are counted down, and a released item has reached zero. -/
theorem countP_wave_lt (hevents : (wave lists c first r).2.flatMap lists ⊆ union)
    (hnext : (wave lists c first (r + 1)).2 ≠ []) :
    union.countP (fun x => decide (0 < (wave lists c first (r + 1)).1 x)) <
      union.countP (fun x => decide (0 < (wave lists c first r).1 x)) := by
  obtain ⟨y, hy⟩ := List.exists_mem_of_ne_nil _ hnext
  obtain ⟨hpos, hle⟩ := mem_released.mp hy
  refine countP_lt_countP (fun z _ hz => ?_) (hevents (released_subset hy)) (by simpa using hpos) ?_
  · rw [decide_eq_true_eq, wave_counter] at hz
    rw [decide_eq_true_eq]
    omega
  · rw [decide_eq_false_iff_not, wave_counter]
    omega

omit [DecidableEq α] in
/-- Taking from the front of some fronts, an item of an earlier front comes before one of a later
front. -/
theorem mem_take_flatten {fronts : List (List α)} {i n : ℕ} {front : List α}
    (hy : y ∈ fronts.flatten.take n) (hfront : fronts[i]? = some front) (hx : x ∈ front)
    (hlater : ∀ j ≤ i, ∀ front, fronts[j]? = some front → y ∉ front) :
    x ∈ fronts.flatten.take n := by
  have hsplit : fronts.flatten =
      (fronts.take (i + 1)).flatten ++ (fronts.drop (i + 1)).flatten := by
    rw [← List.flatten_append, List.take_append_drop]
  have hyfirst : y ∉ (fronts.take (i + 1)).flatten := by
    intro hmem
    obtain ⟨l, hl, hyl⟩ := List.mem_flatten.mp hmem
    obtain ⟨j, hj⟩ := List.mem_iff_getElem?.mp hl
    rw [List.getElem?_take] at hj
    split at hj
    · exact hlater j (by omega) l hj hyl
    · cases hj
  have hxfirst : x ∈ (fronts.take (i + 1)).flatten := by
    refine List.mem_flatten.mpr ⟨front, List.mem_of_getElem? (i := i) ?_, hx⟩
    rw [List.getElem?_take_of_lt (Nat.lt_succ_self i), hfront]
  rw [hsplit, List.take_append] at hy ⊢
  have hlength : (fronts.take (i + 1)).flatten.length ≤ n := by
    by_contra hlt
    rw [show n - (fronts.take (i + 1)).flatten.length = 0 by omega, List.take_zero,
      List.append_nil] at hy
    exact hyfirst (List.mem_of_mem_take hy)
  rw [List.take_of_length_le hlength]
  exact List.mem_append_left _ hxfirst

end SDRoute.Pareto
