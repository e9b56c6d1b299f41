import Mathlib.Data.List.Dedup
import SDRoute.Algorithm.GASteps

/-! The number of switches of the paths in a run of `evolve`: what crossings and mutations have to
keep for it to stay within the bound of the search. -/
namespace SDRoute.GAPopulation

variable {src dst srcDpid dstDpid age n : ℕ} {minBandwidth : ℚ} {g s t : GAPopulation}
  {P Q : List ℕ → Prop} {l out lists path : List ℕ} {cost : ℚ}

def Within (maxHop : ℚ) (l : List ℕ) : Prop := (l.length : ℚ) ≤ maxHop

instance (maxHop : ℚ) (l : List ℕ) : Decidable (Within maxHop l) :=
  inferInstanceAs (Decidable (_ ≤ _))

/-- A walk that visits at most as many vertices as a path may have. -/
def Visits (maxHop : ℚ) (walk : List ℕ) : Prop := (walk.dedup.length : ℚ) ≤ maxHop

/-- The pair at a place is not crossed, or no exchange of sections between common vertices visits
too many. -/
def FitsCross (s : GAPopulation) (n : ℕ) : Prop :=
  (s.rng 0).val > s.crossoverProbability ∨ ∀ l m out, s.links[2 * n]? = some l →
    s.links[2 * n + 1]? = some m → Exchanged l m out ∨ Exchanged m l out → Visits s.maxHop out

/-- The path at a place does not mutate, or no detour of it visits too many. -/
def FitsMutation (dst : ℕ) (s : GAPopulation) (n : ℕ) : Prop :=
  (s.rng 0).val > s.mutationProbability ∨ ∀ link walk, s.links[n]? = some link →
    Detour s.vertexs s.maxHop dst link walk → Visits s.maxHop walk

/-- What is left of a walk is on it. -/
theorem Resolves.subset (h : Resolves lists out) {a b : ℕ} (ha : lists.head? = some a)
    (hb : lists.getLast? = some b) : out ⊆ lists := by
  have hwalk : IsWalk (fun _ y => y ∈ lists) a b lists := by
    refine ⟨ha, hb, List.isChain_iff_getElem.mpr fun i hi => List.getElem_mem hi⟩
  exact (h.2 _ a b hwalk).forall_mem (List.mem_of_mem_head? ha) fun _ _ hy => hy

theorem Resolves.within {maxHop : ℚ} (h : Resolves lists out) {a b : ℕ}
    (ha : lists.head? = some a) (hb : lists.getLast? = some b) (hvisits : Visits maxHop lists) :
    Within maxHop out := by
  have hsub : out.Subperm lists.dedup :=
    List.subperm_of_subset h.1 fun x hx => List.mem_dedup.mpr (h.subset ha hb hx)
  have hle : (out.length : ℚ) ≤ lists.dedup.length := by exact_mod_cast hsub.length_le
  exact hle.trans hvisits

/-- A pass over all individuals, each of which is replaced. -/
theorem population_pass {f : ℕ → Py GAPopulation Unit} (hs : Population g age P s)
    (hstep : ∀ i < s.links.length, ∀ t u link, ((List.range i).forM f).exec s = (.ok (), t) →
      Pass g age s.links.length P Q i t → t.links[i]? = some link → P link →
      (f i).exec t = (.ok (), u) →
        ∃ new rest, u = { t with links := t.links.set i new, rng := rest } ∧ Q new)
    (h : (do let s ← get; (List.range s.links.length).forM f : Py GAPopulation Unit).exec s =
      (.ok (), t)) : Population g age Q t := by
  rw [Py.exec_bind_of_ok (Py.exec_get s)] at h
  have hpass : Pass g age s.links.length P Q s.links.length t := by
    refine Py.forM_range_induction (J := fun i => Pass g age s.links.length P Q i) hs.start
      (fun i hi t u ht hpass hu => ?_) h
    obtain ⟨link, hlink, hP⟩ := hpass.exists_link hi
    obtain ⟨new, rest, rfl, hQ⟩ := hstep i hi t u link ht hpass hlink hP hu
    exact (hpass.set hQ).rng rest
  exact hpass.finish fun hlt => absurd hlt (lt_irrefl _)

/-- A simple path within the bound. -/
def Bounded (g : GAPopulation) (src dst : ℕ) (l : List ℕ) : Prop :=
  IsPath g.vertexs.Adj src dst l ∧ Within g.maxHop l

/-- What crossings may leave. -/
def BoundedWalk (g : GAPopulation) (src dst : ℕ) (l : List ℕ) : Prop :=
  IsSpliced g.vertexs.Adj src dst l ∧ Visits g.maxHop l

def HopInvariant (g : GAPopulation) (src dst : ℕ) : Point → List ℕ → Prop
  | .crossed => BoundedWalk g src dst
  | _ => Bounded g src dst

theorem Bounded.walk (h : Bounded g src dst l) : BoundedWalk g src dst l := by
  refine ⟨h.1.spliced, ?_⟩
  rw [Visits, h.1.nodup.dedup]
  exact h.2

theorem BoundedWalk.resolved (h : BoundedWalk g src dst l) (hout : Resolves l out) :
    Bounded g src dst out :=
  ⟨hout.isPath h.1, hout.within h.1.head h.1.last h.2⟩

theorem two_le_maxHop (hhop : ∃ k : ℕ, 2 ≤ k ∧ g.maxHop = k) : 2 ≤ g.maxHop := by
  obtain ⟨k, hk, hmax⟩ := hhop
  rw [hmax]
  exact_mod_cast hk

section runs
variable (hsize : g.vertexs.length = g.switchQueue.length) (htable : g.vertexs.Simple)
  (hne : src ≠ dst) (hsrc : g.switchQueue.idxOf? srcDpid = some src)
  (hdst : g.switchQueue.idxOf? dstDpid = some dst) (hhop : ∃ k : ℕ, 2 ≤ k ∧ g.maxHop = k)
include hsize htable hne hsrc hhop

/-- What the search finds keeps the bound. -/
theorem bounded_of_found {found : List (List ℕ)}
    (hfound : findPathDfs src dst g.maxHop g.vertexs = .ok found) (hl : l ∈ found) :
    Bounded g src dst l := by
  have htwo := two_le_maxHop hhop
  obtain ⟨k, -, hmax⟩ := hhop
  have hlt := (List.getElem?_eq_some_iff.mp (Py.getElem?_of_idxOf? hsrc)).1
  obtain ⟨found', hfound', -, hmem⟩ := findPathDfs_simple_paths htable (hsize ▸ hlt) hne htwo
  obtain rfl := Except.ok.inj (hfound.symm.trans hfound')
  obtain ⟨hpath, hlength⟩ := (hmem l).mp hl
  rw [hmax, Nat.ceil_natCast] at hlength
  refine ⟨hpath, ?_⟩
  rw [Within, hmax]
  exact_mod_cast hlength

include hdst in
theorem bounded_of_populate (h : (populate srcDpid dstDpid).exec g = (.ok (), s)) :
    Population g g.age (Bounded g src dst) s := by
  obtain ⟨found, hfound, rfl⟩ := populate_ok hsrc hdst h
  exact ⟨rfl, rfl, rfl, rfl, rfl, fun l hl => bounded_of_found hsize htable hne hsrc hhop hfound hl⟩

omit hsize htable hsrc hhop in
/-- A pair that is crossed visits no more than its place allows. -/
theorem bounded_of_cross (hs : Population g age (Bounded g src dst) s)
    (hfits : ∀ t u n, shuffleLinks.exec s = (.ok (), t) → n < t.links.length / 2 →
      ((List.range n).forM crossPair).exec t = (.ok (), u) → FitsCross u n)
    (h : cross.exec s = (.ok (), t)) : Population g age (BoundedWalk g src dst) t := by
  rw [exec_cross] at h
  obtain ⟨⟨⟩, u, hu, h⟩ := Py.exec_bind_ok.mp h
  rw [Py.exec_bind_of_ok (Py.exec_get u)] at h
  obtain ⟨links, rest, rfl, hperm⟩ := shuffleLinks_ok hu
  have hstart : Population g age (Bounded g src dst) { s with links, rng := rest } :=
    ⟨hs.1, hs.2, hs.3, hs.4, hs.5, fun l hl => hs.links l (hperm.mem_iff.mp hl)⟩
  have hpass : Pass g age links.length (Bounded g src dst) (BoundedWalk g src dst)
      (2 * (links.length / 2)) t := by
    refine Py.forM_range_induction (J := fun i => Pass g age links.length (Bounded g src dst)
      (BoundedWalk g src dst) (2 * i)) hstart.start (fun i hi v w hv hpass hw => ?_) h
    obtain ⟨l, hl, hbounded⟩ := hpass.exists_link (by omega)
    have hlt : 2 * i + 1 < v.links.length := by
      rw [hpass.size]
      omega
    have hm := List.getElem?_eq_getElem hlt
    have hbounded' := hpass.todo (2 * i + 1) (by omega) _ hm
    obtain ⟨new1, new2, rest, rfl, hcases⟩ := crossPair_cases hne hl hm hbounded.1 hbounded'.1 hw
    suffices hwalks : BoundedWalk g src dst new1 ∧ BoundedWalk g src dst new2 from
      ((hpass.set hwalks.1).set hwalks.2).rng rest
    rcases hcases with ⟨rfl, rfl⟩ | ⟨hdraw, -, hexchange⟩
    · exact ⟨Bounded.walk hbounded, Bounded.walk hbounded'⟩
    · have hvisits := (hfits _ v i hu hi hv).resolve_left hdraw.not_gt
      rw [hpass.maxHop] at hvisits
      have hwalk : ∀ out, out = new1 ∨ out = new2 → BoundedWalk g src dst out := by
        intro out hout
        refine ⟨?_, hvisits _ _ out hl hm (hexchange out hout)⟩
        rcases hexchange out hout with h | h
        · exact h.isSpliced hbounded.1 hbounded'.1
        · exact h.isSpliced hbounded'.1 hbounded.1
      exact ⟨hwalk new1 (Or.inl rfl), hwalk new2 (Or.inr rfl)⟩
  exact hpass.finish fun _ l hl => Bounded.walk hl

/-- What the removal of redundancy leaves, or the search puts in its place. -/
theorem bounded_of_clean (hs : Population g age (BoundedWalk g src dst) s)
    (h : removeRedundantLink.exec s = (.ok (), t)) : Population g age (Bounded g src dst) t := by
  apply population_pass hs ?_ h
  intro i hi t u link ht hpass hlink hwalk hu
  obtain ⟨new, rest, rfl, -, hnew⟩ :=
    cleanLink_cases hlink hwalk.1.head hwalk.1.last hwalk.1.twice hu
  refine ⟨new, rest, rfl, ?_⟩
  rcases hnew with hresolves | ⟨found, hfound, hhead⟩
  · exact BoundedWalk.resolved hwalk hresolves
  · rw [hpass.maxHop, hpass.vertexs] at hfound
    exact bounded_of_found hsize htable hne hsrc hhop hfound (List.mem_of_mem_head? hhead)

omit hsize hne hsrc in
/-- A path that mutates takes a detour that its place allows. -/
theorem bounded_of_mutate (hs : Population g age (Bounded g src dst) s)
    (hfits : ∀ t, ∀ n < s.links.length, ((List.range n).forM mutateLink).exec s = (.ok (), t) →
      FitsMutation dst t n)
    (h : mutate.exec s = (.ok (), t)) : Population g age (Bounded g src dst) t := by
  have htwo := two_le_maxHop hhop
  apply population_pass hs ?_ h
  intro i hi t u link ht hpass hlink hbounded hu
  have hpath : IsPath t.vertexs.Adj src dst link := hpass.vertexs ▸ hbounded.1
  obtain ⟨new, rest, rfl, hnew⟩ :=
    mutateLink_cases (hpass.vertexs ▸ htable) (hpass.maxHop ▸ htwo) hlink hpath hu
  refine ⟨new, rest, rfl, ?_⟩
  rcases hnew with rfl | ⟨hdraw, walk, hdetour, hresolves⟩
  · exact hbounded
  · have hvisits := (hfits t i hi ht).resolve_left hdraw.not_gt link walk hlink hdetour
    have hspliced := hdetour.isSpliced hpath
    rw [hpass.vertexs] at hspliced
    rw [hpass.maxHop] at hvisits
    exact BoundedWalk.resolved ⟨hspliced, hvisits⟩ hresolves

include hdst in
theorem bounded_of_reaches {point : Point}
    (hcross : ∀ n s, ComesTo g srcDpid dstDpid minBandwidth .cross n s → FitsCross s n)
    (hmutate : ∀ n s, ComesTo g srcDpid dstDpid minBandwidth .mutate n s → FitsMutation dst s n)
    (h : Reaches g srcDpid dstDpid minBandwidth point s) :
    ∃ age, Population g age (HopInvariant g src dst point) s := by
  induction h with
  | populate h => exact ⟨_, bounded_of_populate hsize htable hne hsrc hdst hhop h⟩
  | assess _ h ih => exact ⟨_, (triple_assess.ok ih.choose_spec h).1⟩
  | cross hs h ih =>
    exact ⟨_, bounded_of_cross hne ih.choose_spec
      (fun t u n ht hn hu => hcross n u (.cross hs ht hn hu)) h⟩
  | clean _ h ih => exact ⟨_, bounded_of_clean hsize htable hne hsrc hhop ih.choose_spec h⟩
  | mutate hs h ih =>
    exact ⟨_, bounded_of_mutate htable hhop ih.choose_spec
      (fun t n hn ht => hmutate n t (.mutate hs hn ht)) h⟩
  | repair _ h ih =>
    obtain ⟨age, hpop⟩ := ih
    have hwalk := hpop.imp fun l hl => Bounded.walk hl
    exact ⟨age, bounded_of_clean hsize htable hne hsrc hhop hwalk h⟩
  | grow _ h ih =>
    obtain ⟨age, hpop⟩ := ih
    obtain ⟨-, rfl⟩ := Prod.mk.inj h
    exact ⟨age + 1, hpop.grown⟩

end runs

/-- While no exchange and no detour of a step visits too many switches, the individuals keep the
bound at each program point but the one before the removal of redundancy, and so does the path
that is read off in the end. -/
theorem getLink_within_maxHop (htop : g.IsTopology) (htable : g.vertexs.Simple)
    (hne : srcDpid ≠ dstDpid) (hsrc : g.switchQueue.idxOf? srcDpid = some src)
    (hdst : g.switchQueue.idxOf? dstDpid = some dst) (hhop : ∃ k : ℕ, 2 ≤ k ∧ g.maxHop = k)
    (hcross : ∀ n s, ComesTo g srcDpid dstDpid minBandwidth .cross n s → FitsCross s n)
    (hmutate : ∀ n s, ComesTo g srcDpid dstDpid minBandwidth .mutate n s → FitsMutation dst s n) :
    (∀ point ≠ .crossed, ∀ s, Reaches g srcDpid dstDpid minBandwidth point s →
      ∀ l ∈ s.links, Within g.maxHop l) ∧
    ∀ t, (run srcDpid dstDpid minBandwidth).exec g = (.ok (), t) → ∃ path cost u,
      getLink.exec t = (.ok (path, cost), u) ∧ Within g.maxHop path := by
  have hne' := Py.ne_of_idxOf? hne hsrc hdst
  have hreaches {point : Point} {s : GAPopulation}
      (h : Reaches g srcDpid dstDpid minBandwidth point s) :=
    bounded_of_reaches htop.size htable hne' hsrc hdst hhop hcross hmutate h
  constructor
  · intro point hpoint s hs l hl
    obtain ⟨age, hpop⟩ := hreaches hs
    have hbounded := hpop.links l hl
    cases point with
    | crossed => exact absurd rfl hpoint
    | _ => exact hbounded.2
  · intro t ht
    obtain ⟨u, hu, hassess⟩ := reaches_of_evolve ht
    obtain ⟨age, hpop⟩ := hreaches hu
    obtain ⟨hpop, hlinks, hfitness, -⟩ := triple_assess.ok hpop hassess
    have hpaths : Population g age (IsPath g.vertexs.Adj src dst) t :=
      hpop.imp fun l hl => hl.1
    obtain ⟨l, cost, v, hl, hexec, -⟩ := getLink_ok htop hne' (Py.getElem?_of_idxOf? hsrc)
      (Py.getElem?_of_idxOf? hdst) hpaths hlinks hfitness
    have hwithin := (hpop.links l (List.mem_of_getElem? hl)).2
    refine ⟨_, cost, v, hexec, ?_⟩
    rw [Within, List.length_map]
    exact hwithin


/-! With a bound of as many switches as there are, every step keeps to it. -/

section roomy
variable (htop : g.IsTopology) (hroom : (g.vertexs.length : ℚ) ≤ g.maxHop) (hne : src ≠ dst)
  (hsrc : g.switchQueue.idxOf? srcDpid = some src)
  (hdst : g.switchQueue.idxOf? dstDpid = some dst)
include htop hroom hsrc

theorem visits_of_isWalk (hl : IsWalk g.vertexs.Adj src dst l) : Visits g.maxHop l := by
  have hlt : src < g.vertexs.length :=
    htop.size ▸ (List.getElem?_eq_some_iff.mp (Py.getElem?_of_idxOf? hsrc)).1
  have hall := hl.forall_mem hlt htop.neighbors
  have hsub : l.dedup.Subperm (List.range g.vertexs.length) :=
    List.subperm_of_subset (List.nodup_dedup l) fun x hx =>
      List.mem_range.mpr (hall x (List.mem_dedup.mp hx))
  have hle := hsub.length_le
  rw [List.length_range] at hle
  have hle' : (l.dedup.length : ℚ) ≤ g.vertexs.length := by exact_mod_cast hle
  exact hle'.trans hroom

include hne hdst

theorem fitsCross_of_comesTo (h : ComesTo g srcDpid dstDpid minBandwidth .cross n s) :
    FitsCross s n := by
  obtain ⟨age, size, -, hpass⟩ := h.pass_cross htop.loops hsrc hdst hne
  refine Or.inr fun l m out hl hm hout => ?_
  have hpath := hpass.todo _ le_rfl l hl
  have hpath' := hpass.todo _ (Nat.le_succ _) m hm
  rw [hpass.maxHop]
  rcases hout with hout | hout
  · exact visits_of_isWalk htop hroom hsrc (hout.isSpliced hpath hpath').toIsWalk
  · exact visits_of_isWalk htop hroom hsrc (hout.isSpliced hpath' hpath).toIsWalk

theorem fitsMutation_of_comesTo (h : ComesTo g srcDpid dstDpid minBandwidth .mutate n s) :
    FitsMutation dst s n := by
  obtain ⟨age, size, -, hpass⟩ := h.pass_mutate htop.loops hsrc hdst hne
  refine Or.inr fun link walk hlink hdetour => ?_
  have hpath := hpass.todo n le_rfl link hlink
  rw [hpass.vertexs] at hdetour
  rw [hpass.maxHop]
  exact visits_of_isWalk htop hroom hsrc (hdetour.isSpliced hpath).toIsWalk

end roomy

theorem simple_triangle : triangle.vertexs.Simple := by
  refine ⟨by decide, isTopology_triangle.loops, by decide⟩

theorem getLink_within_maxHop_triangle :
    ((run 11 13 1).exec { triangle with maxHop := 3 }).1 = .ok () ∧
    ∀ t, (run 11 13 1).exec { triangle with maxHop := 3 } = (.ok (), t) → ∃ path cost u,
      getLink.exec t = (.ok (path, cost), u) ∧ Within 3 path := by
  have htop : IsTopology { triangle with maxHop := 3 } :=
    ⟨isTopology_triangle.size, isTopology_triangle.neighbors, isTopology_triangle.loops,
      isTopology_triangle.queue⟩
  have hroom : (triangle.vertexs.length : ℚ) ≤ 3 := by decide
  have h := @getLink_within_maxHop 0 2 11 13 1 _ htop simple_triangle (by decide) rfl rfl
    ⟨3, by decide, rfl⟩ (fun n s => fitsCross_of_comesTo htop hroom (by decide) rfl rfl)
    (fun n s => fitsMutation_of_comesTo htop hroom (by decide) rfl rfl)
  exact ⟨by decide +kernel, h.2⟩

/-- Six switches, and draws that cross two paths with five of them each. -/
def crossroads : GAPopulation where
  switchQueue := [10, 11, 12, 13, 14, 15]
  vertexs := [⟨2, [1, 4], [0, 1]⟩, ⟨4, [0, 4, 2, 3], [0, 2, 3, 4]⟩, ⟨3, [1, 3, 5], [3, 5, 6]⟩,
    ⟨2, [1, 2], [4, 5]⟩, ⟨2, [0, 1], [1, 2]⟩, ⟨1, [2], [6]⟩]
  edges := [⟨0, 1, 9, 1, some 5, 10⟩, ⟨0, 4, 1, 1, some 5, 10⟩, ⟨1, 4, 1, 1, some 5, 10⟩,
    ⟨1, 2, 9, 1, some 5, 10⟩, ⟨1, 3, 1, 1, some 5, 10⟩, ⟨2, 3, 1, 1, some 5, 10⟩,
    ⟨2, 5, 1, 1, some 5, 10⟩]
  maxHop := 5
  rng n :=
    if n = 1 then ⟨5 / 8, by norm_num, by norm_num⟩
    else if 2 ≤ n ∧ n < 11 then .half
    else .zero

theorem isTopology_crossroads : crossroads.IsTopology where
  size := rfl
  neighbors := Vertexs.forall_adj_iff.mpr (by decide)
  loops := Vertexs.noSelfLoops_iff.mpr (by decide)
  queue := by decide

theorem simple_crossroads : crossroads.vertexs.Simple := by
  refine ⟨by decide, isTopology_crossroads.loops, by decide⟩

theorem getLink_beyond_maxHop : ¬ ∀ (g : GAPopulation) (srcDpid dstDpid : ℕ) (minBandwidth : ℚ),
    g.IsTopology → g.vertexs.Simple → srcDpid ≠ dstDpid → (∃ k : ℕ, 2 ≤ k ∧ g.maxHop = k) →
    ∀ t, (run srcDpid dstDpid minBandwidth).exec g = (.ok (), t) → ∃ path cost u,
      getLink.exec t = (.ok (path, cost), u) ∧ Within g.maxHop path := by
  intro h
  have hok : ((run 10 15 1).exec crossroads).1 = .ok () := by decide +kernel
  have hlink : (getLink.exec ((run 10 15 1).exec crossroads).2).1 =
      .ok ([10, 14, 11, 13, 12, 15], 5) := by decide +kernel
  obtain ⟨path, cost, u, hpath, hwithin⟩ := h crossroads 10 15 1 isTopology_crossroads
    simple_crossroads (by decide) ⟨5, by decide, rfl⟩ _ (Py.exec_of_ok hok)
  rw [hpath] at hlink
  obtain rfl := (Prod.mk.inj (Except.ok.inj hlink)).1
  exact absurd hwithin (by decide)

end SDRoute.GAPopulation
