import SDRoute.Algorithm.GAEvolution
import SDRoute.Algorithm.MutationSafety

/-! The steps of a run of `evolve`: each operator takes one individual, or a pair, at a time. -/
namespace SDRoute.GAPopulation

variable {R : ℕ → ℕ → Prop} {src dst n : ℕ} {l m link lists : List ℕ} {g s t u : GAPopulation}

/-- The operators of a round, in order. -/
inductive Operator
  | cross
  | clean
  | mutate
  | repair
deriving DecidableEq, Repr

/-- Start of `cross`. -/
def shuffleLinks : Py GAPopulation Unit := do
  let s ← get
  let links ← onRng (Rng.shuffle s.links)
  modify fun s => { s with links }

/-- The states in which a run of `evolve` from `g` comes to a step of an operator. -/
inductive ComesTo (g : GAPopulation) (srcDpid dstDpid : ℕ) (minBandwidth : ℚ) :
    Operator → ℕ → GAPopulation → Prop
  | cross {s t u : GAPopulation} {n : ℕ} (hs : Reaches g srcDpid dstDpid minBandwidth .selected s)
    (ht : shuffleLinks.exec s = (.ok (), t)) (hn : n < t.links.length / 2)
    (hu : ((List.range n).forM crossPair).exec t = (.ok (), u)) :
    ComesTo g srcDpid dstDpid minBandwidth .cross n u
  | clean {s t : GAPopulation} {n : ℕ} (hs : Reaches g srcDpid dstDpid minBandwidth .crossed s)
    (hn : n < s.links.length) (ht : ((List.range n).forM cleanLink).exec s = (.ok (), t)) :
    ComesTo g srcDpid dstDpid minBandwidth .clean n t
  | mutate {s t : GAPopulation} {n : ℕ} (hs : Reaches g srcDpid dstDpid minBandwidth .cleaned s)
    (hn : n < s.links.length) (ht : ((List.range n).forM mutateLink).exec s = (.ok (), t)) :
    ComesTo g srcDpid dstDpid minBandwidth .mutate n t
  | repair {s t : GAPopulation} {n : ℕ} (hs : Reaches g srcDpid dstDpid minBandwidth .mutated s)
    (hn : n < s.links.length) (ht : ((List.range n).forM cleanLink).exec s = (.ok (), t)) :
    ComesTo g srcDpid dstDpid minBandwidth .repair n t

/-- The first population is what the search finds. -/
theorem populate_ok {srcDpid dstDpid : ℕ} (hsrc : g.switchQueue.idxOf? srcDpid = some src)
    (hdst : g.switchQueue.idxOf? dstDpid = some dst)
    (h : (populate srcDpid dstDpid).exec g = (.ok (), s)) :
    ∃ found, findPathDfs src dst g.maxHop g.vertexs = .ok found ∧
      s = { g with links := found } := by
  rw [populate, Py.exec_bind_of_ok (Py.exec_get g), hsrc, hdst, Py.ofOption_some, Py.ofOption_some,
    pure_bind, pure_bind] at h
  obtain ⟨found, v, hv, h⟩ := Py.exec_bind_ok.mp h
  rw [Py.exec_ofExcept] at hv
  obtain ⟨hfound, rfl⟩ := Prod.mk.inj hv
  obtain ⟨-, rfl⟩ := Prod.mk.inj h
  exact ⟨found, hfound, rfl⟩

theorem exec_cross (s : GAPopulation) :
    cross.exec s = (shuffleLinks >>= fun _ => do
      let s ← get
      (List.range (s.links.length / 2)).forM crossPair).exec s := by
  rw [cross, Py.exec_bind_of_ok (Py.exec_get s), Py.exec_bind, Py.exec_bind, shuffleLinks,
    Py.exec_bind_of_ok (Py.exec_get s), Py.exec_bind]
  rcases (onRng (Rng.shuffle s.links)).exec s with ⟨e | links, t⟩ <;> rfl

theorem shuffleLinks_ok (h : shuffleLinks.exec s = (.ok (), t)) :
    ∃ links rest, t = { s with links, rng := rest } ∧ links.Perm s.links := by
  rw [shuffleLinks, Py.exec_bind_of_ok (Py.exec_get s)] at h
  obtain ⟨links, v, hv, h⟩ := Py.exec_bind_ok.mp h
  rw [exec_onRng] at hv
  obtain ⟨hshuffle, rfl⟩ := Prod.mk.inj hv
  obtain ⟨-, rfl⟩ := Prod.mk.inj h
  exact ⟨links, _, rfl, (Rng.triple_shuffle (E := fun _ => True) s.links).ok trivial
    (Py.exec_of_ok hshuffle)⟩

/-! What a step can do. -/

/-- Two lists that share just their ends stay as they are. -/
theorem listCross_apart (h : (l.filter (· ∈ m)).length = 2) :
    ∃ answer, listCross l m = return (answer, l, m) := by
  rw [listCross]
  split
  · exact ⟨none, rfl⟩
  · exact ⟨some false, if_pos h⟩

/-- A pair stays as it is, or the draw lets it exchange sections. -/
theorem crossPair_cases (hne : src ≠ dst) (hl : t.links[2 * n]? = some l)
    (hm : t.links[2 * n + 1]? = some m) (h1 : IsPath R src dst l) (h2 : IsPath R src dst m)
    (h : (crossPair n).exec t = (.ok (), u)) :
    ∃ new1 new2 rest,
      u = { t with links := (t.links.set (2 * n) new1).set (2 * n + 1) new2, rng := rest } ∧
      ((new1 = l ∧ new2 = m) ∨ (t.rng 0).val ≤ t.crossoverProbability ∧
        (l.filter (· ∈ m)).length ≠ 2 ∧
        ∀ out, out = new1 ∨ out = new2 → Exchanged l m out ∨ Exchanged m l out) := by
  rw [crossPair, Py.exec_bind_of_ok (Py.exec_get t),
    Py.exec_bind_of_ok (exec_onRng Rng.random t)] at h
  by_cases hskip : (t.rng 0).val > t.crossoverProbability
  · rw [Rng.exec_random, if_pos hskip] at h
    obtain ⟨-, rfl⟩ := Prod.mk.inj h
    refine ⟨l, m, fun n => t.rng (n + 1), ?_, Or.inl ⟨rfl, rfl⟩⟩
    rw [Py.set_of_getElem? hl, Py.set_of_getElem? hm]
  · rw [Rng.exec_random, if_neg hskip, hl, hm, Py.ofOption_some, Py.ofOption_some, pure_bind,
      pure_bind] at h
    obtain ⟨⟨answer, new1, new2⟩, v, hv, h⟩ := Py.exec_bind_ok.mp h
    rw [exec_onRng] at hv
    obtain ⟨hcross, rfl⟩ := Prod.mk.inj hv
    obtain ⟨-, rfl⟩ := Prod.mk.inj h
    refine ⟨new1, new2, _, rfl, ?_⟩
    by_cases hapart : (l.filter (· ∈ m)).length = 2
    · obtain ⟨answer', hstays⟩ := listCross_apart hapart
      rw [hstays] at hcross
      obtain ⟨-, hnew⟩ := Prod.mk.inj (Except.ok.inj hcross)
      obtain ⟨rfl, rfl⟩ := Prod.mk.inj hnew
      exact Or.inl ⟨rfl, rfl⟩
    · have hexchange := (triple_listCross_exchange (E := fun _ => True) h1 h2 hne).ok trivial
        (Py.exec_of_ok hcross)
      exact Or.inr ⟨not_lt.mp hskip, hapart, hexchange⟩

theorem removeRedundancy_nodup (h : lists.Nodup) :
    removeRedundancy lists = return (some lists) := by
  have hcount := List.nodup_iff_count_le_one.mp h
  obtain ⟨red, hred, hr⟩ := redDict_ok fun x => (hcount x).trans one_le_two
  have hnone : red.items = [] := by
    refine List.eq_nil_iff_forall_not_mem.mpr ?_
    rintro ⟨x, a, b⟩ hitem
    have hplaces := congrArg List.length ((hr x a b).mp (Dict.mem_items.mp hitem))
    have hcount := hcount x
    rw [length_positions] at hplaces
    simp at hplaces
    omega
  simp [removeRedundancy, hred, hnone, Py.ofExcept]

/-- The redundancy of an individual is removed, or the search answers. A path stays as it is. -/
theorem cleanLink_cases (hlink : t.links[n]? = some link) (hhead : link.head? = some src)
    (hlast : link.getLast? = some dst) (htwice : TwiceAtMost link)
    (h : (cleanLink n).exec t = (.ok (), u)) :
    ∃ new rest, u = { t with links := t.links.set n new, rng := rest } ∧
      (link.Nodup → new = link) ∧ (Resolves link new ∨
        ∃ found, findPathDfs src dst t.maxHop t.vertexs = .ok found ∧ found.head? = some new) := by
  rw [cleanLink, Py.exec_bind_of_ok (Py.exec_get t), hlink, Py.ofOption_some, pure_bind] at h
  obtain ⟨result, v, hv, h⟩ := Py.exec_bind_ok.mp h
  rw [exec_onRng] at hv
  obtain ⟨htry, rfl⟩ := Prod.mk.inj hv
  obtain ⟨new, w, hw, h⟩ := Py.exec_bind_ok.mp h
  obtain ⟨-, rfl⟩ := Prod.mk.inj h
  have hkept : link.Nodup → result = some link := by
    intro hnodup
    have hreturn : tryRedundancy link = return (some link) := by
      simp [tryRedundancy, removeRedundancy_nodup hnodup]
    rw [hreturn] at htry
    exact (Except.ok.inj htry).symm
  cases result with
  | some out =>
    obtain ⟨hout, rfl⟩ := Prod.mk.inj hw
    obtain rfl := Except.ok.inj hout
    refine ⟨out, _, rfl, fun hnodup => Option.some.inj (hkept hnodup), Or.inl ?_⟩
    have hresolves := (triple_tryRedundancy (E := fun _ => True) htwice).ok trivial
      (Py.exec_of_ok htry)
    exact hresolves out rfl
  | none =>
    rw [cleaned, Py.exec_bind_of_ok (Py.exec_get _), hhead, hlast, Py.ofOption_some,
      Py.ofOption_some, pure_bind, pure_bind] at hw
    obtain ⟨found, w', hfound, hw⟩ := Py.exec_bind_ok.mp hw
    rw [Py.exec_ofExcept] at hfound
    obtain ⟨hsearch, rfl⟩ := Prod.mk.inj hfound
    obtain ⟨hnew, rfl⟩ := Py.exec_ofOption_ok.mp hw
    exact ⟨new, _, rfl, fun hnodup => absurd (hkept hnodup) nofun, Or.inr ⟨found, hsearch, hnew⟩⟩

/-- An inner vertex of a path gives way to another neighbor of the one before, and a path from
there goes on. -/
def Detour (vertexs : Vertexs) (maxHop : ℚ) (dst : ℕ) (link walk : List ℕ) : Prop :=
  ∃ k v p, Replaces vertexs link k v ∧ IsPath vertexs.Adj v dst p ∧ p.length ≤ ⌈maxHop⌉₊ ∧
    walk = link.take k ++ p

theorem Detour.isSpliced {vertexs : Vertexs} {maxHop : ℚ} {walk : List ℕ}
    (h : Detour vertexs maxHop dst link walk) (hlink : IsPath vertexs.Adj src dst link) :
    IsSpliced vertexs.Adj src dst walk := by
  obtain ⟨k, v, p, ⟨j, x, y, rfl, -, hx, -, hadj, -⟩, hp, -, rfl⟩ := h
  exact isSpliced_detour hlink (Nat.succ_pos j) hx hadj hp

/-- An individual stays as it is, or the draw lets it take a detour. -/
theorem mutateLink_cases (htable : t.vertexs.Simple) (hhop : 2 ≤ t.maxHop)
    (hlink : t.links[n]? = some link) (hpath : IsPath t.vertexs.Adj src dst link)
    (h : (mutateLink n).exec t = (.ok (), u)) :
    ∃ new rest, u = { t with links := t.links.set n new, rng := rest } ∧
      (new = link ∨ (t.rng 0).val ≤ t.mutationProbability ∧
        ∃ walk, Detour t.vertexs t.maxHop dst link walk ∧ Resolves walk new) := by
  rw [mutateLink, Py.exec_bind_of_ok (Py.exec_get t), hlink, Py.ofOption_some, pure_bind,
    Py.exec_bind_of_ok (exec_onRng Rng.random t), Rng.exec_random] at h
  by_cases hskip : (t.rng 0).val > t.mutationProbability ∨ link.length = 2
  · rw [if_pos hskip] at h
    obtain ⟨-, rfl⟩ := Prod.mk.inj h
    exact ⟨link, fun n => t.rng (n + 1), by rw [Py.set_of_getElem? hlink], Or.inl rfl⟩
  rw [if_neg hskip] at h
  rw [not_or, not_lt] at hskip
  obtain ⟨⟨v, m⟩, w, hw, h⟩ := Py.exec_bind_ok.mp h
  rw [exec_onRng] at hw
  obtain ⟨hselect, rfl⟩ := Prod.mk.inj hw
  have hreplaces := (triple_selectOther hpath htable).ok trivial (Py.exec_of_ok hselect)
  obtain ⟨j, x, y, rfl, hj, hx, -, hadj, -⟩ := id hreplaces
  dsimp only at h hreplaces
  cases hboost : mutateBoost (link.set (j + 1) v) (j + 1) with
  | some newLink =>
    rw [hboost] at h
    obtain ⟨-, rfl⟩ := Prod.mk.inj h
    have hnew := isPath_mutateBoost hpath (Nat.succ_pos j) hx hadj (by omega) hboost
    obtain ⟨rfl, hwalk⟩ := mutateBoost_some hpath (by omega) hboost
    refine ⟨newLink, _, rfl, Or.inr ⟨hskip.1, newLink, ?_, hnew.nodup, fun _ _ _ h => h⟩⟩
    have hend : IsPath t.vertexs.Adj v v [v] :=
      ⟨⟨rfl, rfl, List.isChain_singleton v⟩, List.nodup_singleton v⟩
    exact ⟨j + 1, v, [v], hreplaces, hend, Nat.one_le_ceil_iff.mpr (zero_lt_two.trans_le hhop),
      hwalk⟩
  | none =>
    rw [hboost] at h
    obtain ⟨result, w, hw, h⟩ := Py.exec_bind_ok.mp h
    rw [exec_onRng] at hw
    obtain ⟨hfind, rfl⟩ := Prod.mk.inj hw
    obtain ⟨-, rfl⟩ := Prod.mk.inj h
    obtain ⟨found, hfound, hmem⟩ :=
      found_at htable hhop hadj (mutateBoost_none hpath (by omega) hboost)
    have hnew := (triple_mutateFindNewPath_found (m := j + 1) (v := v) hpath (by omega) hfound
      fun p hp => ((hmem p).mp hp).1).ok trivial (Py.exec_of_ok hfind)
    cases result with
    | none => exact ⟨link, _, rfl, Or.inl rfl⟩
    | some new =>
      obtain ⟨p, hp, hresolves⟩ := hnew new rfl
      obtain ⟨hpathTo, hlength⟩ := (hmem p).mp hp
      exact ⟨new, _, rfl, Or.inr ⟨hskip.1, _, ⟨j + 1, v, p, hreplaces, hpathTo, hlength, rfl⟩,
        hresolves⟩⟩

/-! The population in the middle of an operator. -/

section population
variable {srcDpid dstDpid age : ℕ} {minBandwidth : ℚ} {P : List ℕ → Prop}

theorem Population.shuffled (hs : Population g age P s) (h : shuffleLinks.exec s = (.ok (), t)) :
    Population g age P t := by
  obtain ⟨links, rest, rfl, hperm⟩ := shuffleLinks_ok h
  exact ⟨hs.1, hs.2, hs.3, hs.4, hs.5, fun l hl => hs.links l (hperm.mem_iff.mp hl)⟩

/-- Nothing is redundant in a path. -/
theorem Population.repaired (hs : Population g age (IsPath R src dst) s)
    (h : removeRedundantLink.exec s = (.ok (), t)) : ∃ rest, t = { s with rng := rest } := by
  rw [removeRedundantLink, Py.exec_bind_of_ok (Py.exec_get s)] at h
  refine Py.forM_range_induction (J := fun _ t => ∃ rest, t = { s with rng := rest }) ⟨s.rng, rfl⟩
    (fun i hi t u ht hrest hu => ?_) h
  obtain ⟨rest, rfl⟩ := hrest
  have hlink : s.links[i]? = some s.links[i] := List.getElem?_eq_getElem hi
  have hpath := hs.links _ (List.getElem_mem hi)
  obtain ⟨new, rest', rfl, hkept, -⟩ :=
    cleanLink_cases (t := { s with rng := rest }) hlink hpath.head hpath.last
      hpath.spliced.twice hu
  rw [hkept hpath.nodup]
  exact ⟨rest', by rw [Py.set_of_getElem? hlink]⟩

variable (hloops : g.vertexs.NoSelfLoops) (hsrc : g.switchQueue.idxOf? srcDpid = some src)
  (hdst : g.switchQueue.idxOf? dstDpid = some dst) (hne : src ≠ dst)
include hloops hsrc hdst hne

theorem ComesTo.pass_cross (h : ComesTo g srcDpid dstDpid minBandwidth .cross n s) :
    ∃ age size, 2 * n + 1 < size ∧ Pass g age size (IsPath g.vertexs.Adj src dst)
      (IsSpliced g.vertexs.Adj src dst) (2 * n) s := by
  cases h with
  | @cross s t u n hs ht hn hu =>
    obtain ⟨age, hpop⟩ := population_of_reaches hloops hsrc hdst hne hs
    have hstart := (Population.shuffled hpop ht).start (Q := IsSpliced g.vertexs.Adj src dst)
    have hpass := Py.Triple.forM_range (n := n) (J := fun i => Pass g age t.links.length
      (IsPath g.vertexs.Adj src dst) (IsSpliced g.vertexs.Adj src dst) (2 * i))
      fun i hi => triple_crossPair (E := fun _ => True) hne (by omega)
    exact ⟨age, _, by omega, hpass.ok hstart hu⟩

theorem ComesTo.pass_clean (h : ComesTo g srcDpid dstDpid minBandwidth .clean n s) :
    ∃ age size, n < size ∧ Pass g age size (IsSpliced g.vertexs.Adj src dst)
      (IsPath g.vertexs.Adj src dst) n s := by
  cases h with
  | @clean s t n hs hn ht =>
    obtain ⟨age, hpop⟩ := population_of_reaches hloops hsrc hdst hne hs
    have hpass := Py.Triple.forM_range (n := n) (J := Pass g age s.links.length
      (IsSpliced g.vertexs.Adj src dst) (IsPath g.vertexs.Adj src dst))
      fun i hi => triple_cleanLink hloops (hi.trans hn)
    exact ⟨age, _, hn, hpass.ok (Population.start hpop) ht⟩

theorem ComesTo.pass_mutate (h : ComesTo g srcDpid dstDpid minBandwidth .mutate n s) :
    ∃ age size, n < size ∧ Pass g age size (IsPath g.vertexs.Adj src dst)
      (IsPath g.vertexs.Adj src dst) n s := by
  cases h with
  | @mutate s t n hs hn ht =>
    obtain ⟨age, hpop⟩ := population_of_reaches hloops hsrc hdst hne hs
    have hpass := Py.Triple.forM_range (n := n) (J := Pass g age s.links.length
      (IsPath g.vertexs.Adj src dst) (IsPath g.vertexs.Adj src dst))
      fun i hi => triple_mutateLink hloops (hi.trans hn)
    exact ⟨age, _, hn, hpass.ok (Population.start hpop) ht⟩

end population

end SDRoute.GAPopulation
