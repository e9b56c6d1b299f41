import Mathlib.Tactic.IntervalCases
import SDRoute.Algorithm.Bandwidth

/-! Whether a run of `evolve` keeps a path that meets the bandwidth demand: selection does, the
other operators may lose the last one. -/
namespace SDRoute.GAPopulation

variable {src dst srcDpid dstDpid age n : ℕ} {minBandwidth : ℚ} {g s t u : GAPopulation}
  {l m link : List ℕ} {goesOn : Bool}

/-- A state that differs in what a run writes. -/
def Derives (g s : GAPopulation) : Prop :=
  ∃ links fitness age rng, s = { g with links, fitness, age, rng }

/-- Some individual has the bandwidth. -/
structure Supplied (g : GAPopulation) (minBandwidth : ℚ) (s : GAPopulation) : Prop where
  derives : Derives g s
  link : ∃ l ∈ s.links, l.IsChain (g.Carries minBandwidth)

/-- An individual that has the bandwidth stands at none of some places. -/
def Elsewhere (g : GAPopulation) (minBandwidth : ℚ) (s : GAPopulation) (places : List ℕ) : Prop :=
  ∃ k l, k ∉ places ∧ s.links[k]? = some l ∧ l.IsChain (g.Carries minBandwidth)

/-- The pair is not crossed, or it is not needed, or it shares just its ends, or both of it have
the bandwidth. -/
def SparesCross (g : GAPopulation) (minBandwidth : ℚ) (s : GAPopulation) (n : ℕ) : Prop :=
  (s.rng 0).val > s.crossoverProbability ∨ Elsewhere g minBandwidth s [2 * n, 2 * n + 1] ∨
    ∀ l m, s.links[2 * n]? = some l → s.links[2 * n + 1]? = some m →
      (l.filter (· ∈ m)).length = 2 ∨
        (l.IsChain (g.Carries minBandwidth) ∧ m.IsChain (g.Carries minBandwidth))

/-- The individual has no redundancy, or it is not needed, or the first path that the search finds
has the bandwidth. -/
def SparesClean (g : GAPopulation) (minBandwidth : ℚ) (src dst : ℕ) (s : GAPopulation) (n : ℕ) :
    Prop :=
  (∀ link, s.links[n]? = some link → link.Nodup) ∨ Elsewhere g minBandwidth s [n] ∨
    ∀ found p, findPathDfs src dst s.maxHop s.vertexs = .ok found → found.head? = some p →
      p.IsChain (g.Carries minBandwidth)

/-- The individual does not mutate, or it is not needed, or all of its detours have the
bandwidth. -/
def SparesMutation (g : GAPopulation) (minBandwidth : ℚ) (dst : ℕ) (s : GAPopulation) (n : ℕ) :
    Prop :=
  (s.rng 0).val > s.mutationProbability ∨ Elsewhere g minBandwidth s [n] ∨
    ∀ link walk, s.links[n]? = some link → Detour s.vertexs s.maxHop dst link walk →
      walk.IsChain (g.Carries minBandwidth)

theorem Derives.writes (h : Derives g s) (links : List (List ℕ)) (rng : Rng) :
    Derives g { s with links, rng } := by
  obtain ⟨_, _, _, _, rfl⟩ := h
  exact ⟨_, _, _, _, rfl⟩

theorem Derives.fitnessEvaluate_eq (h : Derives g s) (paths : List (List ℕ)) :
    s.fitnessEvaluate paths minBandwidth = g.fitnessEvaluate paths minBandwidth := by
  obtain ⟨_, _, _, _, rfl⟩ := h
  rfl

/-- One individual is replaced, and another one has the bandwidth, or the new one does if the old
one did. -/
theorem Supplied.replaced (h : Supplied g minBandwidth s) (hlink : s.links[n]? = some link)
    (new : List ℕ) (rest : Rng) (hnew : Elsewhere g minBandwidth s [n] ∨
      (link.IsChain (g.Carries minBandwidth) → new.IsChain (g.Carries minBandwidth))) :
    Supplied g minBandwidth { s with links := s.links.set n new, rng := rest } := by
  refine ⟨h.derives.writes _ _, ?_⟩
  have hother : Elsewhere g minBandwidth s [n] →
      ∃ l ∈ s.links.set n new, l.IsChain (g.Carries minBandwidth) := by
    rintro ⟨k, l, hk, hl, hchain⟩
    refine ⟨l, List.mem_of_getElem? (i := k) ?_, hchain⟩
    rwa [List.getElem?_set_ne (by simpa [eq_comm] using hk)]
  rcases hnew with helse | hnew
  · exact hother helse
  · obtain ⟨l, hl, hchain⟩ := h.link
    obtain ⟨k, hk⟩ := List.mem_iff_getElem?.mp hl
    by_cases hkn : k = n
    · subst hkn
      obtain rfl := Option.some.inj (hlink.symm.trans hk)
      exact ⟨new, List.mem_set (List.getElem?_eq_some_iff.mp hk).1 new, hnew hchain⟩
    · exact hother ⟨k, l, by simpa using hkn, hk, hchain⟩

theorem assess_ok (h : (assess minBandwidth).exec s = (.ok goesOn, t)) :
    ∃ fitness links rest fitness', s.fitnessEvaluate s.links minBandwidth = .ok fitness ∧
      (select s.links fitness).exec s.rng = (.ok links, rest) ∧
      s.fitnessEvaluate links minBandwidth = .ok fitness' ∧
      t = { s with links, fitness := fitness', rng := rest } := by
  rw [assess, Py.exec_bind_of_ok (Py.exec_get s)] at h
  obtain ⟨fitness, v, hv, h⟩ := Py.exec_bind_ok.mp h
  rw [Py.exec_ofExcept] at hv
  obtain ⟨hfitness, rfl⟩ := Prod.mk.inj hv
  rw [Py.exec_bind_of_ok (Py.exec_modify _ _)] at h
  obtain ⟨links, w, hw, h⟩ := Py.exec_bind_ok.mp h
  rw [exec_onRng] at hw
  obtain ⟨hselect, rfl⟩ := Prod.mk.inj hw
  rw [Py.exec_bind_of_ok (Py.exec_modify _ _)] at h
  obtain ⟨fitness', x, hx, h⟩ := Py.exec_bind_ok.mp h
  rw [Py.exec_ofExcept] at hx
  obtain ⟨hfitness', rfl⟩ := Prod.mk.inj hx
  rw [Py.exec_bind_of_ok (Py.exec_modify _ _)] at h
  obtain ⟨item, y, hy, h⟩ := Py.exec_bind_ok.mp h
  obtain ⟨-, rfl⟩ := Py.exec_ofOption_ok.mp hy
  refine ⟨fitness, links, _, fitness', hfitness, Py.exec_of_ok hselect, hfitness', ?_⟩
  split at h <;> exact (Prod.mk.inj h).2.symm

/-- Selection keeps the bandwidth, and the fitness tells where. -/
theorem supplied_assess (haligned : GATables.Aligned g)
    (hcharges : g.ChargesNonneg minBandwidth src dst)
    (hpaths : ∀ l ∈ s.links, IsPath g.vertexs.Adj src dst l) (hs : Supplied g minBandwidth s)
    (h : (assess minBandwidth).exec s = (.ok goesOn, t)) : Supplied g minBandwidth t ∧
      Separates (fun l => l.IsChain (g.Carries minBandwidth)) t.links t.fitness := by
  obtain ⟨fitness, links, rest, fitness', hfitness, hselect, hfitness', rfl⟩ := assess_ok h
  rw [hs.derives.fitnessEvaluate_eq] at hfitness hfitness'
  have hmem := (triple_select s.links fitness).ok trivial hselect
  have hseparates := separates_of_fitnessEvaluate haligned hcharges hpaths hfitness
  refine ⟨⟨?_, (triple_select_separates hseparates hs.link).ok trivial hselect⟩, ?_⟩
  · obtain ⟨_, _, _, _, rfl⟩ := hs.derives
    exact ⟨_, _, _, _, rfl⟩
  · have hpaths' : ∀ l ∈ links, IsPath g.vertexs.Adj src dst l := fun l hl => hpaths l (hmem l hl)
    exact separates_of_fitnessEvaluate haligned hcharges hpaths' hfitness'

section steps
variable (htop : g.IsTopology) (hne : src ≠ dst)
  (hsrc : g.switchQueue.idxOf? srcDpid = some src)
  (hdst : g.switchQueue.idxOf? dstDpid = some dst)
include htop hne hsrc hdst

theorem supplied_crossPair (hcomes : ComesTo g srcDpid dstDpid minBandwidth .cross n t)
    (hs : Supplied g minBandwidth t) (hspares : SparesCross g minBandwidth t n)
    (h : (crossPair n).exec t = (.ok (), u)) : Supplied g minBandwidth u := by
  obtain ⟨age, size, hn, hpass⟩ := hcomes.pass_cross htop.loops hsrc hdst hne
  obtain ⟨l, hl, hpath⟩ := hpass.exists_link (by omega)
  have hlt : 2 * n + 1 < t.links.length := hpass.size ▸ hn
  have hm := List.getElem?_eq_getElem hlt
  have hpath' := hpass.todo (2 * n + 1) (by omega) _ hm
  obtain ⟨new1, new2, rest, rfl, hcases⟩ := crossPair_cases hne hl hm hpath hpath' h
  rcases hcases with ⟨rfl, rfl⟩ | ⟨hdraw, hapart, hexchange⟩
  · rw [Py.set_of_getElem? hl, Py.set_of_getElem? hm]
    exact ⟨hs.derives.writes _ _, hs.link⟩
  have hm' : (t.links.set (2 * n) new1)[2 * n + 1]? = some t.links[2 * n + 1] := by
    rw [List.getElem?_set_ne (by omega), hm]
  rcases hspares.resolve_left hdraw.not_gt with ⟨k, l', hk, hl', hchain⟩ | hpair
  · simp only [List.mem_cons, List.not_mem_nil, or_false, not_or] at hk
    have hfirst := hs.replaced hl new1 t.rng (Or.inl ⟨k, l', by simp [hk.1], hl', hchain⟩)
    refine hfirst.replaced hm' new2 rest (Or.inl ⟨k, l', by simp [hk.2], ?_, hchain⟩)
    rwa [List.getElem?_set_ne (Ne.symm hk.1)]
  · obtain ⟨hchain, hchain'⟩ := (hpair l _ hl hm).resolve_left hapart
    have hnew : ∀ out, out = new1 ∨ out = new2 → out.IsChain (g.Carries minBandwidth) := by
      intro out hout
      have hwide : IsPath (g.Carries minBandwidth) src dst l :=
        ⟨⟨hpath.head, hpath.last, hchain⟩, hpath.nodup⟩
      have hwide' : IsPath (g.Carries minBandwidth) src dst t.links[2 * n + 1] :=
        ⟨⟨hpath'.head, hpath'.last, hchain'⟩, hpath'.nodup⟩
      rcases hexchange out hout with h | h
      · exact (h.isSpliced hwide hwide').chain
      · exact (h.isSpliced hwide' hwide).chain
    have hfirst := hs.replaced hl new1 t.rng (Or.inr fun _ => hnew new1 (Or.inl rfl))
    exact hfirst.replaced hm' new2 rest (Or.inr fun _ => hnew new2 (Or.inr rfl))

theorem supplied_cleanLink (hcomes : ComesTo g srcDpid dstDpid minBandwidth .clean n t)
    (hs : Supplied g minBandwidth t) (hspares : SparesClean g minBandwidth src dst t n)
    (h : (cleanLink n).exec t = (.ok (), u)) : Supplied g minBandwidth u := by
  obtain ⟨age, size, hn, hpass⟩ := hcomes.pass_clean htop.loops hsrc hdst hne
  obtain ⟨link, hlink, hwalk⟩ := hpass.exists_link hn
  obtain ⟨new, rest, rfl, hkept, hnew⟩ := cleanLink_cases hlink hwalk.head hwalk.last hwalk.twice h
  apply hs.replaced hlink new rest
  rcases hspares with hnodup | helse | hfirst
  · right
    rw [hkept (hnodup link hlink)]
    exact id
  · exact Or.inl helse
  · right
    intro hchain
    rcases hnew with hresolves | ⟨found, hfound, hhead⟩
    · exact (hresolves.2 _ src dst ⟨hwalk.head, hwalk.last, hchain⟩).chain
    · exact hfirst found new hfound hhead

theorem supplied_mutateLink (htable : g.vertexs.Simple) (htwo : 2 ≤ g.maxHop)
    (hcomes : ComesTo g srcDpid dstDpid minBandwidth .mutate n t)
    (hs : Supplied g minBandwidth t) (hspares : SparesMutation g minBandwidth dst t n)
    (h : (mutateLink n).exec t = (.ok (), u)) : Supplied g minBandwidth u := by
  obtain ⟨age, size, hn, hpass⟩ := hcomes.pass_mutate htop.loops hsrc hdst hne
  obtain ⟨link, hlink, hpath⟩ := hpass.exists_link hn
  rw [← hpass.vertexs] at hpath
  obtain ⟨new, rest, rfl, hnew⟩ :=
    mutateLink_cases (hpass.vertexs ▸ htable) (hpass.maxHop ▸ htwo) hlink hpath h
  apply hs.replaced hlink new rest
  rcases hnew with rfl | ⟨hdraw, walk, hdetour, hresolves⟩
  · exact Or.inr id
  · rcases hspares.resolve_left hdraw.not_gt with helse | hall
    · exact Or.inl helse
    · have hwalk := hdetour.isSpliced hpath
      have hchain := hall link walk hlink hdetour
      exact Or.inr fun _ => (hresolves.2 _ src dst ⟨hwalk.head, hwalk.last, hchain⟩).chain

end steps

section runs
variable (htop : g.IsTopology) (htable : g.vertexs.Simple) (haligned : GATables.Aligned g)
  (hne : src ≠ dst) (hsrc : g.switchQueue.idxOf? srcDpid = some src)
  (hdst : g.switchQueue.idxOf? dstDpid = some dst)
  (hcharges : g.ChargesNonneg minBandwidth src dst)
  (hpath : ∃ p, IsPath (g.Carries minBandwidth) src dst p ∧ (p.length : ℚ) ≤ g.maxHop)
include htop htable haligned hne hsrc hdst hcharges hpath

omit htop htable haligned hsrc hdst hcharges in
theorem two_le_maxHop_of_path : 2 ≤ g.maxHop := by
  obtain ⟨p, hp, hlength⟩ := hpath
  have htwo : (2 : ℚ) ≤ p.length := by exact_mod_cast hp.toIsWalk.two_le_length hne
  exact htwo.trans hlength

omit haligned hcharges in
/-- The search finds the path. -/
theorem supplied_populate (h : (populate srcDpid dstDpid).exec g = (.ok (), s)) :
    Supplied g minBandwidth s := by
  have htwo := two_le_maxHop_of_path hne hpath
  obtain ⟨p, hp, hlength⟩ := hpath
  obtain ⟨links, hinit, rfl⟩ := populate_ok hsrc hdst h
  have hlt : src < g.vertexs.length :=
    htop.size ▸ (List.getElem?_eq_some_iff.mp (Py.getElem?_of_idxOf? hsrc)).1
  obtain ⟨found, hfound, -, hmem⟩ := findPathDfs_simple_paths htable hlt hne htwo
  obtain rfl := Except.ok.inj (hinit.symm.trans hfound)
  refine ⟨⟨_, _, _, _, rfl⟩, p, (hmem p).mpr ⟨?_, ?_⟩, hp.chain⟩
  · exact ⟨⟨hp.head, hp.last, hp.chain.imp fun _ _ h => h.1⟩, hp.nodup⟩
  · exact_mod_cast hlength.trans (Nat.le_ceil g.maxHop)

theorem supplied_of_reaches
    (hcross : ∀ n s, ComesTo g srcDpid dstDpid minBandwidth .cross n s →
      SparesCross g minBandwidth s n)
    (hclean : ∀ n s, ComesTo g srcDpid dstDpid minBandwidth .clean n s →
      SparesClean g minBandwidth src dst s n)
    (hmutate : ∀ n s, ComesTo g srcDpid dstDpid minBandwidth .mutate n s →
      SparesMutation g minBandwidth dst s n)
    {point : Point} (h : Reaches g srcDpid dstDpid minBandwidth point s) :
    Supplied g minBandwidth s := by
  induction h with
  | populate h => exact supplied_populate htop htable hne hsrc hdst hpath h
  | assess hs h ih =>
    obtain ⟨age, hpop⟩ := population_of_reaches htop.loops hsrc hdst hne hs
    exact (supplied_assess haligned hcharges hpop.links ih h).1
  | cross hs h ih =>
    rw [exec_cross] at h
    obtain ⟨⟨⟩, u, hu, h⟩ := Py.exec_bind_ok.mp h
    rw [Py.exec_bind_of_ok (Py.exec_get u)] at h
    have hstart : Supplied g minBandwidth u := by
      obtain ⟨links, rest, rfl, hperm⟩ := shuffleLinks_ok hu
      obtain ⟨l, hl, hchain⟩ := ih.link
      exact ⟨ih.derives.writes _ _, l, hperm.mem_iff.mpr hl, hchain⟩
    refine Py.forM_range_induction (J := fun _ => Supplied g minBandwidth) hstart
      (fun i hi t v ht hs' hv => ?_) h
    have hcomes := ComesTo.cross hs hu hi ht
    exact supplied_crossPair htop hne hsrc hdst hcomes hs' (hcross i t hcomes) hv
  | clean hs h ih =>
    rw [removeRedundantLink, Py.exec_bind_of_ok (Py.exec_get _)] at h
    refine Py.forM_range_induction (J := fun _ => Supplied g minBandwidth) ih
      (fun i hi t v ht hs' hv => ?_) h
    have hcomes := ComesTo.clean hs hi ht
    exact supplied_cleanLink htop hne hsrc hdst hcomes hs' (hclean i t hcomes) hv
  | mutate hs h ih =>
    rw [mutate, Py.exec_bind_of_ok (Py.exec_get _)] at h
    refine Py.forM_range_induction (J := fun _ => Supplied g minBandwidth) ih
      (fun i hi t v ht hs' hv => ?_) h
    have hcomes := ComesTo.mutate hs hi ht
    exact supplied_mutateLink htop hne hsrc hdst htable (two_le_maxHop_of_path hne hpath) hcomes
      hs' (hmutate i t hcomes) hv
  | repair hs h ih =>
    obtain ⟨age, hpop⟩ := population_of_reaches htop.loops hsrc hdst hne hs
    obtain ⟨rest, rfl⟩ := Population.repaired hpop h
    exact ⟨ih.derives.writes _ _, ih.link⟩
  | grow _ h ih =>
    obtain ⟨-, rfl⟩ := Prod.mk.inj h
    obtain ⟨⟨_, _, _, _, rfl⟩, hlink⟩ := ih
    exact ⟨⟨_, _, _, _, rfl⟩, hlink⟩

end runs

/-- The switches of two neighboring vertices whose edge has the bandwidth available. -/
def SwitchCarries (g : GAPopulation) (minBandwidth : ℚ) (x y : ℕ) : Prop :=
  ∃ a b, g.switchQueue[a]? = some x ∧ g.switchQueue[b]? = some y ∧ g.Carries minBandwidth a b

theorem isChain_switchCarries (htop : g.IsTopology) (hl : l.IsChain (g.Carries minBandwidth)) :
    (l.map g.dpidOf).IsChain (g.SwitchCarries minBandwidth) := by
  apply List.isChain_map_of_isChain g.dpidOf ?_ hl
  intro a b hab
  exact ⟨a, b, getElem?_dpidOf (htop.size ▸ hab.1.lt),
    getElem?_dpidOf (htop.size ▸ htop.neighbors a b hab.1), hab⟩

/-- While no step takes the bandwidth from the last individual that has it, some individual has
it at each program point, and so has the path that is read off in the end. -/
theorem getLink_meets_demand (htop : g.IsTopology) (htable : g.vertexs.Simple)
    (haligned : GATables.Aligned g) (hne : srcDpid ≠ dstDpid)
    (hsrc : g.switchQueue.idxOf? srcDpid = some src)
    (hdst : g.switchQueue.idxOf? dstDpid = some dst)
    (hcharges : g.ChargesNonneg minBandwidth src dst)
    (hpath : ∃ p, IsPath (g.Carries minBandwidth) src dst p ∧ (p.length : ℚ) ≤ g.maxHop)
    (hcross : ∀ n s, ComesTo g srcDpid dstDpid minBandwidth .cross n s →
      SparesCross g minBandwidth s n)
    (hclean : ∀ n s, ComesTo g srcDpid dstDpid minBandwidth .clean n s →
      SparesClean g minBandwidth src dst s n)
    (hmutate : ∀ n s, ComesTo g srcDpid dstDpid minBandwidth .mutate n s →
      SparesMutation g minBandwidth dst s n) :
    (∀ point s, Reaches g srcDpid dstDpid minBandwidth point s →
      ∃ l ∈ s.links, l.IsChain (g.Carries minBandwidth)) ∧
    ∀ t, (run srcDpid dstDpid minBandwidth).exec g = (.ok (), t) → ∃ path cost u,
      getLink.exec t = (.ok (path, cost), u) ∧
        IsPath (g.SwitchCarries minBandwidth) srcDpid dstDpid path := by
  have hne' := Py.ne_of_idxOf? hne hsrc hdst
  have hreaches {point : Point} {s : GAPopulation}
      (h : Reaches g srcDpid dstDpid minBandwidth point s) := supplied_of_reaches htop htable
    haligned hne' hsrc hdst hcharges hpath hcross hclean hmutate h
  refine ⟨fun point s hs => (hreaches hs).link, fun t ht => ?_⟩
  obtain ⟨u, hu, hassess⟩ := reaches_of_evolve ht
  obtain ⟨age, hpop⟩ := population_of_reaches htop.loops hsrc hdst hne' hu
  obtain ⟨hsupplied, hseparates⟩ :=
    supplied_assess haligned hcharges hpop.links (hreaches hu) hassess
  obtain ⟨hpop, hlinks, hfitness, -⟩ := triple_assess.ok hpop hassess
  obtain ⟨l, cost, v, hl, hexec, hpath'⟩ := getLink_ok htop hne' (Py.getElem?_of_idxOf? hsrc)
    (Py.getElem?_of_idxOf? hdst) hpop hlinks hfitness
  have hchain := (hseparates.iff_fit hl).mpr (fit_fittest (hseparates.exists_fit hsupplied.link))
  exact ⟨_, cost, v, hexec,
    ⟨⟨hpath'.head, hpath'.last, isChain_switchCarries htop hchain⟩, hpath'.nodup⟩⟩

/-! Where every edge has the bandwidth, no step can take it. -/

section wide
variable (hwide : ∀ a b, g.vertexs.Adj a b → g.Carries minBandwidth a b)
include hwide

theorem isChain_carries (hl : l.IsChain g.vertexs.Adj) : l.IsChain (g.Carries minBandwidth) :=
  hl.imp fun a b hab => hwide a b hab

variable (hloops : g.vertexs.NoSelfLoops) (hne : src ≠ dst)
  (hsrc : g.switchQueue.idxOf? srcDpid = some src)
  (hdst : g.switchQueue.idxOf? dstDpid = some dst)
include hloops hne hsrc hdst

theorem sparesCross_of_wide (h : ComesTo g srcDpid dstDpid minBandwidth .cross n s) :
    SparesCross g minBandwidth s n := by
  obtain ⟨age, size, -, hpass⟩ := h.pass_cross hloops hsrc hdst hne
  refine Or.inr (Or.inr fun l m hl hm => Or.inr ⟨?_, ?_⟩)
  · exact isChain_carries hwide (hpass.todo _ le_rfl l hl).chain
  · exact isChain_carries hwide (hpass.todo _ (Nat.le_succ _) m hm).chain

theorem sparesClean_of_wide (h : ComesTo g srcDpid dstDpid minBandwidth .clean n s) :
    SparesClean g minBandwidth src dst s n := by
  obtain ⟨age, size, -, hpass⟩ := h.pass_clean hloops hsrc hdst hne
  refine Or.inr (Or.inr fun found p hfound hp => ?_)
  rw [hpass.vertexs] at hfound
  have hpath := isPath_of_findPathDfs hloops hfound p (List.mem_of_mem_head? hp)
  exact isChain_carries hwide hpath.chain

theorem sparesMutation_of_wide (h : ComesTo g srcDpid dstDpid minBandwidth .mutate n s) :
    SparesMutation g minBandwidth dst s n := by
  obtain ⟨age, size, -, hpass⟩ := h.pass_mutate hloops hsrc hdst hne
  refine Or.inr (Or.inr fun link walk hlink hdetour => ?_)
  rw [hpass.vertexs] at hdetour
  exact isChain_carries hwide (hdetour.isSpliced (hpass.todo n le_rfl link hlink)).chain

end wide

/-! The triangle, with edges of different bands. -/

section triangle
variable {edges : List EdgeRow} {e01 e12 e02 : EdgeRow} {a b : ℕ}
  (hedges : edges = [e01, e12, e02]) (h01 : e01.Joins 0 1) (h12 : e12.Joins 1 2)
  (h02 : e02.Joins 0 2)
include hedges h01 h12 h02

theorem edge_triangle (h : triangle.vertexs.Adj a b) :
    ∃ (num : ℤ) (e : EdgeRow), findEdge a b triangle.vertexs = .ok num ∧
      Py.item? edges num = some e ∧ e.Joins a b := by
  subst hedges
  obtain ⟨row, hrow, hb⟩ := h
  obtain ⟨ha, rfl⟩ := List.getElem?_eq_some_iff.mp hrow
  have ha : a < 3 := ha
  interval_cases a <;> simp only [triangle, List.getElem_cons_zero, List.getElem_cons_succ,
    List.mem_cons, List.not_mem_nil, or_false] at hb <;> rcases hb with rfl | rfl
  · exact ⟨0, e01, rfl, rfl, h01⟩
  · exact ⟨2, e02, rfl, rfl, h02⟩
  · exact ⟨0, e01, rfl, rfl, h01.symm⟩
  · exact ⟨1, e12, rfl, rfl, h12⟩
  · exact ⟨2, e02, rfl, rfl, h02.symm⟩
  · exact ⟨1, e12, rfl, rfl, h12.symm⟩

theorem aligned_triangle : GATables.Aligned { triangle with edges } := by
  apply GATables.aligned_of_edge
  intro a b h
  obtain ⟨num, e, hnum, he, hjoins⟩ := edge_triangle hedges h01 h12 h02 h
  exact ⟨num, hnum, e, he, hjoins⟩

theorem carries_triangle (hband : ∀ e ∈ edges, ∃ band, e.availableBand = some band ∧
      minBandwidth ≤ band) (h : triangle.vertexs.Adj a b) :
    Carries { triangle with edges } minBandwidth a b := by
  obtain ⟨num, e, hnum, he, hjoins⟩ := edge_triangle hedges h01 h12 h02 h
  obtain ⟨band, hb, hle⟩ := hband e (Py.mem_of_item? he)
  exact ⟨h, num, hnum, ⟨e, he, hjoins⟩, e, band, he, hb, hle⟩

end triangle

theorem metered_triangle : Metered triangle := by
  refine ⟨by decide, by decide +kernel, by decide, fun e he => ?_⟩
  simp only [triangle, List.mem_cons, List.not_mem_nil, or_false] at he
  rcases he with rfl | rfl | rfl <;> simp <;> norm_num

theorem getLink_meets_demand_triangle :
    ((run 11 13 1).exec triangle).1 = .ok () ∧
    ∀ t, (run 11 13 1).exec triangle = (.ok (), t) → ∃ path cost u,
      getLink.exec t = (.ok (path, cost), u) ∧ IsPath (triangle.SwitchCarries 1) 11 13 path := by
  have haligned : GATables.Aligned triangle :=
    aligned_triangle rfl (Or.inl ⟨rfl, rfl⟩) (Or.inl ⟨rfl, rfl⟩) (Or.inl ⟨rfl, rfl⟩)
  have hband : ∀ e ∈ triangle.edges, ∃ band, e.availableBand = some band ∧ 1 ≤ band := by
    intro e he
    have h5 : ∀ e ∈ triangle.edges, e.availableBand = some 5 := by decide
    exact ⟨5, h5 e he, by decide⟩
  have hwide : ∀ a b, triangle.vertexs.Adj a b → triangle.Carries 1 a b := fun a b =>
    carries_triangle rfl (Or.inl ⟨rfl, rfl⟩) (Or.inl ⟨rfl, rfl⟩) (Or.inl ⟨rfl, rfl⟩) hband
  have hpath : IsPath (triangle.Carries 1) 0 2 [0, 2] :=
    ⟨⟨rfl, rfl, isChain_carries hwide (by simp [Vertexs.Adj, triangle])⟩, by decide⟩
  have hloops := isTopology_triangle.loops
  have h := @getLink_meets_demand 0 2 11 13 1 triangle isTopology_triangle
    ⟨by decide, hloops, by decide⟩ haligned (by decide) rfl rfl metered_triangle.chargesNonneg
    ⟨_, hpath, by decide⟩ (fun n s => sparesCross_of_wide hwide hloops (by decide) rfl rfl)
    (fun n s => sparesClean_of_wide hwide hloops (by decide) rfl rfl)
    (fun n s => sparesMutation_of_wide hwide hloops (by decide) rfl rfl)
  exact ⟨by decide +kernel, h.2⟩

/-- Less band is available on the direct edge. -/
def narrowTriangle : GAPopulation :=
  { triangle with edges :=
    [⟨0, 1, 1, 1, some 5, 10⟩, ⟨1, 2, 1, 1, some 5, 10⟩, ⟨0, 2, 3, 1, some 1, 10⟩] }

theorem isPath_narrowTriangle : IsPath (narrowTriangle.Carries 3) 0 2 [0, 1, 2] := by
  refine ⟨⟨rfl, rfl, ?_⟩, by decide⟩
  simp only [List.isChain_cons_cons, List.isChain_singleton, and_true]
  constructor
  · exact ⟨⟨_, rfl, by decide⟩, 0, rfl, ⟨_, rfl, by decide⟩, _, 5, rfl, rfl, by decide⟩
  · exact ⟨⟨_, rfl, by decide⟩, 1, rfl, ⟨_, rfl, by decide⟩, _, 5, rfl, rfl, by decide⟩

theorem not_switchCarries_narrowTriangle : ¬ narrowTriangle.SwitchCarries 3 11 13 := by
  rintro ⟨a, b, ha, hb, -, num, hnum, -, e, band, he, hband, hle⟩
  have hqueue : narrowTriangle.switchQueue.Nodup := by decide
  obtain rfl : 0 = a := Py.place_eq hqueue rfl ha
  obtain rfl : 2 = b := Py.place_eq hqueue rfl hb
  have hdirect : findEdge 0 2 narrowTriangle.vertexs = .ok 2 := rfl
  obtain rfl := Except.ok.inj (hdirect.symm.trans hnum)
  obtain rfl := Option.some.inj he
  obtain rfl := Option.some.inj hband
  exact absurd hle (by decide)

/-- The detour mutates into the direct edge, and nothing else has the bandwidth. -/
theorem getLink_misses_demand : ¬ ∀ (g : GAPopulation) (srcDpid dstDpid src dst : ℕ)
    (minBandwidth : ℚ), g.IsTopology → g.vertexs.Simple → GATables.Aligned g → srcDpid ≠ dstDpid →
    g.switchQueue.idxOf? srcDpid = some src → g.switchQueue.idxOf? dstDpid = some dst →
    (∃ p, IsPath (g.Carries minBandwidth) src dst p ∧ (p.length : ℚ) ≤ g.maxHop) →
    ∀ t, (run srcDpid dstDpid minBandwidth).exec g = (.ok (), t) → ∃ path cost u,
      getLink.exec t = (.ok (path, cost), u) ∧
        IsPath (g.SwitchCarries minBandwidth) srcDpid dstDpid path := by
  intro h
  have htop : narrowTriangle.IsTopology := ⟨isTopology_triangle.size,
    isTopology_triangle.neighbors, isTopology_triangle.loops, isTopology_triangle.queue⟩
  have haligned : GATables.Aligned narrowTriangle :=
    aligned_triangle rfl (Or.inl ⟨rfl, rfl⟩) (Or.inl ⟨rfl, rfl⟩) (Or.inl ⟨rfl, rfl⟩)
  have hok : ((run 11 13 3).exec narrowTriangle).1 = .ok () := by decide +kernel
  have hlink : (getLink.exec ((run 11 13 3).exec narrowTriangle).2).1 = .ok ([11, 13], 1) := by
    decide +kernel
  obtain ⟨path, cost, u, hexec, hmeets⟩ := h narrowTriangle 11 13 0 2 3 htop
    ⟨by decide, isTopology_triangle.loops, by decide⟩ haligned (by decide) rfl rfl
    ⟨_, isPath_narrowTriangle, by decide⟩ _ (Py.exec_of_ok hok)
  rw [hexec] at hlink
  obtain rfl := (Prod.mk.inj (Except.ok.inj hlink)).1
  have hchain := hmeets.chain
  rw [List.isChain_cons_cons] at hchain
  exact not_switchCarries_narrowTriangle hchain.1

end SDRoute.GAPopulation
