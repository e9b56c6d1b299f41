import SDRoute.Algorithm.CrowdingDistance

/-! The survivors of a generation, and those that are better than they are. -/
namespace SDRoute.NSGA2
open Pareto

variable {nx : NetworkX} {s t start : NSGA2} {fuel x y : ℕ} {fs : List (List ℕ)}
  {E : Exc → Prop}

/-- The population is filled from the front. -/
theorem triple_fill {newPopulation : List ℕ} {n : ℕ}
    (hn : newPopulation.length < n → E .indexError) :
    Py.Triple (· = s) ((List.range n).forM fun i => do
        let ind ← Py.ofOption .indexError newPopulation[i]?
        modify fun s : NSGA2 => { s with currentPopulation := s.currentPopulation ++ [ind] })
      (fun _ t => t = { s with currentPopulation := s.currentPopulation ++ newPopulation.take n })
      E := by
  refine (Py.Triple.forM_range (J := fun i t => t =
    { s with currentPopulation := s.currentPopulation ++ newPopulation.take i })
    fun i hi => ?_).pre ?_
  · refine Py.Triple.bind (Q := fun ind t => newPopulation[i]? = some ind ∧ t =
      { s with currentPopulation := s.currentPopulation ++ newPopulation.take i }) ?_
      fun ind => Py.Triple.modify ?_
    · refine Py.Triple.ofOption (fun hnone => hn ?_) fun ind hind t ht => ⟨hind, ht⟩
      have := List.getElem?_eq_none_iff.mp hnone
      omega
    · rintro t ⟨hind, rfl⟩
      rw [List.take_add_one, hind]
      simp
  · rintro _ rfl
    simp

/-- The new population is the beginning of the sorted fronts. -/
structure Selects (s t : NSGA2) (fs : List (List ℕ)) : Prop where
  fronts : ∃ lists c first k, Compared (better s) s.unionList lists c first ∧
    List.Forall₂ List.Perm fs (waves lists c first k)
  population : t.currentPopulation = fs.flatten.take s.populationSize
  sorts : ∃ u, Sorts s u ∧ t = { u with currentPopulation := t.currentPopulation }

theorem triple_makeNewPopulation (hspan : ∀ a ∈ s.unionList, ∀ b ∈ s.unionList,
      delaySpan (s.objects a).delay (s.objects b).delay = 0 ∨
        lossSpan (s.objects a).loss (s.objects b).loss = 0 → E .zeroDivisionError)
    (hroom : s.unionList.countP (dominators (better s) s.unionList · = 0) < s.populationSize →
      E .indexError) :
    Py.Triple (· = s) makeNewPopulation (fun _ t => ∃ fs, Selects s t fs) E := by
  refine Py.Triple.reads fun r hr => ?_
  rw [hr]
  refine Py.Triple.bind (Q := fun _ => Sorts s) ?_ fun _ => Py.Triple.intro fun t ht => ?_
  · exact (triple_clear s.unionList s).conseq (fun _ h => h) (fun _ _ h => h.1) fun _ h => h.elim
  refine Py.Triple.bind ((triple_fastNondominateSort s.unionList).exc fun _ h => h.elim)
    fun fs => Py.Triple.intro ?_
  rintro u ⟨hu, ⟨lists, c, first, k, hcompared, hfs, -⟩, -⟩
  have hsorts := ht.trans hu
  have hsame : ∀ a, (u.objects a).delay = (s.objects a).delay ∧
      (u.objects a).loss = (s.objects a).loss := hsorts.values
  rw [ht.better] at hcompared
  refine Py.Triple.bind ((triple_crowdingDistanceSort (s := u)
    fun front hfront a ha b hb hzero => ?_).pre ?_) fun sorted => Py.Triple.intro ?_
  · have hunion := hcompared.waves_subset (hfs ▸ hfront)
    rw [(hsame a).1, (hsame a).2, (hsame b).1, (hsame b).2] at hzero
    exact hspan a (hunion ha) b (hunion hb) hzero
  · rintro _ rfl
    exact .refl _
  · rintro v ⟨hv, hperm⟩
    rw [hfs] at hperm
    refine Py.Triple.bind (Q := fun _ => (· = { v with currentPopulation := [] }))
      (Py.Triple.modify fun _ h => h ▸ rfl) fun _ => ?_
    refine (triple_fill fun hlength => hroom ?_).post ?_
    · have hfirst : first.length ≤ sorted.flatten.length := by
        rw [(List.Perm.flatten_congr hperm).length_eq, waves, List.range_succ_eq_map,
          List.map_cons, List.flatten_cons, List.length_append]
        exact Nat.le_add_right _ _
      rw [hcompared.first, ← List.countP_eq_length_filter] at hfirst
      omega
    · rintro _ _ rfl
      exact ⟨sorted, ⟨lists, c, first, k, hcompared, hperm⟩, rfl, v, hsorts.trans hv, rfl⟩

/-- In a run of `main` from `start`, the populations before and after the selection of a
generation. -/
def Generation (nx : NetworkX) (fuel : ℕ) (start s t : NSGA2) : Prop :=
  ∃ n < start.maxNumFuncEvals, (evolve nx fuel n).exec start = (.ok (), s) ∧
    makeNewPopulation.exec s = (.ok (), t)

/-- Nobody that was discarded is better than someone that was kept. -/
def Elitist (s t : NSGA2) : Prop :=
  ∀ x ∈ s.unionList, x ∉ t.currentPopulation → ∀ y ∈ t.currentPopulation,
    better t x y = false

/-- Individuals that are better come in earlier fronts. -/
theorem Selects.elitist (h : Selects s t fs) (hg : Graded (better s) s.unionList) :
    Elitist s t := by
  intro x hx hdiscarded y hy
  obtain ⟨u, hu, ht⟩ := h.sorts
  have hbetter : better t = better s := by
    rw [ht]
    exact hu.better
  by_contra hxy
  rw [Bool.not_eq_false, hbetter] at hxy
  obtain ⟨lists, c, first, k, hcompared, hperm⟩ := h.fronts
  rw [h.population] at hdiscarded hy
  obtain ⟨hlength, hget⟩ := List.forall₂_iff_get.mp hperm
  have hlevel : ∀ {j : ℕ} {front : List ℕ}, fs[j]? = some front → ∀ z, z ∈ front ↔
      z ∈ s.unionList ∧ depth (better s) s.unionList z = j := by
    intro j front hj z
    obtain ⟨hlt, rfl⟩ := List.getElem?_eq_some_iff.mp hj
    have hwave := hget j hlt (hlength ▸ hlt)
    simp only [waves, List.get_eq_getElem, List.getElem_map, List.getElem_range] at hwave
    rw [hwave.mem_iff]
    exact hcompared.isLevel_of_graded (strictOrder_better s) hg j z
  have hdepth := depth_lt (strictOrder_better s) hx hxy
  obtain ⟨front, hfront, hyfront⟩ := List.mem_flatten.mp (List.mem_of_mem_take hy)
  obtain ⟨j, hj⟩ := List.mem_iff_getElem?.mp hfront
  have hyj := ((hlevel hj y).mp hyfront).2
  obtain ⟨front', hfront'⟩ : ∃ front', fs[depth (better s) s.unionList x]? = some front' := by
    have hlt := (List.getElem?_eq_some_iff.mp hj).1
    exact ⟨_, List.getElem?_eq_getElem (by omega)⟩
  refine hdiscarded (mem_take_flatten hy hfront' ((hlevel hfront' x).mpr ⟨hx, rfl⟩) ?_)
  intro i hi front hfront hyfront
  have hyi := ((hlevel hfront y).mp hyfront).2
  omega

/-- In a run whose populations are all graded, every selection is elitist. -/
theorem elitist_run (h : ∀ s t, Generation nx fuel start s t → Graded (better s) s.unionList) :
    ∀ s t, Generation nx fuel start s t → Elitist s t := by
  rintro s t ⟨n, hn, hs, ht⟩
  obtain ⟨fs, hfs⟩ := (triple_makeNewPopulation (E := fun _ => True) (fun _ _ _ _ _ => trivial)
    fun _ => trivial).ok rfl ht
  exact hfs.elitist (h s t ⟨n, hn, hs, ht⟩)

/-! Routes from switch 1 to switch 2: a direct link, and ways over one switch each. -/

/-- Finds the direct edge, or a switch with edges to both ends. -/
def relayNx : NetworkX where
  dijkstraPath graph src dst _ :=
    if (graph.edge? src dst).isSome then .ok [src, dst]
    else match (graph.flatMap fun e => [e.src, e.dst]).find? fun m =>
        (graph.edge? src m).isSome && (graph.edge? m dst).isSome with
      | some m => .ok [src, m, dst]
      | none => .error .noPath
  isConnected graph := !graph.isEmpty

theorem adj_of_edge? {graph : Graph} {a b : ℕ} (h : (graph.edge? a b).isSome) :
    graph.Adj a b := by
  obtain ⟨e, he⟩ := Option.isSome_iff_exists.mp h
  exact ⟨e, List.mem_reverse.mp (List.mem_of_find?_eq_some he), List.find?_some he⟩

theorem relayNx_path {graph : Graph} {src dst : ℕ} {weight : Edge → ℚ} {path : List ℕ}
    (h : relayNx.dijkstraPath graph src dst weight = .ok path) :
    (path = [src, dst] ∨ ∃ m, path = [src, m, dst]) ∧ path.IsChain graph.Adj := by
  simp only [relayNx] at h
  split at h
  · rename_i hdirect
    cases h
    exact ⟨.inl rfl, .cons_cons (adj_of_edge? hdirect) (.singleton _)⟩
  · split at h
    · rename_i m hm
      cases h
      have hedges := List.find?_some hm
      rw [Bool.and_eq_true] at hedges
      exact ⟨.inr ⟨m, rfl⟩, .cons_cons (adj_of_edge? hedges.1)
        (.cons_cons (adj_of_edge? hedges.2) (.singleton _))⟩
    · cases h

theorem relayNx_documented : relayNx.Documented where
  head h := by
    rcases (relayNx_path h).1 with rfl | ⟨m, rfl⟩ <;> rfl
  last h := by
    rcases (relayNx_path h).1 with rfl | ⟨m, rfl⟩ <;> rfl
  chain h := (relayNx_path h).2

def routes : List Edge :=
  [{ id := 0, src := 1, dst := 2, delay := 1, band := 100, loss := 1 / 100 },
    { id := 1, src := 1, dst := 3, delay := 1, band := 100, loss := 2 / 100 },
    { id := 2, src := 3, dst := 2, delay := 1, band := 100, loss := 0 },
    { id := 3, src := 1, dst := 4, delay := 2, band := 100, loss := 4 / 100 },
    { id := 4, src := 4, dst := 2, delay := 1, band := 100, loss := 0 },
    { id := 5, src := 1, dst := 5, delay := 2, band := 100, loss := 3 / 100 },
    { id := 6, src := 5, dst := 2, delay := 2, band := 100, loss := 0 }]

/-- Draws for seven genes and one path for each individual: it gets the chosen edges. -/
def choosing (choices : List (List ℕ)) : Rng := fun n =>
  if n % 8 ∈ choices.getD (n / 8) [] then .zero else .half

def routed (choices : List (List ℕ)) : NSGA2 :=
  { edges := routes, numEdges := 7, srcNode := some 1, dstNode := [2],
    populationSize := choices.length, rng := choosing choices }

/-- Two individuals take the route over switch 3, between those that take the direct one and the
route over switch 4. -/
def graded : NSGA2 := { routed [[0], [1, 2], [1, 2], [3, 4]] with maxNumFuncEvals := 1 }

def gradedPopulation : NSGA2 := ((evolve relayNx 1 0).exec graded).2

theorem elitist_run_routed :
    Elitist gradedPopulation (makeNewPopulation.exec gradedPopulation).2 := by
  have hgraded : ∀ s t, Generation relayNx 1 graded s t → Graded (better s) s.unionList := by
    rintro s t ⟨n, hn, hs, -⟩
    obtain rfl : n = 0 := Nat.lt_one_iff.mp hn
    have hpopulation : gradedPopulation = s := congrArg Prod.snd hs
    rw [← hpopulation]
    decide +kernel
  exact elitist_run hgraded _ _
    ⟨0, by decide, Py.exec_of_ok (by decide +kernel), Py.exec_of_ok (by decide +kernel)⟩

/-- The route over switch 3 is worse than the direct one only, and better than those over the
switches 4 and 5. -/
def firstPopulation : NSGA2 :=
  ((evolve relayNx 1 0).exec (routed [[0], [1, 2], [3, 4], [5, 6]])).2

theorem generation_firstPopulation :
    Generation relayNx 1 (routed [[0], [1, 2], [3, 4], [5, 6]]) firstPopulation
      (makeNewPopulation.exec firstPopulation).2 :=
  ⟨0, by decide, Py.exec_of_ok (by decide +kernel), Py.exec_of_ok (by decide +kernel)⟩

/-- All three come in the second front, and the best of them is dropped. -/
theorem discarded_better : ¬ ∀ (nx : NetworkX), nx.Documented → ∀ fuel start s t,
    Generation nx fuel start s t → Elitist s t := by
  intro h
  have helitist := h relayNx relayNx_documented _ _ _ _ generation_firstPopulation
  have hdropped : 1 ∈ firstPopulation.unionList ∧
      1 ∉ (makeNewPopulation.exec firstPopulation).2.currentPopulation ∧
      2 ∈ (makeNewPopulation.exec firstPopulation).2.currentPopulation ∧
      better (makeNewPopulation.exec firstPopulation).2 1 2 = true := by
    decide +kernel
  obtain ⟨hunion, hdiscarded, hkept, hbetter⟩ := hdropped
  rw [helitist 1 hunion hdiscarded 2 hkept] at hbetter
  cases hbetter

end SDRoute.NSGA2
