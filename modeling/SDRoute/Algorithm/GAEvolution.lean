import SDRoute.Algorithm.GAInvariant

/-! Runs of `evolve`: the population at its program points, and the path that is read off
in the end. -/
namespace SDRoute.GAPopulation

variable {P : List ℕ → Prop} {src dst srcDpid dstDpid age n : ℕ} {g s t : GAPopulation}
  {minBandwidth : ℚ} {paths : List (List ℕ)} {fitness : List ℚ}

theorem edgeTo_ne_outOfFuel (row : Vertex) (v : ℕ) (places : List ℕ) :
    row.edgeTo v places ≠ .error .outOfFuel := by
  fun_induction Vertex.edgeTo row v places <;> simp_all

theorem findEdge_ne_outOfFuel (u v : ℕ) (vertexs : Vertexs) :
    findEdge u v vertexs ≠ .error .outOfFuel := by
  unfold findEdge
  split
  · split <;> exact edgeTo_ne_outOfFuel _ _ _
  · simp

theorem addEdges_ne_outOfFuel (edges : List EdgeRow) (nums : List ℤ) (p : PathSum) :
    PathSum.addEdges minBandwidth edges nums p ≠ .error .outOfFuel := by
  fun_induction PathSum.addEdges minBandwidth edges nums p <;> simp_all

theorem pathFitness_ne_outOfFuel (s : GAPopulation) (nums : List ℤ) :
    s.pathFitness minBandwidth nums ≠ .error .outOfFuel := by
  intro h
  unfold pathFitness at h
  rcases hsum : PathSum.addEdges minBandwidth s.edges nums {} with e | p
  · rw [hsum] at h
    obtain rfl := Except.error.inj h
    exact addEdges_ne_outOfFuel _ _ _ hsum
  · rw [hsum] at h
    simp only [bind, Except.bind, pure, Except.pure, throw, throwThe, MonadExceptOf.throw] at h
    grind

theorem edgePath_ne_outOfFuel (s : GAPopulation) (path : List ℕ) :
    s.edgePath path ≠ .error .outOfFuel :=
  Py.mapM_ne_error fun hop => findEdge_ne_outOfFuel hop.1 hop.2 s.vertexs

theorem fitnessEvaluate_ok (h : s.fitnessEvaluate paths minBandwidth = .ok fitness) :
    ∃ edgePaths, paths.mapM s.edgePath = .ok edgePaths ∧
      edgePaths.mapM (s.pathFitness minBandwidth) = .ok fitness := by
  unfold fitnessEvaluate at h
  rcases hpaths : paths.mapM s.edgePath with e | edgePaths
  · rw [hpaths] at h
    cases h
  · rw [hpaths] at h
    exact ⟨edgePaths, rfl, h⟩

/-- One fitness for each path, if any. -/
theorem triple_fitnessEvaluate {J : GAPopulation → Prop} :
    Py.Triple J (Py.ofExcept (s.fitnessEvaluate paths minBandwidth))
      (fun fitness t => J t ∧ fitness.length = paths.length) (· ≠ .outOfFuel) := by
  refine Py.Triple.ofExcept (fun e he => ?_) fun fitness hfitness t ht => ⟨ht, ?_⟩
  · rintro rfl
    unfold fitnessEvaluate at he
    rcases hpaths : paths.mapM s.edgePath with e | edgePaths
    · rw [hpaths] at he
      obtain rfl := Except.error.inj he
      exact Py.mapM_ne_error (edgePath_ne_outOfFuel s) hpaths
    · rw [hpaths] at he
      exact Py.mapM_ne_error (pathFitness_ne_outOfFuel s) he
  · obtain ⟨edgePaths, hpaths, hall⟩ := fitnessEvaluate_ok hfitness
    rw [Py.length_of_mapM hall, Py.length_of_mapM hpaths]

theorem triple_selectPath (fitness : List ℚ) (pathSelected : ℕ) :
    Py.Triple (fun _ => True) (selectPath fitness pathSelected) (fun _ _ => True)
      (· ≠ .outOfFuel) := by
  refine Py.Triple.bind (Q := fun _ _ => True) ?_ fun best => Py.Triple.pure fun _ h => h
  refine Py.Triple.foldlM (J := fun _ _ _ => True) (fun _ best j hj => ?_) _
  have hlen : 0 < fitness.length := by
    have := List.mem_range.mp hj
    omega
  refine Py.Triple.bind (Rng.triple_index hlen) fun index => ?_
  exact Py.Triple.bind (Q := fun _ _ => True) (Py.Triple.ofOption (fun _ => by simp)
    fun _ _ _ _ => trivial) fun f => Py.Triple.pure fun _ h => h

/-- Selection takes what it returns from the paths. -/
theorem triple_select (paths : List (List ℕ)) (fitness : List ℚ) :
    Py.Triple (fun _ => True) (select paths fitness)
      (fun newPaths _ => ∀ l ∈ newPaths, l ∈ paths) (· ≠ .outOfFuel) := by
  refine Py.Triple.ite (fun _ => Py.Triple.pure fun _ _ _ h => h) fun _ => ?_
  refine Py.Triple.bind (Q := fun acc _ => ∀ l ∈ acc.1, l ∈ paths) ?_
    fun acc => Py.Triple.pure fun _ h => h
  refine (Py.Triple.foldlM (J := fun _ (acc : List (List ℕ) × ℕ) _ => ∀ l ∈ acc.1, l ∈ paths)
    (fun _ acc _ _ => Py.Triple.facts fun _ hacc => ?_) _).pre fun _ _ => by simp
  refine Py.Triple.bind (triple_selectPath fitness acc.2) fun pathSelected => ?_
  refine Py.Triple.bind (Q := fun path _ => path ∈ paths) (Py.Triple.ofOption (fun _ => by simp)
    fun _ hpath _ _ => List.mem_of_getElem? hpath) fun path => Py.Triple.pure fun _ hpath => ?_
  intro l hl
  rcases List.mem_append.mp hl with hl | hl
  · exact hacc l hl
  · exact List.mem_singleton.mp hl ▸ hpath

/-- After the selection of a round. -/
theorem triple_assess : Py.Triple (Population g age P) (assess minBandwidth)
    (fun goesOn t => Population g age P t ∧ t.links ≠ [] ∧ t.fitness.length = t.links.length ∧
      (goesOn = true → age ≤ g.generationMax)) (· ≠ .outOfFuel) := by
  refine Py.Triple.reads fun s h => ?_
  refine Py.Triple.bind (triple_fitnessEvaluate.pre fun t ht => ht ▸ h) fun fitness => ?_
  refine Py.Triple.bind (Q := fun _ => Population g age P) (Py.Triple.modify fun t ht => ?_)
    fun _ => ?_
  · exact ⟨ht.1.1, ht.1.2, ht.1.3, ht.1.4, ht.1.5, ht.1.6⟩
  refine Py.Triple.bind (triple_onRng (triple_select s.links fitness) fun s r hs => hs.rng r)
    fun links => ?_
  refine Py.Triple.bind (Q := fun _ t => Population g age P t ∧ t.links = links)
    (Py.Triple.modify fun t ht => ?_) fun _ => ?_
  · exact ⟨⟨ht.1.1, ht.1.2, ht.1.3, ht.1.4, ht.1.5, fun l hl => h.links l (ht.2 l hl)⟩, rfl⟩
  refine Py.Triple.bind triple_fitnessEvaluate fun fitness => ?_
  refine Py.Triple.bind (Q := fun _ t => Population g age P t ∧ t.links = links ∧
    t.fitness.length = links.length) (Py.Triple.modify fun t ht => ?_) fun _ => ?_
  · obtain ⟨⟨hpop, hlinks⟩, hlen⟩ := ht
    exact ⟨⟨hpop.1, hpop.2, hpop.3, hpop.4, hpop.5, hpop.6⟩, hlinks, hlen⟩
  refine Py.Triple.bind (Q := fun item t => Population g age P t ∧ t.links ≠ [] ∧
    t.fitness.length = t.links.length) (Py.Triple.ofOption (fun _ => by simp)
    fun item hitem t ht => ?_) fun item => ?_
  · refine ⟨ht.1, ?_, ht.2.1 ▸ ht.2.2⟩
    rw [ht.2.1]
    rintro rfl
    cases hitem
  refine Py.Triple.ite (fun _ => Py.Triple.pure fun t ht => ?_) fun _ =>
    Py.Triple.pure fun t ht => ?_
  · exact ⟨ht.1, ht.2.1, ht.2.2, by simp⟩
  · refine ⟨ht.1, ht.2.1, ht.2.2, fun hage => ?_⟩
    rw [decide_eq_true_eq, h.age, h.generationMax] at hage
    exact hage

/-- The program points of a round of `evolve`. -/
inductive Point
  | head
  | selected
  | crossed
  | cleaned
  | mutated
  | repaired
deriving DecidableEq, Repr

/-- The states in which a run of `evolve` from `g` is at a program point, for the draws of
the generator of `g`. -/
inductive Reaches (g : GAPopulation) (srcDpid dstDpid : ℕ) (minBandwidth : ℚ) :
    Point → GAPopulation → Prop
  | populate {s : GAPopulation} (h : (populate srcDpid dstDpid).exec g = (.ok (), s)) :
    Reaches g srcDpid dstDpid minBandwidth .head s
  | assess {s t : GAPopulation} (hs : Reaches g srcDpid dstDpid minBandwidth .head s)
    (h : (assess minBandwidth).exec s = (.ok true, t)) :
    Reaches g srcDpid dstDpid minBandwidth .selected t
  | cross {s t : GAPopulation} (hs : Reaches g srcDpid dstDpid minBandwidth .selected s)
    (h : cross.exec s = (.ok (), t)) : Reaches g srcDpid dstDpid minBandwidth .crossed t
  | clean {s t : GAPopulation} (hs : Reaches g srcDpid dstDpid minBandwidth .crossed s)
    (h : removeRedundantLink.exec s = (.ok (), t)) :
    Reaches g srcDpid dstDpid minBandwidth .cleaned t
  | mutate {s t : GAPopulation} (hs : Reaches g srcDpid dstDpid minBandwidth .cleaned s)
    (h : mutate.exec s = (.ok (), t)) : Reaches g srcDpid dstDpid minBandwidth .mutated t
  | repair {s t : GAPopulation} (hs : Reaches g srcDpid dstDpid minBandwidth .mutated s)
    (h : removeRedundantLink.exec s = (.ok (), t)) :
    Reaches g srcDpid dstDpid minBandwidth .repaired t
  | grow {s t : GAPopulation} (hs : Reaches g srcDpid dstDpid minBandwidth .repaired s)
    (h : grow.exec s = (.ok (), t)) : Reaches g srcDpid dstDpid minBandwidth .head t

/-- A run that returns has passed the head of its loop, and left it there. -/
theorem reaches_of_evolveLoop (hs : Reaches g srcDpid dstDpid minBandwidth .head s)
    (h : (evolveLoop minBandwidth n).exec s = (.ok (), t)) :
    ∃ u, Reaches g srcDpid dstDpid minBandwidth .head u ∧
      (assess minBandwidth).exec u = (.ok false, t) := by
  induction n generalizing s with
  | zero => cases h
  | succ n ih =>
    obtain ⟨goesOn, s1, h1, h⟩ := Py.exec_bind_ok.mp h
    cases goesOn with
    | false =>
      obtain ⟨-, rfl⟩ := Prod.mk.inj h
      exact ⟨s, hs, h1⟩
    | true =>
      obtain ⟨⟨⟩, s2, h2, h⟩ := Py.exec_bind_ok.mp h
      obtain ⟨⟨⟩, s3, h3, h⟩ := Py.exec_bind_ok.mp h
      obtain ⟨⟨⟩, s4, h4, h⟩ := Py.exec_bind_ok.mp h
      obtain ⟨⟨⟩, s5, h5, h⟩ := Py.exec_bind_ok.mp h
      obtain ⟨⟨⟩, s6, h6, h⟩ := Py.exec_bind_ok.mp h
      exact ih (((((hs.assess h1).cross h2).clean h3).mutate h4).repair h5 |>.grow h6) h

theorem reaches_of_evolve (h : (evolve srcDpid dstDpid minBandwidth).exec g = (.ok (), t)) :
    ∃ u, Reaches g srcDpid dstDpid minBandwidth .head u ∧
      (assess minBandwidth).exec u = (.ok false, t) := by
  obtain ⟨⟨⟩, s, hs, h⟩ := Py.exec_bind_ok.mp h
  rw [Py.exec_bind_of_ok (Py.exec_get s)] at h
  exact reaches_of_evolveLoop (.populate hs) h

/-- The individuals at a program point. -/
def Invariant (g : GAPopulation) (src dst : ℕ) : Point → List ℕ → Prop
  | .crossed => IsSpliced g.vertexs.Adj src dst
  | _ => IsPath g.vertexs.Adj src dst

theorem triple_round (hloops : g.vertexs.NoSelfLoops) (hne : src ≠ dst)
    (hnext : age ≤ g.generationMax → Py.Triple
      (Population g (age + 1) (IsPath g.vertexs.Adj src dst)) (evolveLoop minBandwidth n)
        (fun _ _ => True) (· ≠ .outOfFuel)) :
    Py.Triple (Population g age (IsPath g.vertexs.Adj src dst)) (evolveLoop minBandwidth (n + 1))
      (fun _ _ => True) (· ≠ .outOfFuel) := by
  refine Py.Triple.bind triple_assess fun goesOn => ?_
  cases goesOn with
  | false => exact Py.Triple.pure fun _ _ => trivial
  | true =>
    refine Py.Triple.intro fun t ht => ?_
    have hcross : Py.Triple (· = t) cross
        (fun _ => Population g age (IsSpliced g.vertexs.Adj src dst)) (· ≠ .outOfFuel) :=
      (triple_cross hne).pre fun u hu => hu ▸ ht.1
    have hrepair : Py.Triple (Population g age (IsPath g.vertexs.Adj src dst)) removeRedundantLink
        (fun _ => Population g age (IsPath g.vertexs.Adj src dst)) (· ≠ .outOfFuel) :=
      (triple_removeRedundantLink hloops).pre fun u hu =>
        ⟨hu.1, hu.2, hu.3, hu.4, hu.5, fun l hl => (hu.links l hl).spliced⟩
    refine Py.Triple.bind hcross fun _ => ?_
    refine Py.Triple.bind (triple_removeRedundantLink hloops) fun _ => ?_
    refine Py.Triple.bind (triple_mutate hloops) fun _ => ?_
    refine Py.Triple.bind hrepair fun _ => ?_
    refine Py.Triple.bind (Py.Triple.modify fun u hu => ?_) fun _ => hnext (ht.2.2.2 rfl)
    exact ⟨hu.1, hu.2, hu.3, hu.4, congrArg (· + 1) hu.5, hu.6⟩

/-- The rounds end with the generations. -/
theorem triple_evolveLoop (hloops : g.vertexs.NoSelfLoops) (hne : src ≠ dst)
    (hn : ⌊g.generationMax⌋₊ < age + n) :
    Py.Triple (Population g age (IsPath g.vertexs.Adj src dst)) (evolveLoop minBandwidth (n + 1))
      (fun _ _ => True) (· ≠ .outOfFuel) := by
  induction n generalizing age with
  | zero =>
    refine triple_round hloops hne fun hage => ?_
    have := Nat.le_floor hage
    omega
  | succ n ih =>
    exact triple_round hloops hne fun _ => ih (by omega)

section runs
variable (hloops : g.vertexs.NoSelfLoops) (hsrc : g.switchQueue.idxOf? srcDpid = some src)
  (hdst : g.switchQueue.idxOf? dstDpid = some dst)
include hloops hsrc hdst

theorem triple_populate : Py.Triple (· = g) (populate srcDpid dstDpid)
    (fun _ => Population g g.age (IsPath g.vertexs.Adj src dst)) (· ≠ .outOfFuel) := by
  refine Py.Triple.reads ?_
  rintro s rfl
  rw [hsrc, hdst, Py.ofOption_some, Py.ofOption_some, pure_bind, pure_bind]
  refine Py.Triple.bind (Q := fun links t => t = s ∧ ∀ l ∈ links, IsPath s.vertexs.Adj src dst l)
    (Py.Triple.ofExcept (fun e he => ?_) fun links hlinks t ht => ⟨ht, ?_⟩) fun links => ?_
  · rintro rfl
    exact findPathDfs_ne_outOfFuel he
  · exact isPath_of_findPathDfs hloops hlinks
  · refine Py.Triple.modify ?_
    rintro t ⟨rfl, hlinks⟩
    exact ⟨rfl, rfl, rfl, rfl, rfl, hlinks⟩

theorem population_of_reaches (hne : src ≠ dst) {point : Point}
    (h : Reaches g srcDpid dstDpid minBandwidth point s) :
    ∃ age, Population g age (Invariant g src dst point) s := by
  induction h with
  | populate h => exact ⟨_, (triple_populate hloops hsrc hdst).ok rfl h⟩
  | assess _ h ih => exact ⟨_, (triple_assess.ok ih.choose_spec h).1⟩
  | cross _ h ih => exact ⟨_, (triple_cross (E := fun _ => True) hne).ok ih.choose_spec h⟩
  | clean _ h ih => exact ⟨_, (triple_removeRedundantLink hloops).ok ih.choose_spec h⟩
  | mutate _ h ih => exact ⟨_, (triple_mutate hloops).ok ih.choose_spec h⟩
  | repair _ h ih =>
    obtain ⟨age, hpop⟩ := ih
    have hspliced := hpop.imp fun l hl => hl.spliced
    exact ⟨age, (triple_removeRedundantLink hloops).ok hspliced h⟩
  | grow _ h ih =>
    obtain ⟨age, hpop⟩ := ih
    obtain ⟨-, rfl⟩ := Prod.mk.inj h
    exact ⟨age + 1, hpop.grown⟩

theorem evolve_ne_outOfFuel (hne : src ≠ dst) :
    ((evolve srcDpid dstDpid minBandwidth).exec g).1 ≠ .error .outOfFuel := by
  have h : Py.Triple (· = g) (evolve srcDpid dstDpid minBandwidth) (fun _ _ => True)
      (· ≠ .outOfFuel) := by
    refine Py.Triple.bind (triple_populate hloops hsrc hdst) fun _ => Py.Triple.reads fun s hs => ?_
    rw [hs.generationMax]
    exact (triple_evolveLoop hloops hne (by omega)).pre fun t ht => ht ▸ hs
  have hrun := h g rfl
  rcases hexec : (evolve srcDpid dstDpid minBandwidth).exec g with ⟨e | a, t⟩
  · rw [hexec] at hrun
    simpa using hrun
  · simp

end runs

/-- The place of an entry. -/
theorem fittest_lt (h : fitness ≠ []) : fittest fitness < fitness.length := by
  refine List.foldlRecOn (motive := fun best : ℚ × ℕ => best.2 < fitness.length) _ _
    (List.length_pos_iff.mpr h) fun best hbest f hf => ?_
  split
  · exact (List.mem_zipIdx' hf).1
  · exact hbest

/-- Neighbors are vertices, vertices are switches, and no switch is its own neighbor. -/
structure IsTopology (g : GAPopulation) : Prop where
  size : g.vertexs.length = g.switchQueue.length
  neighbors : ∀ a b, g.vertexs.Adj a b → b < g.vertexs.length
  loops : g.vertexs.NoSelfLoops
  queue : g.switchQueue.Nodup

/-- The switches of two neighboring vertices. -/
def SwitchAdj (g : GAPopulation) (x y : ℕ) : Prop :=
  ∃ a b, g.switchQueue[a]? = some x ∧ g.switchQueue[b]? = some y ∧ g.vertexs.Adj a b

def dpidOf (g : GAPopulation) (a : ℕ) : ℕ := (g.switchQueue[a]?).getD 0

theorem dpidOf_of_getElem? {a dpid : ℕ} (h : g.switchQueue[a]? = some dpid) :
    g.dpidOf a = dpid := by
  rw [dpidOf, h, Option.getD_some]

theorem getElem?_dpidOf {a : ℕ} (ha : a < g.switchQueue.length) :
    g.switchQueue[a]? = some (g.dpidOf a) := by
  rw [dpidOf, List.getElem?_eq_getElem ha, Option.getD_some]

/-- The switches of a path of vertices. -/
theorem isPath_switches (htop : g.IsTopology) {l : List ℕ} (hsrc : src < g.switchQueue.length)
    (hl : IsPath g.vertexs.Adj src dst l) :
    (∀ a ∈ l, a < g.switchQueue.length) ∧
      IsPath g.SwitchAdj (g.dpidOf src) (g.dpidOf dst) (l.map g.dpidOf) := by
  have hlt : ∀ a ∈ l, a < g.switchQueue.length :=
    hl.toIsWalk.forall_mem hsrc fun a b hab => htop.size ▸ htop.neighbors a b hab
  refine ⟨hlt, hl.map_places htop.queue (fun _ => getElem?_dpidOf) hlt fun a b hab => ?_⟩
  exact ⟨a, b, getElem?_dpidOf (htop.size ▸ hab.lt),
    getElem?_dpidOf (htop.size ▸ htop.neighbors a b hab), hab⟩

/-- What `getLink` reads off a population of paths. -/
theorem getLink_ok (htop : g.IsTopology) (hne : src ≠ dst)
    (hsrc : g.switchQueue[src]? = some srcDpid) (hdst : g.switchQueue[dst]? = some dstDpid)
    (ht : Population g age (IsPath g.vertexs.Adj src dst) t) (hlinks : t.links ≠ [])
    (hfitness : t.fitness.length = t.links.length) :
    ∃ l cost u, t.links[fittest t.fitness]? = some l ∧
      getLink.exec t = (.ok (l.map g.dpidOf, cost), u) ∧
      IsPath g.SwitchAdj srcDpid dstDpid (l.map g.dpidOf) := by
  have hlt : fittest t.fitness < t.links.length :=
    hfitness ▸ fittest_lt (List.ne_nil_of_length_pos (hfitness ▸ List.length_pos_iff.mpr hlinks))
  have hl := ht.links _ (List.getElem_mem hlt)
  have hget := List.getElem?_eq_getElem hlt
  generalize t.links[fittest t.fitness] = l at hl hget
  obtain ⟨first, second, rest, rfl⟩ : ∃ first second rest, l = first :: second :: rest := by
    have hlength := hl.toIsWalk.two_le_length hne
    match l with
    | a :: b :: rest => exact ⟨a, b, rest, rfl⟩
  obtain ⟨hmem, hpath⟩ := isPath_switches htop (List.getElem?_eq_some_iff.mp hsrc).1 hl
  rw [dpidOf_of_getElem? hsrc, dpidOf_of_getElem? hdst] at hpath
  have hexec : getLink.exec t = (.ok ((first :: second :: rest).map g.dpidOf,
      Algorithm.linkCost t.edges (first :: second :: rest)),
      { t with linkCache := t.linkCache.set (first, second) (first :: second :: rest) }) := by
    rw [getLink, Py.exec_bind_of_ok (Py.exec_get t), hget, Py.ofOption_some, pure_bind,
      List.getElem?_cons_zero, List.getElem?_cons_succ, List.getElem?_cons_zero, Py.ofOption_some,
      Py.ofOption_some, pure_bind, pure_bind, Py.exec_bind_of_ok (Py.exec_modify _ t),
      Py.exec_bind_of_ok (Py.exec_mapM fun a ha => ?_)]
    · rfl
    · rw [ht.switchQueue, getElem?_dpidOf (hmem a ha), Py.ofOption_some, Py.exec_pure]
  exact ⟨_, _, _, hget, hexec, hpath⟩

/-- At the head of each round and after the repair of a mutation, the individuals are simple
paths. Between the crossover and the removal of redundancy they are walks that visit nothing
more than twice, on which the removal returns. So a run that returns leaves a simple path. -/
theorem population_invariant (htop : g.IsTopology) (hne : srcDpid ≠ dstDpid)
    (hsrc : g.switchQueue.idxOf? srcDpid = some src)
    (hdst : g.switchQueue.idxOf? dstDpid = some dst) (minBandwidth : ℚ) :
    (∀ s, Reaches g srcDpid dstDpid minBandwidth .head s →
      ∀ l ∈ s.links, IsPath g.vertexs.Adj src dst l) ∧
    (∀ s, Reaches g srcDpid dstDpid minBandwidth .crossed s → ∀ l ∈ s.links,
      IsWalk g.vertexs.Adj src dst l ∧ TwiceAtMost l ∧
        ∀ rng, ∃ result rest, (removeRedundancy l).exec rng = (.ok result, rest)) ∧
    (∀ s, Reaches g srcDpid dstDpid minBandwidth .repaired s →
      ∀ l ∈ s.links, IsPath g.vertexs.Adj src dst l) ∧
    ((run srcDpid dstDpid minBandwidth).exec g).1 ≠ .error .outOfFuel ∧
    (∀ t, (run srcDpid dstDpid minBandwidth).exec g = (.ok (), t) → ∃ path cost u,
      getLink.exec t = (.ok (path, cost), u) ∧
        IsPath g.SwitchAdj srcDpid dstDpid path) := by
  have hne' := Py.ne_of_idxOf? hne hsrc hdst
  have hreaches {point : Point} {s : GAPopulation}
      (h : Reaches g srcDpid dstDpid minBandwidth point s) :=
    population_of_reaches htop.loops hsrc hdst hne' h
  refine ⟨fun s hs l hl => ?_, fun s hs l hl => ?_, fun s hs l hl => ?_,
    evolve_ne_outOfFuel htop.loops hsrc hdst hne', fun t ht => ?_⟩
  · obtain ⟨age, hpop⟩ := hreaches hs
    exact hpop.links l hl
  · obtain ⟨age, hpop⟩ := hreaches hs
    have hspliced : IsSpliced g.vertexs.Adj src dst l := hpop.links l hl
    refine ⟨hspliced.toIsWalk, hspliced.twice, fun rng => ?_⟩
    have hrun := triple_removeRedundancy (E := fun _ => False) hspliced.twice rng trivial
    rcases hexec : (removeRedundancy l).exec rng with ⟨e | result, rest⟩
    · rw [hexec] at hrun
      exact hrun.elim
    · exact ⟨result, rest, rfl⟩
  · obtain ⟨age, hpop⟩ := hreaches hs
    exact hpop.links l hl
  · obtain ⟨u, hu, hassess⟩ := reaches_of_evolve ht
    obtain ⟨age, hpop⟩ := hreaches hu
    obtain ⟨hpop, hlinks, hfitness, -⟩ := triple_assess.ok hpop hassess
    obtain ⟨l, cost, v, -, hexec, hpath⟩ := getLink_ok htop hne' (Py.getElem?_of_idxOf? hsrc)
      (Py.getElem?_of_idxOf? hdst) hpop hlinks hfitness
    exact ⟨_, cost, v, hexec, hpath⟩

/-- Three switches that are all neighbors, and draws of zero. -/
def triangle : GAPopulation where
  switchQueue := [11, 12, 13]
  vertexs := [⟨2, [1, 2], [0, 2]⟩, ⟨2, [0, 2], [0, 1]⟩, ⟨2, [0, 1], [2, 1]⟩]
  edges := [⟨0, 1, 1, 1, some 5, 10⟩, ⟨1, 2, 1, 1, some 5, 10⟩, ⟨0, 2, 3, 1, some 5, 10⟩]
  generationMax := 2
  rng _ := .zero

theorem isTopology_triangle : triangle.IsTopology where
  size := rfl
  neighbors := Vertexs.forall_adj_iff.mpr (by decide)
  loops := Vertexs.noSelfLoops_iff.mpr (by decide)
  queue := by decide

theorem population_invariant_triangle :
    ((run 11 13 1).exec triangle).1 = .ok () ∧
    (∀ s, Reaches triangle 11 13 1 .head s →
      ∀ l ∈ s.links, IsPath triangle.vertexs.Adj 0 2 l) ∧
    (∀ t, (run 11 13 1).exec triangle = (.ok (), t) → ∃ path cost u,
      getLink.exec t = (.ok (path, cost), u) ∧ IsPath triangle.SwitchAdj 11 13 path) := by
  have h := @population_invariant 0 2 11 13 triangle isTopology_triangle (by decide) rfl rfl 1
  exact ⟨by decide +kernel, h.1, h.2.2.2.2⟩

end SDRoute.GAPopulation
