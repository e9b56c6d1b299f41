import SDRoute.Algorithm.DijkstraExact

/-! The shortest path search ends for all weights, also for negative ones: each round tags a new
vertex, and previous vertices are older. -/
namespace SDRoute.Dijkstra
open ShortestPath

variable {s : Dijkstra} {a b j src x : ℕ} {p : List ℕ}

/-- Neighbors are vertices, and the weights of the hops can be computed. -/
structure IsReadable (s : Dijkstra) : Prop where
  neighbors : ∀ a b, s.vertexs.Adj a b → b < s.vertexs.length
  weights : ∀ a b, s.vertexs.Adj a b → ∃ w, s.useAvailableBandwidthMarkWeight a b = .ok w

theorem IsReadable.reads (h : s.IsReadable) : s.network.Reads (s.arcs .rat) := by
  refine reads_arcs h.neighbors fun a b hadj => ?_
  obtain ⟨w, hw⟩ := h.weights a b hadj
  rw [weight, hw]

theorem length_vertices (s : Dijkstra) : s.network.vertices.length = s.vertexs.length := by
  simp [Network.vertices, network]

/-- What is returned for a vertex: a way to it over neighbors that repeats nothing. -/
def Ends (s : Dijkstra) (i : ℕ) (path : List ℕ) : Prop :=
  path.getLast? = some i ∧ path.Nodup ∧ path.IsChain s.vertexs.Adj

theorem ends_of_traced {l : Labels ℚ} {order : List ℕ}
    (hl : Explored s.network (s.arcs .rat) src 10000 order l) (hp : Traced l.previousVertex j p) :
    s.Ends j p := by
  have hadj : ∀ j x, l.previousVertex j = some x → s.vertexs.Adj x j := by
    intro j x hprev
    obtain ⟨-, -, w, harc, -⟩ := hl.labeled j x hprev
    exact (mem_arcs.mp harc).1
  obtain ⟨q, hq, hnodup, -⟩ := hl.traced j
  obtain rfl := hp.unique hq
  exact ⟨hp.getLast, hnodup, hp.isChain hadj⟩

/-- Every round of the search tags a new vertex, in the end no vertex comes before itself, and
the paths that are returned repeat nothing. -/
theorem calculate_ends (h : s.IsReadable) (hsrc : src < s.vertexs.length) :
    (∀ k, k + 1 < s.vertexs.length → ∃ l l',
      s.network.rounds k (.start 10000 src) = .ok l ∧
      s.network.rounds (k + 1) (.start 10000 src) = .ok l' ∧ TagsNew s.network l l') ∧
    (∃ l, s.network.rounds (s.vertexs.length - 1) (.start 10000 src) = .ok l ∧
      (∀ i < s.vertexs.length, l.tag i = true) ∧
      WellFounded fun x i => l.previousVertex i = some x) ∧
    ∃ paths, s.calculate src = .ok paths ∧ paths.length = s.vertexs.length ∧
      ∀ i < s.vertexs.length, ∃ path, paths[i]? = some path ∧ s.Ends i path := by
  have hreads := h.reads
  have hendless : (0 : ℚ) ≤ 10000 := by decide
  have hvertices := s.length_vertices
  refine ⟨fun k hk => ?_, ?_, ?_⟩
  · exact exists_tagsNew hreads hendless hsrc rfl (by omega)
  · obtain ⟨l, order, hrounds, hl, hall, -⟩ :=
      explored_search hreads hendless hsrc rfl (k := s.vertexs.length - 1) (by omega)
    refine ⟨l, hrounds, fun i hi => (hl.tagged i).mpr (hall i hi rfl), ?_⟩
    refine wellFounded_of_traced fun i => ?_
    obtain ⟨p, hp, -⟩ := hl.traced i
    exact ⟨p, hp⟩
  · obtain ⟨l, order, paths, hl, -, -, htraced, hcalculate⟩ := calculate_ok hreads hsrc
    have hlength : paths.length = s.vertexs.length := by
      rw [← htraced.length_eq, List.length_range]
    refine ⟨paths, hcalculate, hlength, fun i hi => ?_⟩
    have hp : Traced l.previousVertex i paths[i] := by
      have hget := (List.forall₂_iff_get.mp htraced).2 i (by simpa using hi) (hlength ▸ hi)
      simpa using hget
    exact ⟨paths[i], List.getElem?_eq_getElem _, ends_of_traced hl hp⟩

/-- More is measured to be available than there is, so that the weights are negative. -/
def generous : Dijkstra where
  vertexs := [⟨2, [1, 2], [0, 2]⟩, ⟨2, [0, 2], [0, 1]⟩, ⟨2, [1, 0], [1, 2]⟩]
  edges := [⟨0, 1, 0, 0, some 200, 100⟩, ⟨1, 2, 0, 0, some 300, 100⟩, ⟨0, 2, 0, 0, some 200, 100⟩]

theorem isReadable_generous : generous.IsReadable where
  neighbors := Vertexs.forall_adj_iff.mpr (by decide)
  weights := by
    have hall : ∀ a b, generous.vertexs.Adj a b →
        generous.useAvailableBandwidthMarkWeight a b = .ok (generous.weight a b) :=
      Vertexs.forall_adj_iff.mpr (by decide +kernel)
    exact fun a b hadj => ⟨_, hall a b hadj⟩

theorem calculate_ends_generous : generous.weight 0 1 < 0 ∧
    ∃ paths, generous.calculate 0 = .ok paths ∧ paths.length = 3 ∧
      ∀ i < 3, ∃ path, paths[i]? = some path ∧ generous.Ends i path :=
  ⟨by decide +kernel, (calculate_ends isReadable_generous (by decide)).2.2⟩

end SDRoute.Dijkstra
