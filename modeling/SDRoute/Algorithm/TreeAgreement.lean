import Mathlib.Tactic.IntervalCases
import SDRoute.Algorithm.MGEvaluated

/-! The fitness of a chromosome and the paths that are extracted from it agree. -/
namespace SDRoute.MGAlgorithm

variable {s : MGAlgorithm} {A : Rounding} {genes : List Bool} {nums : List ℕ}

/-- The paths and the fitness of a chromosome stand for one tree of shortest paths: there are no
paths, and the fitness is that of no tree, exactly if some destination cannot be reached. Else
there is a shortest path to each destination, every vertex has one previous vertex on all of
them, and the fitness is the cost of the distinct edges on them. What is shortest, and what edges
cost together, is told by sums of doubles, or by other sums. -/
def Agrees (s : MGAlgorithm) (A : Rounding) (chromosome : Chromosome) : Prop :=
  ∃ paths fitness, s.deleteCircuit chromosome = .ok paths ∧
    s.fitnessEvaluate chromosome = .ok { chromosome with fitness } ∧
    (paths = [] ↔ ∃ d ∈ s.desVertexes, Unreachable s chromosome.genes d) ∧
    (fitness = endlessFloat ↔ ∃ d ∈ s.desVertexes, Unreachable s chromosome.genes d) ∧
    (paths ≠ [] → ∃ (ways : List (List ℕ × List ℕ)) (previousVertex : ℕ → Option ℕ),
      paths = ways.map Prod.fst ∧
      List.Forall₂ (fun d way => Shortest s chromosome.genes d way.1 way.2 A) s.desVertexes ways ∧
      (∀ path ∈ paths, path.IsChain fun x y => previousVertex y = some x) ∧
      previousVertex s.souVertex = none ∧
      fitness = costOf s (selectedEdges ways) A)

/-- The fitness of a chromosome and the tree that is extracted from it agree, for every request
with a destination, by the sums of doubles that are calculated. -/
theorem fitness_agrees_with_tree (s : MGAlgorithm) (chromosome : Chromosome) (htop : s.IsTopology)
    (hgenes : chromosome.genes.length = s.edges.length) (hrequest : s.IsRequest)
    (hne : s.desVertexes ≠ []) : s.Agrees .double chromosome := by
  obtain ⟨paths, fitness, hpaths, hfitness, heval⟩ :=
    exists_evaluated htop hrequest hne chromosome hgenes
  refine ⟨paths, fitness, hpaths, hfitness, heval.nil_iff hrequest hne,
    heval.unreached_iff htop hrequest, fun hsome => ?_⟩
  cases heval with
  | unreached _ => exact absurd rfl hsome
  | @tree previousVertex ways htree hways =>
    refine ⟨ways, previousVertex, rfl, hways.imp fun d way h => h.2.2.shortest, ?_, htree.root, rfl⟩
    intro path hpath
    obtain ⟨way, hway, rfl⟩ := List.mem_map.mp hpath
    obtain ⟨d, hd⟩ := exists_branch hways way hway
    exact hd.charges.chain

/-! Two requests that show what the sums are, and why a destination is needed. -/

theorem once_of_pairwise (h : s.edges.Pairwise fun e f => ¬ e.Joins f.vertexId0 f.vertexId1)
    {i k a b : ℕ} {e f : Edge} (he : s.edges[i]? = some e) (hf : s.edges[k]? = some f)
    (hje : e.Joins a b) (hjf : f.Joins a b) : i = k := by
  have hjoins : ∀ {e f : Edge}, e.Joins a b → f.Joins a b →
      e.Joins f.vertexId0 f.vertexId1 := by
    rintro e f he (⟨rfl, rfl⟩ | ⟨rfl, rfl⟩)
    · exact he
    · exact he.symm
  obtain ⟨hi, rfl⟩ := List.getElem?_eq_some_iff.mp he
  obtain ⟨hk, rfl⟩ := List.getElem?_eq_some_iff.mp hf
  rcases Nat.lt_trichotomy i k with hlt | heq | hlt
  · exact absurd (hjoins hje hjf) (List.pairwise_iff_getElem.mp h i k hi hk hlt)
  · exact heq
  · exact absurd (hjoins hjf hje) (List.pairwise_iff_getElem.mp h k i hk hi hlt)

/-- Few edges with a bound on their costs stay below the length of no path. -/
theorem costOf_lt_of_le (bound : ℕ) (hcost : ∀ e ∈ s.edges, e.cost ≤ bound)
    (hbound : s.edges.length * bound ≤ 10 ^ 10) (hnodup : nums.Nodup)
    (hlt : ∀ i ∈ nums, i < s.edges.length) : costOf s nums A < endlessFloat := by
  have hlength : nums.length ≤ s.edges.length := by
    have hsub : nums ⊆ List.range s.edges.length := fun i hi => List.mem_range.mpr (hlt i hi)
    simpa using (hnodup.subperm hsub).length_le
  refine sum_lt_endlessFloat bound (fun c hc => ?_) ?_
  · obtain ⟨i, hi, rfl⟩ := List.mem_map.mp hc
    rw [edgeCost, List.getElem?_eq_getElem (hlt i hi)]
    exact hcost _ (List.getElem_mem _)
  · rw [List.length_map]
    exact (Nat.mul_le_mul_right _ hlength).trans hbound

/-- One edge from the source to another vertex. -/
def oneEdge : MGAlgorithm where
  vertexes := [⟨1, [1], [0]⟩, ⟨1, [0], [0]⟩]
  edges := [⟨0, 1, 10, 2⟩]
  souVertex := 0
  desVertexes := [1]
  minAvailableBandwidth := 1

theorem isTopology_oneEdge : oneEdge.IsTopology where
  ends := by decide
  once _ _ _ _ _ _ hi hk _ := once_of_pairwise (by simp [oneEdge]) hi hk
  degree := by decide
  connect v row hrow u i := by
    have hv := (List.getElem?_eq_some_iff.mp hrow).1
    simp only [oneEdge, List.length_cons, List.length_nil] at hv
    interval_cases v <;> simp [oneEdge] at hrow <;> subst hrow <;>
      rcases i with _ | i <;> simp [oneEdge, Edge.Joins, eq_comm]
  cost := by decide +kernel
  total _ := costOf_lt_of_le 2 (by decide +kernel) (by decide)

theorem fitness_agrees_with_tree_oneEdge : oneEdge.Agrees .double { genes := [true] } :=
  fitness_agrees_with_tree oneEdge { genes := [true] } isTopology_oneEdge rfl
    ⟨by decide, by decide⟩ (by decide)

def noDestination : MGAlgorithm := { oneEdge with desVertexes := [] }

/-- Two ways from vertex 0 to vertex 3: over vertex 1 with the costs .5 and the double after it, and
over vertex 2 with the costs .75 and .25. -/
def twoWays : MGAlgorithm where
  vertexes := [⟨2, [1, 2], [0, 2]⟩, ⟨2, [0, 3], [0, 1]⟩, ⟨2, [0, 3], [2, 3]⟩, ⟨2, [1, 2], [1, 3]⟩]
  edges := [⟨0, 1, 10, 1 / 2⟩, ⟨1, 3, 10, 1 / 2 + 1 / 2 ^ 53⟩, ⟨0, 2, 10, 3 / 4⟩,
    ⟨2, 3, 10, 1 / 4⟩]
  souVertex := 0
  desVertexes := [3]
  minAvailableBandwidth := 1

theorem isTopology_twoWays : twoWays.IsTopology where
  ends := by decide
  once _ _ _ _ _ _ hi hk _ := once_of_pairwise (by simp [twoWays, Edge.Joins]) hi hk
  degree := by decide
  connect v row hrow u i := by
    have hv := (List.getElem?_eq_some_iff.mp hrow).1
    simp only [twoWays, List.length_cons, List.length_nil] at hv
    interval_cases v <;> simp [twoWays] at hrow <;> subst hrow <;>
      rcases i with _ | _ | _ | _ | i <;> simp [twoWays, Edge.Joins, eq_comm]
  cost := by decide +kernel
  total _ := costOf_lt_of_le 1 (by decide +kernel) (by decide)

/-- The last hop of a way. -/
theorem Way.exists_last {src x y : ℕ} {p : List ℕ} (h : Way s genes src x (p ++ [y]) nums)
    (hne : p ≠ []) : ∃ z nums' i e, nums = nums' ++ [i] ∧ Way s genes src z p nums' ∧
      Usable s genes i e ∧ e.Joins z y := by
  generalize hall : p ++ [y] = all at h
  cases h with
  | refl =>
    have hlength := congrArg List.length hall
    exact absurd (List.eq_nil_of_length_eq_zero (by simpa using hlength)) hne
  | snoc hway he hjoins =>
    obtain ⟨rfl, hy⟩ := List.append_inj' hall rfl
    obtain rfl := (List.cons.inj hy).1
    exact ⟨_, _, _, _, rfl, hway, he, hjoins⟩

/-- The edges on the way over vertex 1. -/
theorem nums_twoWays {genes : List Bool} (h : Way twoWays genes 0 3 [0, 1, 3] nums) :
    nums = [0, 1] := by
  obtain ⟨z, nums₁, i, e, rfl, h₁, he, hi⟩ := Way.exists_last (p := [0, 1]) h (by simp)
  obtain rfl : 1 = z := Option.some.inj h₁.getLast
  obtain ⟨y, nums₀, k, f, rfl, h₀, hf, hk⟩ := Way.exists_last (p := [0]) h₁ (by simp)
  obtain rfl : 0 = y := Option.some.inj h₀.getLast
  obtain rfl := isTopology_twoWays.once i 1 e ⟨1, 3, 10, 1 / 2 + 1 / 2 ^ 53⟩ 1 3 he.1.2 rfl
    (by decide) hi (.inl ⟨rfl, rfl⟩)
  obtain rfl := isTopology_twoWays.once k 0 f ⟨0, 1, 10, 1 / 2⟩ 0 1 hf.1.2 rfl
    (by decide) hk (.inl ⟨rfl, rfl⟩)
  generalize hpath : [0] = path at h₀
  cases h₀ with
  | refl => rfl
  | snoc h _ _ =>
    cases List.append_inj_left' (show [] ++ [0] = _ from hpath) rfl
    cases h.getLast

/-- The way over vertex 1 costs more than the one over vertex 2, though its sum of doubles does
not. -/
theorem not_shortest_twoWays :
    ¬ Shortest twoWays [true, true, true, true] 3 [0, 1, 3] nums .rat := by
  rintro ⟨hway, hminimal⟩
  have hother : Way twoWays [true, true, true, true] 0 3 [0, 2, 3] [2, 3] :=
    (Way.refl.snoc (i := 2) (y := 2) (e := ⟨0, 2, 10, 3 / 4⟩) ⟨⟨rfl, rfl⟩, by decide +kernel⟩
      (.inl ⟨rfl, rfl⟩)).snoc (i := 3) (e := ⟨2, 3, 10, 1 / 4⟩) ⟨⟨rfl, rfl⟩, by decide +kernel⟩
      (.inl ⟨rfl, rfl⟩)
  obtain rfl := nums_twoWays hway
  exact absurd (hminimal _ _ hother) (by decide +kernel)

/-- Without a destination there are no paths, though no destination is out of reach. And a path is
the cheapest by the sums of doubles only. -/
theorem not_agrees_as_claimed :
    (noDestination.IsTopology ∧ costOf noDestination [0] .rat < endlessFloat ∧
      noDestination.IsRequest ∧ ¬ noDestination.Agrees .rat { genes := [true] }) ∧
    (twoWays.IsTopology ∧ costOf twoWays [0, 1, 2, 3] .rat < endlessFloat ∧ twoWays.IsRequest ∧
      twoWays.desVertexes ≠ [] ∧
      ¬ twoWays.Agrees .rat { genes := [true, true, true, true] }) := by
  refine ⟨⟨{ isTopology_oneEdge with }, by decide +kernel, ⟨by decide, by decide⟩, ?_⟩,
    ⟨isTopology_twoWays, by decide +kernel, ⟨by decide, by decide⟩, by decide, ?_⟩⟩
  · rintro ⟨paths, fitness, hpaths, -, hiff, -⟩
    have hnil : paths = [] := Except.ok.inj (hpaths.symm.trans (by decide +kernel))
    obtain ⟨d, hd, -⟩ := hiff.mp hnil
    cases hd
  · rintro ⟨paths, fitness, hpaths, -, -, -, htree⟩
    have hone : paths = [[0, 1, 3]] := Except.ok.inj (hpaths.symm.trans (by decide +kernel))
    obtain ⟨ways, previousVertex, hways, hshortest, -⟩ := htree (by simp [hone])
    obtain ⟨way, rest, hway, hrest, rfl⟩ := List.forall₂_cons_left_iff.mp hshortest
    obtain rfl := List.forall₂_nil_left_iff.mp hrest
    obtain ⟨path, nums⟩ := way
    obtain rfl : [0, 1, 3] = path := (List.cons.inj (hone.symm.trans hways)).1
    exact not_shortest_twoWays hway

end SDRoute.MGAlgorithm
