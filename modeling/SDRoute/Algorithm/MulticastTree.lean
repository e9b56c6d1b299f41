import SDRoute.Algorithm.MGAlgorithm

/-! The edges that a chromosome selects, the ways over them, and the search for the shortest. -/
namespace SDRoute.MGAlgorithm
open ShortestPath

def Edge.Joins (e : Edge) (a b : ℕ) : Prop :=
  (e.vertexId0 = a ∧ e.vertexId1 = b) ∨ (e.vertexId0 = b ∧ e.vertexId1 = a)

theorem Edge.Joins.symm {e : Edge} {a b : ℕ} (h : e.Joins a b) : e.Joins b a := Or.symm h

def edgeCost (s : MGAlgorithm) (i : ℕ) : ℚ := ((s.edges[i]?).map Edge.cost).getD 0

/-- The costs of edges, added up one after the other. -/
def costOf (s : MGAlgorithm) (nums : List ℕ) (A : Rounding := .double) : ℚ :=
  A.sum (nums.map (edgeCost s))

/-- The edges join vertices, at most one joins two distinct ones, and the rows list every edge at
both its ends. In whatever order the costs of distinct edges are added up, they stay below the
length of no path. -/
structure IsTopology (s : MGAlgorithm) : Prop where
  ends : ∀ e ∈ s.edges, e.vertexId0 < s.vertexes.length ∧ e.vertexId1 < s.vertexes.length
  once : ∀ (i k : ℕ) e f a b, s.edges[i]? = some e → s.edges[k]? = some f → a ≠ b →
    e.Joins a b → f.Joins a b → i = k
  degree : ∀ row ∈ s.vertexes, row.degree = row.neighbors.length ∧
    row.edges.length = row.neighbors.length
  connect : ∀ (v : ℕ) row, s.vertexes[v]? = some row → ∀ u i,
    (u, i) ∈ row.neighbors.zip row.edges ↔ ∃ e, s.edges[i]? = some e ∧ e.Joins v u
  cost : ∀ e ∈ s.edges, 0 ≤ e.cost
  total : ∀ nums : List ℕ, nums.Nodup → (∀ i ∈ nums, i < s.edges.length) →
    costOf s nums < endlessFloat

/-- An edge that a chromosome selects. -/
def Selected (s : MGAlgorithm) (genes : List Bool) (i : ℕ) (e : Edge) : Prop :=
  genes[i]? = some true ∧ s.edges[i]? = some e

/-- A selected edge that is wide enough. -/
def Usable (s : MGAlgorithm) (genes : List Bool) (i : ℕ) (e : Edge) : Prop :=
  Selected s genes i e ∧ ¬ e.availableWidth < s.minAvailableBandwidth

def UsableAdj (s : MGAlgorithm) (genes : List Bool) (a b : ℕ) : Prop :=
  ∃ i e, Usable s genes i e ∧ e.Joins a b

/-- A way over usable edges, as its vertices and its edges. -/
inductive Way (s : MGAlgorithm) (genes : List Bool) (src : ℕ) : ℕ → List ℕ → List ℕ → Prop
  | refl : Way s genes src src [src] []
  | snoc {x y i : ℕ} {path nums : List ℕ} {e : Edge} (h : Way s genes src x path nums)
    (he : Usable s genes i e) (hjoins : e.Joins x y) :
    Way s genes src y (path ++ [y]) (nums ++ [i])

variable {s : MGAlgorithm} {genes : List Bool} {t : Topology} {a b i j k u v x y src : ℕ}
  {e : Edge} {path nums done : List ℕ} {l : Labels ℚ} {order : List ℕ}

/-! The selected edges as a network. -/

/-- The neighbors of a vertex, with the edges to them. -/
def Topology.row (t : Topology) (v : ℕ) : List (ℕ × ℕ) := (t.tempVertexes v).getD []

theorem mem_row_connect : (u, k) ∈ (t.connect a b i).row v ↔
    (v = a ∧ u = b ∧ k = i) ∨ (u, k) ∈ t.row v := by
  rw [Topology.row, Topology.row, Topology.connect]
  by_cases hv : v = a
  · subst hv
    simp [or_comm]
  · simp [hv]

theorem isSome_connect : ((t.connect a b i).tempVertexes v).isSome = true ↔
    v = a ∨ (t.tempVertexes v).isSome = true := by
  rw [Topology.connect]
  by_cases hv : v = a <;> simp [hv]

/-- A vertex that gets present is counted. -/
theorem length_filter_update {p : ℕ → Bool} {q : ℕ → Bool} {n : ℕ} (ha : a < n)
    (hnew : p a = false) (hq : ∀ v, q v = true ↔ v = a ∨ p v = true) :
    ((List.range n).filter q).length = ((List.range n).filter p).length + 1 := by
  have hperm : ((List.range n).filter q).Perm (a :: (List.range n).filter p) := by
    refine (List.perm_ext_iff_of_nodup (List.nodup_range.filter _)
      (List.nodup_cons.mpr ⟨by simp [hnew], List.nodup_range.filter _⟩)).mpr fun v => ?_
    simp only [List.mem_filter, List.mem_range, List.mem_cons, hq]
    constructor
    · rintro ⟨hv, rfl | hp⟩
      · exact .inl rfl
      · exact .inr ⟨hv, hp⟩
    · rintro (rfl | ⟨hv, hp⟩)
      · exact ⟨ha, .inl rfl⟩
      · exact ⟨hv, .inr hp⟩
  rw [hperm.length_eq, List.length_cons]

/-- The topology after some edges. -/
structure Holds (s : MGAlgorithm) (genes : List Bool) (done : List ℕ) (t : Topology) : Prop where
  mem_row : ∀ v u k, (u, k) ∈ t.row v ↔ k ∈ done ∧ ∃ e, Selected s genes k e ∧ e.Joins v u
  touched : ∀ v, (t.tempVertexes v).isSome = true ↔ t.row v ≠ []
  quantity : t.treeVertexesQuantity =
    ((List.range s.vertexes.length).filter fun v => (t.tempVertexes v).isSome).length

theorem quantity_connect (ha : a < s.vertexes.length)
    (h : t.treeVertexesQuantity =
      ((List.range s.vertexes.length).filter fun v => (t.tempVertexes v).isSome).length) :
    (t.connect a b i).treeVertexesQuantity = ((List.range s.vertexes.length).filter
      fun v => ((t.connect a b i).tempVertexes v).isSome).length := by
  change (if (t.tempVertexes a).isNone then _ else _) = _
  rcases hrow : t.tempVertexes a with _ | row
  · rw [length_filter_update ha (p := fun v => (t.tempVertexes v).isSome) (by simp [hrow])
      fun v => isSome_connect, ← h]
    rfl
  · rw [if_neg (by simp), h]
    congr 2
    funext v
    refine Bool.eq_iff_iff.mpr (Iff.trans ?_ isSome_connect.symm)
    constructor
    · exact .inr
    · rintro (rfl | hv)
      · simp [hrow]
      · exact hv

theorem touched_connect (h : ∀ v, (t.tempVertexes v).isSome = true ↔ t.row v ≠ []) (v : ℕ) :
    ((t.connect a b i).tempVertexes v).isSome = true ↔ (t.connect a b i).row v ≠ [] := by
  rw [isSome_connect, h v, Topology.row, Topology.row, Topology.connect]
  by_cases hv : v = a <;> simp [hv]

theorem Holds.addEdge (h : Holds s genes done t) (htop : s.IsTopology)
    (hgenes : genes.length = s.edges.length) (hi : i < s.edges.length) :
    ∃ t', s.addEdge genes t i = .ok t' ∧ Holds s genes (done ++ [i]) t' := by
  obtain ⟨gene, hgene⟩ : ∃ gene, genes[i]? = some gene :=
    ⟨_, List.getElem?_eq_getElem (by omega)⟩
  obtain ⟨e, he⟩ : ∃ e, s.edges[i]? = some e := ⟨_, List.getElem?_eq_getElem hi⟩
  rw [MGAlgorithm.addEdge, hgene]
  cases gene with
  | false =>
    refine ⟨t, rfl, fun v u k => ?_, h.touched, h.quantity⟩
    rw [h.mem_row, List.mem_append, List.mem_singleton]
    constructor
    · rintro ⟨hk, hselected⟩
      exact ⟨.inl hk, hselected⟩
    · rintro ⟨hk | rfl, e', ⟨hgene', he'⟩, hjoins⟩
      · exact ⟨hk, e', ⟨hgene', he'⟩, hjoins⟩
      · rw [hgene] at hgene'
        cases hgene'
  | true =>
    have hends := htop.ends e (List.mem_of_getElem? he)
    rw [he]
    dsimp only
    rw [if_pos hends]
    refine ⟨_, rfl, fun v u k => ?_, touched_connect (touched_connect h.touched),
      quantity_connect hends.2 (quantity_connect hends.1 h.quantity)⟩
    rw [mem_row_connect, mem_row_connect, h.mem_row, List.mem_append, List.mem_singleton]
    constructor
    · rintro (⟨rfl, rfl, rfl⟩ | ⟨rfl, rfl, rfl⟩ | ⟨hk, hselected⟩)
      · exact ⟨.inr rfl, e, ⟨hgene, he⟩, .inr ⟨rfl, rfl⟩⟩
      · exact ⟨.inr rfl, e, ⟨hgene, he⟩, .inl ⟨rfl, rfl⟩⟩
      · exact ⟨.inl hk, hselected⟩
    · rintro ⟨hk | rfl, e', ⟨hgene', he'⟩, hjoins⟩
      · exact .inr (.inr ⟨hk, e', ⟨hgene', he'⟩, hjoins⟩)
      · obtain rfl := Option.some.inj (he'.symm.trans he)
        rcases hjoins with ⟨rfl, rfl⟩ | ⟨rfl, rfl⟩
        · exact .inr (.inl ⟨rfl, rfl, rfl⟩)
        · exact .inl ⟨rfl, rfl, rfl⟩

theorem holds_newTopology (htop : s.IsTopology) (hgenes : genes.length = s.edges.length) :
    ∃ t, s.newTopology genes = .ok t ∧ Holds s genes (List.range s.edges.length) t := by
  refine Py.foldlM_invariant (J := Holds s genes) (fun done t i hi h =>
    h.addEdge htop hgenes (List.mem_range.mp hi)) ⟨?_, ?_, ?_⟩
  · simp [Topology.row]
  · simp [Topology.row]
  · simp

/-- What an edge adds to a path. -/
def weight (s : MGAlgorithm) (i : ℕ) : ℚ :=
  match s.edges[i]? with
  | none => endlessFloat
  | some e => if e.availableWidth < s.minAvailableBandwidth then endlessFloat else e.cost

def arcs (s : MGAlgorithm) (t : Topology) (v : ℕ) : List (ℕ × ℚ) :=
  (t.row v).map fun connection => (connection.1, s.weight connection.2)

theorem endlessFloat_nonneg : 0 ≤ endlessFloat := Rounding.round_nonneg (by norm_num)

theorem round_endlessFloat : Rounding.double.round endlessFloat = endlessFloat :=
  Rounding.double.round_round _

/-- Few costs with a bound stay below the length of no path, however their sums are rounded. -/
theorem sum_lt_endlessFloat {A : Rounding} {costs : List ℚ} (bound : ℕ)
    (hcosts : ∀ c ∈ costs, c ≤ bound) (hbound : costs.length * bound ≤ 10 ^ 10) :
    A.sum costs < endlessFloat :=
  calc A.sum costs ≤ (costs.length * bound : ℕ) :=
        Rounding.sum_le hcosts (hbound.trans (by norm_num))
    _ ≤ (10 ^ 10 : ℕ) := by exact_mod_cast hbound
    _ < endlessFloat := by decide +kernel

theorem weight_nonneg (htop : s.IsTopology) (i : ℕ) : 0 ≤ s.weight i := by
  rw [weight]
  split
  · exact endlessFloat_nonneg
  · rename_i e he
    split
    · exact endlessFloat_nonneg
    · exact htop.cost e (List.mem_of_getElem? he)

theorem arcs_nonneg (htop : s.IsTopology) (v : ℕ) : ∀ arc ∈ s.arcs t v, 0 ≤ arc.2 := by
  intro arc harc
  obtain ⟨connection, -, rfl⟩ := List.mem_map.mp harc
  exact weight_nonneg htop _

theorem lengthens_network (htop : s.IsTopology) :
    (s.network t).Lengthens (s.arcs t) endlessFloat :=
  Network.lengthens_add rfl round_endlessFloat (arcs_nonneg htop)

section topology
variable (htop : s.IsTopology) (ht : Holds s genes (List.range s.edges.length) t)
include ht

theorem mem_row : (u, k) ∈ t.row v ↔ ∃ e, Selected s genes k e ∧ e.Joins v u := by
  rw [ht.mem_row]
  refine and_iff_right_of_imp ?_
  rintro ⟨e, ⟨-, he⟩, -⟩
  exact List.mem_range.mpr (List.getElem?_eq_some_iff.mp he).1

/-- A usable edge is an arc with its cost. -/
theorem mem_arcs_of_usable (he : Usable s genes i e) (hjoins : e.Joins x y) :
    (y, edgeCost s i) ∈ s.arcs t x := by
  refine List.mem_map.mpr ⟨(y, i), (mem_row ht).mpr ⟨e, he.1, hjoins⟩, ?_⟩
  simp only [weight, edgeCost, he.1.2, if_neg he.2, Option.map_some, Option.getD_some]

/-- An arc that costs less than no path is a usable edge with its cost. -/
theorem usable_of_mem_arcs {w : ℚ} (harc : (y, w) ∈ s.arcs t x) (hw : w < endlessFloat) :
    ∃ i e, Usable s genes i e ∧ e.Joins x y ∧ w = edgeCost s i := by
  obtain ⟨⟨u, i⟩, hmem, heq⟩ := List.mem_map.mp harc
  obtain ⟨rfl, rfl⟩ := Prod.mk.inj heq
  obtain ⟨e, hselected, hjoins⟩ := (mem_row ht).mp hmem
  simp only [weight, hselected.2] at hw ⊢
  split at hw
  · exact absurd hw (lt_irrefl _)
  · rename_i hwide
    exact ⟨i, e, ⟨hselected, hwide⟩, hjoins, by
      simp only [if_neg hwide, edgeCost, hselected.2, Option.map_some, Option.getD_some]⟩

include htop

theorem reads_network : (s.network t).Reads (s.arcs t) := by
  refine ⟨fun v _ hv => ?_, fun v _ hv arc harc => ?_⟩
  · obtain ⟨row, hrow⟩ := Option.isSome_iff_exists.mp hv
    simp only [network, hrow, arcs, Topology.row, Option.getD_some, List.map_map,
      Except.ok.injEq]
    refine List.map_congr_left fun connection hc => ?_
    have hmem : (connection.1, connection.2) ∈ t.row v := by
      rw [Topology.row, hrow]
      exact hc
    obtain ⟨e, ⟨-, he⟩, -⟩ := (mem_row ht).mp hmem
    simp only [Function.comp_apply, tempEdgeCost, weight, he]
  · obtain ⟨⟨u, k⟩, hmem, rfl⟩ := List.mem_map.mp harc
    obtain ⟨e, hselected, hjoins⟩ := (mem_row ht).mp hmem
    have hends := htop.ends e (List.mem_of_getElem? hselected.2)
    refine ⟨?_, (ht.touched u).mpr (List.ne_nil_of_mem ((mem_row ht).mpr ⟨e, hselected,
      hjoins.symm⟩))⟩
    rcases hjoins with ⟨-, rfl⟩ | ⟨rfl, -⟩
    · exact hends.2
    · exact hends.1

end topology

/-! Ways and their costs. -/

theorem edgeCost_nonneg (htop : s.IsTopology) (i : ℕ) : 0 ≤ edgeCost s i := by
  rw [edgeCost]
  rcases he : s.edges[i]? with _ | e
  · exact le_rfl
  · exact htop.cost e (List.mem_of_getElem? he)

theorem costOf_append (nums : List ℕ) (i : ℕ) :
    costOf s (nums ++ [i]) = Rounding.double.add (costOf s nums) (edgeCost s i) := by
  rw [costOf, List.map_append, List.map_singleton, Rounding.sum_concat]
  rfl

theorem costOf_nonneg (htop : s.IsTopology) (nums : List ℕ) : 0 ≤ costOf s nums :=
  Rounding.nonneg_sum fun c hc => by
    obtain ⟨i, -, rfl⟩ := List.mem_map.mp hc
    exact edgeCost_nonneg htop i

namespace Way

theorem getLast (h : Way s genes src x path nums) : path.getLast? = some x := by
  cases h <;> simp

theorem usable (h : Way s genes src x path nums) : ∀ i ∈ nums, ∃ e, Usable s genes i e ∧
    ∀ a b, e.Joins a b → a ∈ path ∧ b ∈ path := by
  induction h with
  | refl => simp
  | @snoc x y k path nums e h he hjoins ih =>
    intro i hi
    rcases List.mem_append.mp hi with hi | hi
    · obtain ⟨f, hf, hmem⟩ := ih i hi
      refine ⟨f, hf, fun a b hab => ?_⟩
      obtain ⟨ha, hb⟩ := hmem a b hab
      exact ⟨List.mem_append_left _ ha, List.mem_append_left _ hb⟩
    · obtain rfl := List.mem_singleton.mp hi
      have hx : x ∈ path ++ [y] := List.mem_append_left _ (List.mem_of_getLast? h.getLast)
      have hy : y ∈ path ++ [y] := by simp
      refine ⟨e, he, fun a b hab => ?_⟩
      rcases hjoins with ⟨rfl, rfl⟩ | ⟨rfl, rfl⟩ <;> rcases hab with ⟨rfl, rfl⟩ | ⟨rfl, rfl⟩
      · exact ⟨hx, hy⟩
      · exact ⟨hy, hx⟩
      · exact ⟨hy, hx⟩
      · exact ⟨hx, hy⟩

/-- An edge that leads out of a way is not on it. -/
theorem notMem (h : Way s genes src x path nums) (he : Usable s genes i e) (hjoins : e.Joins x y)
    (hy : y ∉ path) : i ∉ nums := by
  intro hi
  obtain ⟨f, hf, hmem⟩ := h.usable i hi
  obtain rfl := Option.some.inj (hf.1.2.symm.trans he.1.2)
  exact hy (hmem x y hjoins).2

/-- A way that repeats no vertex repeats no edge. -/
theorem nodup (h : Way s genes src x path nums) (hpath : path.Nodup) : nums.Nodup := by
  induction h with
  | refl => exact List.nodup_nil
  | @snoc x y k path nums e h he hjoins ih =>
    rw [← List.concat_eq_append, List.nodup_concat] at hpath ⊢
    exact ⟨h.notMem he hjoins hpath.1, ih hpath.2⟩

theorem lt (h : Way s genes src x path nums) : ∀ i ∈ nums, i < s.edges.length := by
  intro i hi
  obtain ⟨e, he, -⟩ := h.usable i hi
  exact (List.getElem?_eq_some_iff.mp he.1.2).1

theorem reachable (h : Way s genes src x path nums) :
    Relation.ReflTransGen (UsableAdj s genes) src x := by
  induction h with
  | refl => exact .refl
  | snoc _ he hjoins ih => exact ih.tail ⟨_, _, he, hjoins⟩

theorem route (ht : Holds s genes (List.range s.edges.length) t)
    (h : Way s genes src x path nums) :
    Route Rounding.double.add (s.arcs t) src x path (costOf s nums) := by
  induction h with
  | refl => exact .refl
  | snoc _ he hjoins ih =>
    rw [costOf_append]
    exact ih.snoc (mem_arcs_of_usable ht he hjoins)

end Way

/-! The ways back over the previous vertices. -/

/-- The edge between two vertices is found in the row of either. -/
theorem findEdge_ok (htop : s.IsTopology) (he : s.edges[i]? = some e) (hjoins : e.Joins x y)
    (hne : x ≠ y) : s.findEdge y x = .ok (i : ℕ) := by
  have hx : x < s.vertexes.length := by
    have hends := htop.ends e (List.mem_of_getElem? he)
    rcases hjoins with ⟨rfl, -⟩ | ⟨-, rfl⟩
    · exact hends.1
    · exact hends.2
  obtain ⟨row, hrow⟩ : ∃ row, s.vertexes[x]? = some row := ⟨_, List.getElem?_eq_getElem hx⟩
  obtain ⟨hdegree, hlength⟩ := htop.degree row (List.mem_of_getElem? hrow)
  have hmem := (htop.connect x row hrow y i).mpr ⟨e, he, hjoins⟩
  obtain ⟨num, hnum, hlisted⟩ := Vertex.edgeTo_ok hlength (List.of_mem_zip hmem).1
  obtain ⟨f, hf, hjoins'⟩ := (htop.connect x row hrow y num).mp hlisted
  obtain rfl := htop.once i num e f x y he hf hne hjoins hjoins'
  rw [findEdge, hrow]
  dsimp only
  rw [hdegree, hnum]

/-- What was charged: the costs of some distinct edges. -/
def charged (s : MGAlgorithm) (nums : List ℕ) : ℚ × List ℤ :=
  (costOf s nums, nums.map Int.ofNat)

/-- An edge is selected once. -/
def select (beSelectedEdges : List ℕ) (i : ℕ) : List ℕ :=
  if i ∈ beSelectedEdges then beSelectedEdges else beSelectedEdges ++ [i]

theorem mem_foldl_select : k ∈ nums.foldl select done ↔ k ∈ done ∨ k ∈ nums := by
  induction nums generalizing done with
  | nil => simp
  | cons i nums ih =>
    rw [List.foldl_cons, ih, select]
    split
    · rename_i hi
      rw [List.mem_cons]
      constructor
      · rintro (hk | hk)
        · exact .inl hk
        · exact .inr (.inr hk)
      · rintro (hk | rfl | hk)
        · exact .inl hk
        · exact .inl hi
        · exact .inr hk
    · rw [List.mem_append, List.mem_singleton, List.mem_cons, or_assoc]

theorem nodup_foldl_select (hdone : done.Nodup) : (nums.foldl select done).Nodup := by
  induction nums generalizing done with
  | nil => exact hdone
  | cons i nums ih =>
    rw [List.foldl_cons, select]
    split
    · exact ih hdone
    · rename_i hi
      refine ih ?_
      rw [← List.concat_eq_append]
      exact List.Nodup.concat hi hdone

theorem chargeBack_snoc {previousVertex : ℕ → Option ℕ} {n : ℕ} (htop : s.IsTopology)
    (hprev : previousVertex y = some x) (he : s.edges[i]? = some e) (hjoins : e.Joins x y)
    (hne : x ≠ y) : s.chargeBack previousVertex (n + 1) y (charged s done) =
      s.chargeBack previousVertex n x (charged s (select done i)) := by
  rw [charged, chargeBack, hprev]
  dsimp only
  rw [findEdge_ok htop he hjoins hne]
  have hmem : ((i : ℕ) : ℤ) ∈ done.map Int.ofNat ↔ i ∈ done := by simp
  change (if ((i : ℕ) : ℤ) ∈ done.map Int.ofNat then _ else _) = _
  rw [select]
  by_cases hi : i ∈ done
  · rw [if_pos (hmem.mpr hi), if_pos hi]
    rfl
  · rw [if_neg (mt hmem.mp hi), if_neg hi]
    have hitem : Py.item? s.edges ((i : ℕ) : ℤ) = some e := by simpa [Py.item?] using he
    simp only [hitem]
    rw [charged, costOf_append, List.map_append, edgeCost, he]
    rfl

/-- A way back is a way from the source, as long as the label says, and charging it charges its
edges. -/
structure Charges (s : MGAlgorithm) (genes : List Bool) (previousVertex : ℕ → Option ℕ) (j : ℕ)
    (path nums : List ℕ) : Prop where
  way : Way s genes s.souVertex j path nums
  chain : path.IsChain fun x y => previousVertex y = some x
  labeled : ∀ v ∈ path, v = s.souVertex ∨ previousVertex v ≠ none
  charge : ∀ n, path.length ≤ n → ∀ done : List ℕ, s.chargeBack previousVertex n j
    (charged s done) = .ok (charged s (nums.reverse.foldl select done))

theorem Charges.root {previousVertex : ℕ → Option ℕ} (h : previousVertex s.souVertex = none) :
    Charges s genes previousVertex s.souVertex [s.souVertex] [] := by
  refine ⟨.refl, .singleton _, by simp, fun n hn done => ?_⟩
  obtain ⟨n, rfl⟩ := Nat.exists_eq_succ_of_ne_zero (Nat.one_le_iff_ne_zero.mp hn)
  rw [charged, chargeBack, h]
  rfl

theorem Charges.snoc {previousVertex : ℕ → Option ℕ} (htop : s.IsTopology)
    (h : Charges s genes previousVertex x path nums) (hprev : previousVertex y = some x)
    (he : Usable s genes i e) (hjoins : e.Joins x y) (hne : x ≠ y) :
    Charges s genes previousVertex y (path ++ [y]) (nums ++ [i]) := by
  refine ⟨h.way.snoc he hjoins, ?_, fun v hv => ?_, fun n hn done => ?_⟩
  · refine List.isChain_append.mpr ⟨h.chain, .singleton _, fun a ha b hb => ?_⟩
    rw [h.way.getLast] at ha
    obtain rfl := Option.some.inj ha
    obtain rfl := Option.some.inj hb
    exact hprev
  · rcases List.mem_append.mp hv with hv | hv
    · exact h.labeled v hv
    · obtain rfl := List.mem_singleton.mp hv
      exact .inr (by simp [hprev])
  · rw [List.length_append, List.length_singleton] at hn
    obtain ⟨n, rfl⟩ := Nat.exists_eq_succ_of_ne_zero (show n ≠ 0 by omega)
    rw [chargeBack_snoc htop hprev he.1.2 hjoins hne, h.charge n (by omega), List.reverse_append,
      List.reverse_singleton, List.singleton_append, List.foldl_cons]

section search
variable (htop : s.IsTopology) (ht : Holds s genes (List.range s.edges.length) t)
  (hl : Explored (s.network t) (s.arcs t) s.souVertex endlessFloat order l)
include htop ht hl

theorem charges_of_traced (hp : Traced l.previousVertex j path)
    (hj : j = s.souVertex ∨ l.previousVertex j ≠ none) :
    ∃ nums, Charges s genes l.previousVertex j path nums ∧
      costOf s nums = l.pathsLength j := by
  induction hp with
  | root hprev =>
    obtain rfl := hj.resolve_right fun hne => hne hprev
    exact ⟨[], .root hprev, hl.source.2.2.symm⟩
  | @step j x p hprev htraced ih =>
    obtain ⟨hlt, ⟨newer, older, hsplit, hfresh⟩, w, harc, heq⟩ := hl.labeled j x hprev
    have hx : x = s.souVertex ∨ l.previousVertex x ≠ none := by
      by_contra hx
      rw [not_or, not_not] at hx
      rw [heq, hl.unlabeled x hx.2 hx.1] at hlt
      exact absurd hlt (not_lt.mpr
        ((lengthens_network htop).le x _ harc _ (.inr (.inl rfl))))
    obtain ⟨nums, hcharges, hcost⟩ := ih hx
    have hw : w < endlessFloat := by
      have hnonneg := costOf_nonneg htop nums
      rw [hcost] at hnonneg
      by_contra hw
      have hle : endlessFloat ≤ Rounding.double.add (l.pathsLength x) w := by
        rw [← round_endlessFloat]
        exact Rounding.double.mono ((not_lt.mp hw).trans (le_add_of_nonneg_left hnonneg))
      rw [heq] at hlt
      exact absurd hlt (not_lt.mpr hle)
    obtain ⟨i, e, he, hjoins, rfl⟩ := usable_of_mem_arcs ht harc hw
    refine ⟨nums ++ [i], hcharges.snoc htop hprev he hjoins ?_, ?_⟩
    · rintro rfl
      exact hfresh (List.mem_cons_self ..)
    · rw [costOf_append, hcost, heq]
      rfl

variable (hs : Sorted (s.network t) order l)
  (hall : ∀ v < s.vertexes.length, (t.tempVertexes v).isSome = true → v ∈ order)
include hs hall

theorem le_costOf (hway : Way s genes s.souVertex x path nums) :
    x ∈ order ∧ l.pathsLength x ≤ costOf s nums :=
  hl.le_route hs (lengthens_network htop) (reads_network htop ht) hall (hway.route ht)

/-- Every vertex that can be reached has a previous vertex. -/
theorem labeled_of_reachable (h : Relation.ReflTransGen (UsableAdj s genes) s.souVertex y) :
    y = s.souVertex ∨ l.previousVertex y ≠ none := by
  induction h with
  | refl => exact .inl rfl
  | @tail x y _ hadj ih =>
    obtain ⟨i, e, he, hjoins⟩ := hadj
    obtain ⟨path, hpath, hnodup, -⟩ := hl.traced x
    obtain ⟨nums, hcharges, hcost⟩ := charges_of_traced htop ht hl hpath ih
    by_contra hy
    rw [not_or, not_not] at hy
    have hnew : y ∉ path := fun hmem => by
      rcases hcharges.labeled y hmem with hsrc | hne
      · exact hy.1 hsrc
      · exact hne hy.2
    have hway := hcharges.way.snoc he hjoins
    have hlt : costOf s (nums ++ [i]) < endlessFloat := by
      have hpath := List.Nodup.concat hnew hnodup
      rw [List.concat_eq_append] at hpath
      exact htop.total _ (hway.nodup hpath) hway.lt
    have hle := hl.feasible hs (lengthens_network htop) (reads_network htop ht) hall
      (le_costOf htop ht hl hs hall hcharges.way).1 (mem_arcs_of_usable ht he hjoins)
    rw [hl.unlabeled y hy.2 hy.1, ← hcost] at hle
    rw [costOf_append] at hlt
    exact absurd hlt (not_lt.mpr hle)

end search

end SDRoute.MGAlgorithm
