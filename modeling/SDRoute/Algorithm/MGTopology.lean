import SDRoute.Algorithm.MGTables
import SDRoute.Algorithm.MulticastTree
import SDRoute.Algorithm.PopulationSize

/-! The tables that are filled from switches and links that agree are a topology. -/
namespace SDRoute

/-- The neighbors of the switches are the pairs of the link table, and no pair is listed both ways
round. -/
structure Joined (switches : SwitchTable) (links : LinkTableApi) : Prop where
  lists : ∀ a b, switches.Lists a b ↔ (a, b) ∈ links ∨ (b, a) ∈ links
  once : ∀ a b, (a, b) ∈ links → (b, a) ∈ links → a = b

namespace Joined
variable {switches : SwitchTable} {links : LinkTableApi} {a b : ℕ}

theorem symm (h : Joined switches links) (hab : switches.Lists a b) : switches.Lists b a :=
  (h.lists b a).mpr ((h.lists a b).mp hab).symm

theorem consistent (h : Joined switches links) : Consistent switches links where
  symm _ _ hab := h.symm hab
  linked a b hab := (h.lists a b).mp hab
  once := h.once

theorem mem_of_lists (hab : switches.Lists a b) : a ∈ switches.keys := by
  obtain ⟨sw, hsw, -⟩ := hab
  exact AList.mem_keys.mp (Dict.mem_iff_get?.mpr ⟨sw, hsw⟩)

theorem known (h : Joined switches links) :
    ∀ key ∈ links.keys, key.1 ∈ switches.keys ∧ key.2 ∈ switches.keys := by
  intro key hkey
  have hlists := (h.lists key.1 key.2).mpr (.inl (AList.mem_keys.mpr hkey))
  exact ⟨mem_of_lists hlists, mem_of_lists (h.symm hlists)⟩

theorem neighbors_known (h : Joined switches links) :
    ∀ item ∈ switches.items, ∀ d ∈ item.2.neighbors.keys, d ∈ switches := by
  intro item hitem d hd
  have hlists : switches.Lists item.1 d :=
    ⟨item.2, Dict.mem_items.mp hitem, AList.mem_keys.mpr hd⟩
  exact AList.mem_keys.mpr (mem_of_lists (h.symm hlists))

end Joined

namespace MGTables
open Py Algorithm

variable {status : LinkStatus} {switches : SwitchTable} {links : LinkTableApi} {s t : MGTables}
  {edges : List Edge} {item : ℕ × Switch} {i u v : ℕ}

/-- The edges that a row lists for a neighbor are those that join the two. -/
theorem mem_joining_iff : i ∈ joining (edges.map Edge.toRow).zipIdx v u ↔
    ∃ e, edges[i]? = some e ∧ e.Joins v u := by
  rw [mem_joining]
  simp only [EdgeRow.ends, Edge.toRow, List.map_map, List.getElem?_map, Option.map_eq_some_iff,
    Function.comp_apply, Prod.mk.injEq, Edge.Joins]
  constructor
  · rintro (⟨e, he, hpair⟩ | ⟨e, he, hpair⟩)
    · exact ⟨e, he, .inl hpair⟩
    · exact ⟨e, he, .inr hpair⟩
  · rintro ⟨e, he, hpair | hpair⟩
    · exact .inl ⟨e, he, hpair⟩
    · exact .inr ⟨e, he, hpair⟩

/-- An edge with given ends stands at the place of its pair. -/
theorem pair_of_joins (hjoined : Joined switches links) (hends : Ends switches links edges)
    {e : Edge} (he : edges[i]? = some e) {a b : ℕ} (ha : a ∈ switches.keys)
    (hb : b ∈ switches.keys) (hj : e.Joins (num switches.keys a) (num switches.keys b)) :
    links.keys[i]? = some (a, b) ∨ links.keys[i]? = some (b, a) := by
  have hpair := congrArg (fun pairs : List (ℕ × ℕ) => pairs[i]?) hends
  simp only [List.getElem?_map, he, Option.map_some, EdgeRow.ends, Edge.toRow] at hpair
  rw [← List.getElem?_map] at hpair
  rcases hj with ⟨h0, h1⟩ | ⟨h0, h1⟩
  · exact .inl (getElem?_pairNums hjoined.known ha hb (by rw [← hpair, h0, h1]))
  · exact .inr (getElem?_pairNums hjoined.known hb ha (by rw [← hpair, h0, h1]))

/-- The ends of an edge are the numbers of a pair. -/
theorem exists_pair (hends : Ends switches links edges) {e : Edge} (he : edges[i]? = some e) :
    ∃ key, links.keys[i]? = some key ∧ e.vertexId0 = num switches.keys key.1 ∧
      e.vertexId1 = num switches.keys key.2 := by
  have hpair := congrArg (fun pairs : List (ℕ × ℕ) => pairs[i]?) hends
  simp only [List.getElem?_map, he, Option.map_some, EdgeRow.ends, Edge.toRow] at hpair
  obtain ⟨key, hkey, hnums⟩ := Option.map_eq_some_iff.mp hpair.symm
  obtain ⟨h0, h1⟩ := Prod.mk.inj hnums
  exact ⟨key, hkey, h0.symm, h1.symm⟩

/-- The row of a switch, as the evaluation reads it. -/
def rowOf (switches : SwitchTable) (edges : List Edge) (item : ℕ × Switch) : SDRoute.Vertex where
  degree := item.2.neighbors.keys.length
  neighbors := item.2.neighbors.keys.map (num switches.keys)
  edges := (item.2.neighbors.keys.map (num switches.keys)).flatMap
    (joining (edges.map Edge.toRow).zipIdx (num switches.keys item.1))

/-- Each neighbor has one edge in the row. -/
theorem rowOf_edges (hjoined : Joined switches links) (hends : Ends switches links edges)
    (hitem : item ∈ switches.items) : ∃ f : ℕ → ℕ,
      (rowOf switches edges item).edges = (rowOf switches edges item).neighbors.map f ∧
      ∀ u ∈ (rowOf switches edges item).neighbors, ∀ i, i = f u ↔
        ∃ e, edges[i]? = some e ∧ e.Joins (num switches.keys item.1) u := by
  have hone : ∀ u ∈ (rowOf switches edges item).neighbors, ∃ k,
      joining (edges.map Edge.toRow).zipIdx (num switches.keys item.1) u = [k] := by
    intro u hu
    obtain ⟨b, hb, rfl⟩ := List.mem_map.mp hu
    have hlists : switches.Lists item.1 b :=
      ⟨item.2, Dict.mem_items.mp hitem, AList.mem_keys.mpr hb⟩
    exact joining_eq hjoined.consistent hends hjoined.known hlists (Joined.mem_of_lists hlists)
      (Joined.mem_of_lists (hjoined.symm hlists))
  choose! f hf using hone
  refine ⟨f, ?_, fun u hu i => ?_⟩
  · rw [List.map_eq_flatMap]
    exact List.flatMap_congr hf
  · rw [← mem_joining_iff, hf u hu, List.mem_singleton]

/-- The neighbors in the row are the other ends of the edges at the switch. -/
theorem mem_rowOf_neighbors (hjoined : Joined switches links) (hends : Ends switches links edges)
    (hitem : item ∈ switches.items) {e : Edge} (he : edges[i]? = some e)
    (hj : e.Joins (num switches.keys item.1) u) : u ∈ (rowOf switches edges item).neighbors := by
  obtain ⟨key, hkey, h0, h1⟩ := exists_pair hends he
  have hmem := List.mem_of_getElem? hkey
  obtain ⟨hknown1, hknown2⟩ := hjoined.known key hmem
  have hself := Dict.mem_keys_of_mem_items hitem
  have hneighbor : ∀ b, switches.Lists item.1 b → num switches.keys b = u →
      u ∈ (rowOf switches edges item).neighbors := by
    rintro b ⟨sw, hsw, hb⟩ rfl
    obtain rfl := Option.some.inj (hsw.symm.trans (Dict.mem_items.mp hitem))
    exact List.mem_map_of_mem (AList.mem_keys.mp hb)
  have hlists := (hjoined.lists key.1 key.2).mpr (.inl (AList.mem_keys.mpr hmem))
  rcases hj with ⟨hv, hu⟩ | ⟨hu, hv⟩
  · have hkey1 : key.1 = item.1 := num_inj hknown1 hself (h0.symm.trans hv)
    exact hneighbor key.2 (hkey1 ▸ hlists) (h1.symm.trans hu)
  · have hkey2 : key.2 = item.1 := num_inj hknown2 hself (h1.symm.trans hv)
    exact hneighbor key.1 (hkey2 ▸ hjoined.symm hlists) (h0.symm.trans hu)

theorem load_vertexes (hrows : t.vertexes =
      (switches.items.mapIdx fun i item => neighborRow switches.keys item i).map
        (connectedRow edges)) (o : MGInstance) :
    (t.load o).vertexes = switches.items.map (rowOf switches edges) := by
  refine List.ext_getElem? fun i => ?_
  simp only [load, hrows, List.getElem?_map, List.getElem?_mapIdx]
  rcases hitem : switches.items[i]? with _ | item
  · rfl
  · simp [neighborRow, connectedRow, rowOf, num_item hitem]

/-- Which edges join two vertices is known from the pairs. -/
theorem joins_iff {edges' : List Edge} (hends : Ends switches links edges)
    (hends' : Ends switches links edges') :
    (∃ e, edges[i]? = some e ∧ e.Joins v u) ↔ ∃ e, edges'[i]? = some e ∧ e.Joins v u := by
  rw [← mem_joining_iff, ← mem_joining_iff, mem_joining, mem_joining, hends, hends']

theorem getElem?_load_edges {o : MGInstance} :
    (∃ e, (t.load o).edges[i]? = some e ∧ MGAlgorithm.Edge.Joins e v u) ↔
      ∃ e, t.edges[i]? = some e ∧ e.Joins v u := by
  simp only [load, List.getElem?_map, Option.map_eq_some_iff]
  constructor
  · rintro ⟨_, ⟨e, he, rfl⟩, hjoins⟩
    exact ⟨e, he, hjoins⟩
  · rintro ⟨e, he, hjoins⟩
    exact ⟨_, ⟨e, he, rfl⟩, hjoins⟩

/-- At most one edge joins two distinct vertices. -/
theorem edge_once (hjoined : Joined switches links) (hends : Ends switches links edges)
    {k a b : ℕ} {e f : Edge} (he : edges[i]? = some e) (hf : edges[k]? = some f) (hab : a ≠ b)
    (hje : e.Joins a b) (hjf : f.Joins a b) : i = k := by
  obtain ⟨key, hkey, h0, h1⟩ := exists_pair hends he
  obtain ⟨hknown1, hknown2⟩ := hjoined.known key (List.mem_of_getElem? hkey)
  have hne : key.1 ≠ key.2 := by
    intro heq
    rw [heq] at h0
    rcases hje with ⟨ha, hb⟩ | ⟨hb, ha⟩
    · exact hab (ha.symm.trans (h0.trans (h1.symm.trans hb)))
    · exact hab (ha.symm.trans (h1.trans (h0.symm.trans hb)))
  have hjoins : f.Joins (num switches.keys key.1) (num switches.keys key.2) := by
    rcases hje with ⟨rfl, rfl⟩ | ⟨rfl, rfl⟩
    · rw [← h0, ← h1]
      exact hjf
    · rw [← h0, ← h1]
      exact hjf.symm
  rcases pair_of_joins hjoined hends hf hknown1 hknown2 hjoins with hsame | hswapped
  · exact Py.place_eq links.keys_nodup hkey hsame
  · have hin := AList.mem_keys.mpr (List.mem_of_getElem? hkey)
    have hin' := AList.mem_keys.mpr (List.mem_of_getElem? hswapped)
    exact absurd (hjoined.once _ _ hin hin') hne

theorem mem_zip_map {f : ℕ → ℕ} {xs : List ℕ} :
    (u, i) ∈ xs.zip (xs.map f) ↔ u ∈ xs ∧ i = f u := by
  have hzip : xs.zip (xs.map f) = xs.map fun x => (x, f x) := by
    simpa using List.zip_map' (f := id) (g := f) (l := xs)
  rw [hzip, List.mem_map]
  constructor
  · rintro ⟨x, hx, heq⟩
    obtain ⟨rfl, rfl⟩ := Prod.mk.inj heq
    exact ⟨hx, rfl⟩
  · rintro ⟨hu, rfl⟩
    exact ⟨u, hu, rfl⟩

/-- No edge has a negative cost, and the costs of distinct edges, in whatever order they are added
up, stay below the fitness of no tree. -/
structure Costs (edges : List Edge) : Prop where
  nonneg : ∀ e ∈ edges, 0 ≤ e.cost
  total : ∀ nums : List ℕ, nums.Nodup → (∀ i ∈ nums, i < edges.length) →
    Rounding.double.sum (nums.map fun i => ((edges[i]?).map Edge.cost).getD 0) < endlessFloat

/-- The tables are a topology, when their costs are those of one. -/
theorem Filled.isTopology (h : Filled switches links t) (hjoined : Joined switches links)
    (hcosts : Costs t.edges) (o : MGInstance) : (t.load o).IsTopology := by
  obtain ⟨edges, hends, hrows⟩ := h.rows
  have hvertexes := load_vertexes hrows o
  have hrowOf : ∀ v row, (t.load o).vertexes[v]? = some row →
      ∃ item ∈ switches.items, v = num switches.keys item.1 ∧ row = rowOf switches edges item := by
    intro v row hrow
    rw [hvertexes, List.getElem?_map, Option.map_eq_some_iff] at hrow
    obtain ⟨item, hitem, rfl⟩ := hrow
    exact ⟨item, List.mem_of_getElem? hitem, (num_item hitem).symm, rfl⟩
  have hsize : (t.load o).vertexes.length = switches.keys.length := by
    rw [hvertexes, List.length_map, Dict.keys_eq_map_items, List.length_map]
  constructor
  · intro e he
    obtain ⟨e', he', rfl⟩ := List.mem_map.mp he
    obtain ⟨i, hi⟩ := List.getElem?_of_mem he'
    obtain ⟨key, hkey, h0, h1⟩ := exists_pair h.ends hi
    obtain ⟨hknown1, hknown2⟩ := hjoined.known key (List.mem_of_getElem? hkey)
    rw [hsize]
    exact ⟨h0 ▸ num_lt hknown1, h1 ▸ num_lt hknown2⟩
  · intro i k e f a b he hf hab hje hjf
    simp only [load, List.getElem?_map, Option.map_eq_some_iff] at he hf
    obtain ⟨e, he, rfl⟩ := he
    obtain ⟨f, hf, rfl⟩ := hf
    exact edge_once hjoined h.ends he hf hab hje hjf
  · intro row hrow
    obtain ⟨v, hv⟩ := List.getElem?_of_mem hrow
    obtain ⟨item, hitem, -, rfl⟩ := hrowOf v row hv
    obtain ⟨f, hedges, -⟩ := rowOf_edges hjoined hends hitem
    refine ⟨by simp [rowOf], ?_⟩
    rw [hedges, List.length_map]
  · intro v row hrow u i
    obtain ⟨item, hitem, rfl, rfl⟩ := hrowOf v row hrow
    obtain ⟨f, hedges, hf⟩ := rowOf_edges hjoined hends hitem
    rw [getElem?_load_edges, joins_iff h.ends hends, hedges, mem_zip_map]
    constructor
    · rintro ⟨hu, hi⟩
      exact (hf u hu i).mp hi
    · rintro ⟨e, he, hj⟩
      have hu := mem_rowOf_neighbors hjoined hends hitem he hj
      exact ⟨hu, (hf u hu i).mpr ⟨e, he, hj⟩⟩
  · intro e he
    obtain ⟨e', he', rfl⟩ := List.mem_map.mp he
    exact hcosts.nonneg e' he'
  · intro nums hnodup hlt
    have hcost : MGAlgorithm.edgeCost (t.load o).toMGAlgorithm =
        fun i => ((t.edges[i]?).map Edge.cost).getD 0 := by
      funext i
      simp only [MGAlgorithm.edgeCost, load, List.getElem?_map, Option.map_map]
      rfl
    rw [MGAlgorithm.costOf, hcost]
    exact hcosts.total nums hnodup fun i hi => by simpa [load] using hlt i hi

/-- Where no link leads back to its switch, no edge leads back to its vertex. -/
theorem Filled.ends_ne (h : Filled switches links t) (hjoined : Joined switches links)
    (hends : ∀ key ∈ links.keys, key.1 ≠ key.2) (o : MGInstance) {e : MGAlgorithm.Edge} {a b : ℕ}
    (he : (t.load o).edges[i]? = some e) (hjoins : e.Joins a b) : a ≠ b := by
  simp only [load, List.getElem?_map, Option.map_eq_some_iff] at he
  obtain ⟨e, he, rfl⟩ := he
  obtain ⟨key, hkey, h0, h1⟩ := exists_pair h.ends he
  have hmem := List.mem_of_getElem? hkey
  obtain ⟨hknown1, hknown2⟩ := hjoined.known key hmem
  have hne : e.vertexId0 ≠ e.vertexId1 := by
    rw [h0, h1]
    exact fun heq => hends key hmem (num_inj hknown1 hknown2 heq)
  rcases hjoins with ⟨rfl, rfl⟩ | ⟨rfl, rfl⟩
  · exact hne
  · exact hne.symm

/-! The costs. -/

/-- The configured cost of a pair is that of its first link. -/
def firstCost (status : LinkStatus) (links : LinkTableApi) (key : ℕ × ℕ) : ℚ :=
  ((((links.get? key).bind fun d => d.values.head?).map status).bind Link.cost).getD 0

/-- The cost of its edge. -/
def edgeCost (status : LinkStatus) (links : LinkTableApi) (key : ℕ × ℕ) : ℚ :=
  Rounding.double.div (firstCost status links key) costIndex

/-- Costs that are configured such that the edges have costs of that kind. -/
structure Affordable (status : LinkStatus) (links : LinkTableApi) : Prop where
  nonneg : ∀ key ∈ links.keys, 0 ≤ firstCost status links key
  total : ∀ keys : List (ℕ × ℕ), keys.Nodup → keys ⊆ links.keys →
    Rounding.double.sum (keys.map (edgeCost status links)) < endlessFloat

/-- Few links with a bound on the costs of their edges. -/
theorem affordable_of_le (bound : ℕ) (hnonneg : ∀ key ∈ links.keys, 0 ≤ firstCost status links key)
    (hle : ∀ key ∈ links.keys, edgeCost status links key ≤ bound)
    (hbound : links.keys.length * bound ≤ 10 ^ 10) : Affordable status links := by
  refine ⟨hnonneg, fun keys hnodup hsub =>
    MGAlgorithm.sum_lt_endlessFloat bound (fun c hc => ?_) ?_⟩
  · obtain ⟨key, hkey, rfl⟩ := List.mem_map.mp hc
    exact hle key (hsub hkey)
  · rw [List.length_map]
    exact (Nat.mul_le_mul_right _ (hnodup.subperm hsub).length_le).trans hbound

theorem costIndex_pos : 0 < costIndex := by norm_num [costIndex]

/-- The edges of a snapshot cost what its links cost. -/
theorem cost_edgesAfter (status : LinkStatus) (availableWidth : ℚ)
    (hkeys : links.keys.Perm s.edgeQueue) :
    (edgesAfter status links availableWidth s links.keys).map Edge.cost =
      s.edgeQueue.map (edgeCost status links) := by
  refine List.ext_getElem (by simp [edgesAfter]) fun i hi hi' => ?_
  rw [List.length_map] at hi'
  have hin := hkeys.mem_iff.mpr (List.getElem_mem hi')
  simp only [edgesAfter, List.getElem_map, List.getElem_mapIdx, List.contains_iff_mem, if_pos hin]
  rfl

theorem Affordable.edgesAfter (availableWidth : ℚ) (h : Affordable status links)
    (hkeys : links.keys.Perm s.edgeQueue) :
    Costs (edgesAfter status links availableWidth s links.keys) := by
  have hcosts := cost_edgesAfter status availableWidth hkeys
  constructor
  · intro e he
    have hmem : e.cost ∈ s.edgeQueue.map (edgeCost status links) := hcosts ▸ List.mem_map_of_mem he
    obtain ⟨key, hkey, hcost⟩ := List.mem_map.mp hmem
    rw [← hcost]
    exact Rounding.nonneg_div (h.nonneg key (hkeys.mem_iff.mpr hkey)) costIndex_pos.le
  · intro nums hnodup hlt
    have hsize : (MGTables.edgesAfter status links availableWidth s links.keys).length =
        s.edgeQueue.length := by simp [MGTables.edgesAfter]
    rw [hsize] at hlt
    have hkey : ∀ i ∈ nums, s.edgeQueue[i]? = some (s.edgeQueue.getD i (0, 0)) := by
      intro i hi
      rw [List.getD_eq_getElem?_getD, List.getElem?_eq_getElem (hlt i hi), Option.getD_some]
    -- The costs of the edges are those of the pairs at their places.
    have hcost : (nums.map fun i => (((MGTables.edgesAfter status links availableWidth s
        links.keys)[i]?).map Edge.cost).getD 0) =
        (nums.map fun i => s.edgeQueue.getD i (0, 0)).map (edgeCost status links) := by
      rw [List.map_map]
      refine List.map_congr_left fun i hi => ?_
      rw [← List.getElem?_map, hcosts, List.getElem?_map, hkey i hi]
      rfl
    rw [hcost]
    refine h.total _ (hnodup.map_on fun i hi k hk heq => ?_) fun key hin => ?_
    · exact place_eq (hkeys.nodup_iff.mp links.keys_nodup) (hkey i hi) (heq ▸ hkey k hk)
    · obtain ⟨i, hi, rfl⟩ := List.mem_map.mp hin
      exact hkeys.mem_iff.mpr (List.mem_of_getElem? (hkey i hi))

/-- A snapshot that the monitor fills: the pairs of the initialization, measured. -/
structure Monitored (queue : List ℕ) (initial : LinkTableApi)
    (call : LinkStatus × LinkTableApi) : Prop where
  keys : call.2.keys.Perm initial.keys
  measured : ∀ item ∈ call.2.items, Measured call.1 queue item
  affordable : Affordable call.1 call.2

/-- The object fills its tables once, and updates the edges before every request. -/
def maintain (status : LinkStatus) (switches : SwitchTable) (links : LinkTableApi)
    (calls : List (LinkStatus × LinkTableApi)) : Py MGTables Unit := do
  fillVertexesAndEdges status switches links
  calls.forM fun call => updateLinkStatus call.1 call.2

/-- After the initialization and any number of updates, the object holds a topology. -/
theorem isTopology_of_maintain (status : LinkStatus) (hjoined : Joined switches links)
    (hreadable : ∀ item ∈ links.items, Readable status switches.keys item)
    (haffordable : Affordable status links) (hends : ∀ key ∈ links.keys, key.1 ≠ key.2)
    (calls : List (LinkStatus × LinkTableApi))
    (hcalls : ∀ call ∈ calls, Monitored switches.keys links call) (o : MGInstance) :
    ∃ t, (maintain status switches links calls).exec {} = (.ok (), t) ∧
      t.switchQueue = switches.keys ∧ (t.load o).IsTopology ∧
      ∀ i e a b, (t.load o).edges[i]? = some e → e.Joins a b →
        a ≠ b ∧ (t.load o).findEdge a b = .ok (i : ℕ) := by
  obtain ⟨⟨⟩, t, hfill, hfilled, hedges⟩ :=
    (filled_fillVertexesAndEdges hjoined.neighbors_known hreadable).returns rfl
  have hcosts : Costs t.edges := by
    rw [hedges]
    exact haffordable.edgesAfter 0 (by rw [hfilled.edgeQueue])
  rw [maintain, exec_bind_of_ok hfill]
  have hround : ∀ call ∈ calls, ∀ s, Filled switches links s ∧ Costs s.edges →
      ∃ t, (updateLinkStatus call.1 call.2).exec s = (.ok (), t) ∧
        Filled switches links t ∧ Costs t.edges := by
    rintro call hcall s ⟨hs, -⟩
    obtain ⟨hkeys, hmeasured, hcall⟩ := hcalls call hcall
    obtain ⟨hexec, hnext⟩ := exec_updateLinkStatus hs hkeys hmeasured
    exact ⟨_, hexec, hnext, hcall.edgesAfter endlessFloat (by rw [hs.edgeQueue]; exact hkeys)⟩
  obtain ⟨u, hexec, hu, hcosts⟩ := exec_forM_of_ok hround ⟨hfilled, hcosts⟩
  have htop := hu.isTopology hjoined hcosts o
  refine ⟨u, hexec, hu.queue, htop, fun i e a b he hj => ?_⟩
  have hne := hu.ends_ne hjoined hends o he hj
  exact ⟨hne, MGAlgorithm.findEdge_ok htop he hj.symm hne.symm⟩

theorem joined_triangle : Joined GATables.triangle GATables.triangleLinks where
  lists a b := by
    have hkeys : ∀ key ∈ GATables.triangleLinks.keys, GATables.triangle.Lists key.1 key.2 ∧
        GATables.triangle.Lists key.2 key.1 := by decide +kernel
    refine ⟨GATables.consistent_triangle.linked a b, ?_⟩
    rintro (hab | hba)
    · exact (hkeys (a, b) (AList.mem_keys.mp hab)).1
    · exact (hkeys (b, a) (AList.mem_keys.mp hba)).2
  once := GATables.consistent_triangle.once

theorem affordable_triangle : Affordable id GATables.triangleLinks :=
  affordable_of_le 1 (by decide +kernel) (by decide +kernel) (by decide +kernel)

theorem isTopology_of_maintain_triangle : ∃ t,
    (maintain id GATables.triangle GATables.triangleLinks
      [(id, GATables.triangleLinks)]).exec {} = (.ok (), t) ∧
    t.switchQueue = [1, 2, 3] ∧ (t.load MGInstance.initial).IsTopology ∧
    ∀ i e a b, (t.load MGInstance.initial).edges[i]? = some e → e.Joins a b →
      a ≠ b ∧ (t.load MGInstance.initial).findEdge a b = .ok (i : ℕ) := by
  refine isTopology_of_maintain id joined_triangle ?_ affordable_triangle (by decide) _ ?_ _
  · exact fun item hitem => (GATables.measured_triangleLinks item hitem).toReadable
  · intro call hcall
    obtain rfl := List.mem_singleton.mp hcall
    exact ⟨.refl _, GATables.measured_triangleLinks, affordable_triangle⟩

end MGTables
end SDRoute
