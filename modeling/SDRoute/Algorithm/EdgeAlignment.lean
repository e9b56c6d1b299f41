import SDRoute.Lib.Machine
import SDRoute.Algorithm.TableInit

/-! The numbers in the rows of the vertices against the edges. The initialization writes both,
an update of the link status only the edges. -/
namespace SDRoute

/-- Neighbors are mutual, and one pair of the link table joins them. -/
structure Consistent (switches : SwitchTable) (links : LinkTableApi) : Prop where
  symm : ∀ a b, switches.Lists a b → switches.Lists b a
  linked : ∀ a b, switches.Lists a b → (a, b) ∈ links ∨ (b, a) ∈ links
  once : ∀ a b, (a, b) ∈ links → (b, a) ∈ links → a = b

theorem Vertex.edgeTo_eq {row : Vertex} {f : ℕ → ℕ} {v : ℕ}
    (hedges : row.edges = row.neighbors.map f) (hv : v ∈ row.neighbors) :
    row.edgeTo v (List.range row.neighbors.length) = .ok (f v : ℕ) := by
  obtain ⟨num, hnum, hmem⟩ := Vertex.edgeTo_ok (by rw [hedges, List.length_map]) hv
  rw [hedges, List.zip_map_right, List.mem_map] at hmem
  obtain ⟨⟨u, u'⟩, hu, heq⟩ := hmem
  obtain ⟨rfl, rfl⟩ := Prod.mk.inj heq
  obtain ⟨i, hi, hpair⟩ := List.mem_iff_getElem.mp hu
  rw [List.getElem_zip] at hpair
  obtain ⟨rfl, rfl⟩ := Prod.mk.inj hpair
  exact hnum

namespace Algorithm
variable {switches : SwitchTable} {links : LinkTableApi} {t : Algorithm} {a b u v k : ℕ}
  {edges : List EdgeRow} {keys : List (ℕ × ℕ)} {queue : List ℕ}

theorem mem_joining : k ∈ joining edges.zipIdx u v ↔
    (edges.map EdgeRow.ends)[k]? = some (u, v) ∨ (edges.map EdgeRow.ends)[k]? = some (v, u) := by
  simp only [joining, List.mem_map, List.mem_filter, decide_eq_true_eq, Prod.exists,
    List.mk_mem_zipIdx_iff_getElem?, exists_eq_right, List.getElem?_map, Option.map_eq_some_iff]
  simp only [EdgeRow.Joins, EdgeRow.ends, Prod.mk.injEq]
  constructor
  · rintro ⟨e, he, hj | hj⟩
    · exact .inl ⟨e, he, hj⟩
    · exact .inr ⟨e, he, hj⟩
  · rintro (⟨e, he, hj⟩ | ⟨e, he, hj⟩)
    · exact ⟨e, he, .inl hj⟩
    · exact ⟨e, he, .inr hj⟩

theorem nodup_joining : (joining edges.zipIdx u v).Nodup := by
  have hsub : (joining edges.zipIdx u v).Sublist (edges.zipIdx.map Prod.snd) :=
    List.filter_sublist.map _
  refine hsub.nodup ?_
  rw [List.zipIdx_map_snd]
  exact List.nodup_range' ..

/-- Where numbers stand for a pair of known switches, the pair itself stands. -/
theorem getElem?_pairNums (hkeys : ∀ key ∈ keys, key.1 ∈ queue ∧ key.2 ∈ queue) (ha : a ∈ queue)
    (hb : b ∈ queue) (h : (keys.map (pairNums queue))[k]? = some (num queue a, num queue b)) :
    keys[k]? = some (a, b) := by
  rw [List.getElem?_map, Option.map_eq_some_iff] at h
  obtain ⟨⟨x, y⟩, hkey, hnums⟩ := h
  obtain ⟨hx, hy⟩ := hkeys _ (List.mem_of_getElem? hkey)
  obtain ⟨hnum1, hnum2⟩ := Prod.mk.inj hnums
  obtain rfl := num_inj hx ha hnum1
  obtain rfl := num_inj hy hb hnum2
  exact hkey

/-- Exactly one edge joins two neighbors. -/
theorem joining_eq (hcons : Consistent switches links)
    (hends : edges.map EdgeRow.ends = links.keys.map (pairNums queue))
    (hknown : ∀ key ∈ links.keys, key.1 ∈ queue ∧ key.2 ∈ queue) (h : switches.Lists a b)
    (ha : a ∈ queue) (hb : b ∈ queue) :
    ∃ k, joining edges.zipIdx (num queue a) (num queue b) = [k] := by
  have hmem : ∀ k, k ∈ joining edges.zipIdx (num queue a) (num queue b) →
      links.keys[k]? = some (a, b) ∨ links.keys[k]? = some (b, a) := by
    intro k hk
    rw [mem_joining, hends] at hk
    rcases hk with hk | hk
    · exact .inl (getElem?_pairNums hknown ha hb hk)
    · exact .inr (getElem?_pairNums hknown hb ha hk)
  have hsame : ∀ {i j : ℕ} {key : ℕ × ℕ}, links.keys[i]? = some key →
      links.keys[j]? = some key → i = j := Py.place_eq links.keys_nodup
  have hunique : ∀ i ∈ joining edges.zipIdx (num queue a) (num queue b),
      ∀ j ∈ joining edges.zipIdx (num queue a) (num queue b), i = j := by
    intro i hi j hj
    rcases hmem i hi with hi | hi <;> rcases hmem j hj with hj | hj
    · exact hsame hi hj
    · obtain rfl := hcons.once a b (List.mem_of_getElem? hi) (List.mem_of_getElem? hj)
      exact hsame hi hj
    · obtain rfl := hcons.once a b (List.mem_of_getElem? hj) (List.mem_of_getElem? hi)
      exact hsame hi hj
    · exact hsame hi hj
  obtain ⟨k, hk⟩ : ∃ k, k ∈ joining edges.zipIdx (num queue a) (num queue b) := by
    simp only [mem_joining, hends]
    rcases hcons.linked a b h with hlink | hlink <;>
      obtain ⟨k, hk⟩ := List.getElem?_of_mem (AList.mem_keys.mp hlink)
    · exact ⟨k, .inl (by rw [List.getElem?_map, hk]; rfl)⟩
    · exact ⟨k, .inr (by rw [List.getElem?_map, hk]; rfl)⟩
  refine ⟨k, List.perm_singleton.mp ((List.perm_ext_iff_of_nodup nodup_joining (by simp)).mpr ?_)⟩
  intro i
  rw [List.mem_singleton]
  refine ⟨fun hi => hunique i hi k hk, ?_⟩
  rintro rfl
  exact hk

/-- The number that is read for each two neighbors is the place of their pair. -/
def Located (vertexs : Vertexs) (pairs : List (ℕ × ℕ)) : Prop :=
  ∀ u v, vertexs.Adj u v → ∃ k : ℕ, findEdge u v vertexs = .ok k ∧
    (pairs[k]? = some (u, v) ∨ pairs[k]? = some (v, u))

theorem num_item {i : ℕ} {item : ℕ × Switch} (h : switches.items[i]? = some item) :
    num switches.keys item.1 = i := by
  have hnums := congrArg (fun nums : List ℕ => nums[i]?) (num_keys switches)
  have hi := (List.getElem?_eq_some_iff.mp h).1
  simp only [List.getElem?_map, h, List.getElem?_range hi, Option.map_some] at hnums
  exact Option.some.inj hnums

/-- The rows are those of the switches. -/
theorem Filled.getElem?_vertexs (h : Filled switches links t) {row : Vertex} :
    t.vertexs[u]? = some row ↔ ∃ item ∈ switches.items, u = num switches.keys item.1 ∧
      row = vertexRow t.edges u (item.2.neighbors.keys.map (num switches.keys)) := by
  rw [h.rows, List.map_map, List.getElem?_map, Option.map_eq_some_iff, h.queue]
  constructor
  · rintro ⟨item, hitem, rfl⟩
    obtain rfl := num_item hitem
    exact ⟨item, List.mem_of_getElem? hitem, rfl, rfl⟩
  · rintro ⟨item, hitem, rfl, rfl⟩
    obtain ⟨i, hi⟩ := List.getElem?_of_mem hitem
    exact ⟨item, by rw [num_item hi, hi], rfl⟩

/-- The row of a switch leads to its neighbor. -/
theorem Filled.edgeTo (h : Filled switches links t) (hcons : Consistent switches links)
    (hknown : ∀ key ∈ links.keys, key.1 ∈ switches.keys ∧ key.2 ∈ switches.keys)
    {item : ℕ × Switch} {row : Vertex} (hitem : item ∈ switches.items)
    (hrow : row = vertexRow t.edges u (item.2.neighbors.keys.map (num switches.keys)))
    (hu : u = num switches.keys item.1) (hb : b ∈ item.2.neighbors)
    (hv : v = num switches.keys b) :
    ∃ k : ℕ, row.edgeTo v (List.range row.degree) = .ok k ∧
      ((t.edges.map EdgeRow.ends)[k]? = some (u, v) ∨
        (t.edges.map EdgeRow.ends)[k]? = some (v, u)) := by
  have hlists : ∀ b ∈ item.2.neighbors.keys, switches.Lists item.1 b := fun b hb =>
    ⟨item.2, Dict.mem_items.mp hitem, AList.mem_keys.mpr hb⟩
  have hmem : ∀ {a b : ℕ}, switches.Lists a b → a ∈ switches.keys := by
    rintro a b ⟨sw, hsw, -⟩
    exact AList.mem_keys.mp (Dict.mem_iff_get?.mpr ⟨sw, hsw⟩)
  have hone : ∀ b ∈ item.2.neighbors.keys,
      ∃ k, joining t.edges.zipIdx u (num switches.keys b) = [k] := by
    intro b hb
    have hends := h.ends
    rw [h.queue] at hends
    have hl := hlists b hb
    rw [hu]
    exact joining_eq hcons hends hknown hl (hmem hl) (hmem (hcons.symm _ _ hl))
  let f : ℕ → ℕ := fun v => (joining t.edges.zipIdx u v).headD 0
  have hf : ∀ b ∈ item.2.neighbors.keys, joining t.edges.zipIdx u (num switches.keys b) =
      [f (num switches.keys b)] := by
    intro b hb
    obtain ⟨k, hk⟩ := hone b hb
    simp only [f, hk, List.headD_cons]
  have hedges : row.edges = row.neighbors.map f := by
    rw [hrow, vertexRow]
    simp only [List.flatMap_map, List.map_map]
    rw [List.map_eq_flatMap]
    exact List.flatMap_congr hf
  subst hv
  have hvmem : num switches.keys b ∈ row.neighbors := by
    rw [hrow]
    exact List.mem_map_of_mem (AList.mem_keys.mp hb)
  have hdegree : row.degree = row.neighbors.length := by rw [hrow, vertexRow]
  refine ⟨f (num switches.keys b), ?_, ?_⟩
  · rw [hdegree]
    exact Vertex.edgeTo_eq hedges hvmem
  · rw [← mem_joining, hf b (AList.mem_keys.mp hb)]
    exact List.mem_singleton_self _

/-- After an initialization from consistent tables the numbers are right. -/
theorem Filled.located (h : Filled switches links t) (hcons : Consistent switches links)
    (hknown : ∀ key ∈ links.keys, key.1 ∈ switches.keys ∧ key.2 ∈ switches.keys) :
    Located t.vertexs (t.edges.map EdgeRow.ends) := by
  rintro u v ⟨row, hrow, hv⟩
  obtain ⟨item, hitem, hu, hrowEq⟩ := h.getElem?_vertexs.mp hrow
  rw [hrowEq] at hv
  obtain ⟨b, hb, hvb⟩ := List.mem_map.mp hv
  obtain ⟨sw, hsw, hback⟩ := hcons.symm item.1 b
    ⟨item.2, Dict.mem_items.mp hitem, AList.mem_keys.mpr hb⟩
  have hrow' : t.vertexs[v]? = some
      (vertexRow t.edges v (sw.neighbors.keys.map (num switches.keys))) :=
    h.getElem?_vertexs.mpr ⟨(b, sw), Dict.mem_items.mpr hsw, hvb.symm, rfl⟩
  rw [findEdge, hrow, hrow']
  dsimp only
  split
  · exact h.edgeTo hcons hknown hitem hrowEq hu (AList.mem_keys.mpr hb) hvb.symm
  · obtain ⟨k, hk, hpair⟩ := h.edgeTo hcons hknown (Dict.mem_items.mpr hsw) rfl hvb.symm hback hu
    exact ⟨k, hk, hpair.symm⟩

end Algorithm

/-! The calls that fill the tables. -/

inductive TableCall
  | initAlgorithm (status : LinkStatus) (switches : SwitchTable) (links : LinkTableApi)
  | updateLinkStatus (status : LinkStatus) (links : LinkTableApi)

/-- The algorithm, and the pairs of the last initialization. -/
structure GATables where
  algorithm : GAPopulation
  edgeQueue : List (ℕ × ℕ) := []

namespace GATables
open Algorithm

variable {s : GATables} {calls : List TableCall} {u v : ℕ}

def step (s : GATables) : TableCall → GATables
  | .initAlgorithm status switches links =>
    { algorithm := ((GAPopulation.initAlgorithm status switches links).exec s.algorithm).2
      edgeQueue := links.keys }
  | .updateLinkStatus status links =>
    { s with algorithm := ((GAPopulation.updateLinkStatus status links).exec s.algorithm).2 }

/-- Two pairs of the same switches. -/
def SamePair (a b : ℕ × ℕ) : Prop := b = a ∨ b = a.swap

/-- The initialization gets consistent tables. The table of an update lists the pairs of the
last initialization where that one listed them. -/
def InPlace (s : GATables) : TableCall → Prop
  | .initAlgorithm status switches links => Consistent switches links ∧
    ∀ item ∈ links.items, Readable status switches.keys item
  | .updateLinkStatus status links =>
    (∀ item ∈ links.items, Measured status s.algorithm.switchQueue item) ∧
    ∀ (k : ℕ) pair, s.edgeQueue[k]? = some pair → ∃ pair', links.keys[k]? = some pair' ∧
      SamePair pair pair'

def joinedBy (edges : List EdgeRow) (num : ℤ) (u v : ℕ) : Prop :=
  ∃ e, Py.item? edges num = some e ∧ e.Joins u v

/-- The number read for a hop between neighbors is that of an edge of this hop. So the fitness
of a path is made of the edges of its own hops. -/
structure Aligned (s : GAPopulation) : Prop where
  edge : ∀ u v, s.vertexs.Adj u v →
    ∃ num, findEdge u v s.vertexs = .ok num ∧ joinedBy s.edges num u v
  path : ∀ path : List ℕ, path.IsChain s.vertexs.Adj → ∃ nums, s.edgePath path = .ok nums ∧
    List.Forall₂ (fun hop num => joinedBy s.edges num hop.1 hop.2) (path.zip path.tail) nums

theorem aligned_of_edge {s : GAPopulation} (h : ∀ u v, s.vertexs.Adj u v →
    ∃ num, findEdge u v s.vertexs = .ok num ∧ joinedBy s.edges num u v) : Aligned s := by
  refine ⟨h, fun path hpath => ?_⟩
  have hhops := isChain_iff_hops.mp hpath
  obtain ⟨nums, hnums, hjoined⟩ := Py.mapM_forall₂ fun hop hhop => h hop.1 hop.2 (hhops hop hhop)
  exact ⟨nums, hnums, hjoined⟩

/-- The numbers are places of the last initialization, and the edges stand there. -/
structure Placed (s : GATables) : Prop where
  located : Located s.algorithm.vertexs (s.edgeQueue.map (pairNums s.algorithm.switchQueue))
  edges : ∀ (k : ℕ) pair, s.edgeQueue[k]? = some pair → ∃ e, s.algorithm.edges[k]? = some e ∧
    SamePair (pairNums s.algorithm.switchQueue pair) e.ends

theorem Placed.aligned (h : Placed s) : Aligned s.algorithm := by
  refine aligned_of_edge fun u v hadj => ?_
  obtain ⟨k, hk, hpair⟩ := h.located u v hadj
  refine ⟨k, hk, ?_⟩
  obtain ⟨pair, hget, hnums⟩ : ∃ pair, s.edgeQueue[k]? = some pair ∧
      SamePair (u, v) (pairNums s.algorithm.switchQueue pair) := by
    simp only [List.getElem?_map, Option.map_eq_some_iff] at hpair
    rcases hpair with ⟨pair, hget, hp⟩ | ⟨pair, hget, hp⟩
    · exact ⟨pair, hget, .inl hp⟩
    · exact ⟨pair, hget, .inr hp⟩
  obtain ⟨e, he, hends⟩ := h.edges k pair hget
  refine ⟨e, by simpa [Py.item?] using he, ?_⟩
  rcases hnums with hnums | hnums <;> rcases hends with hends | hends <;>
    rw [hnums] at hends <;> obtain ⟨hsrc, hdst⟩ := Prod.mk.inj hends
  · exact .inl ⟨hsrc, hdst⟩
  · exact .inr ⟨hsrc, hdst⟩
  · exact .inr ⟨hsrc, hdst⟩
  · exact .inl ⟨hsrc, hdst⟩

theorem placed_step (h : Placed s) (call : TableCall) (hok : InPlace s call) :
    Placed (step s call) := by
  cases call with
  | initAlgorithm status switches links =>
    obtain ⟨hcons, hreadable⟩ := hok
    have hmem : ∀ {a b : ℕ}, switches.Lists a b → a ∈ switches := by
      rintro a b ⟨sw, hsw, -⟩
      exact Dict.mem_iff_get?.mpr ⟨sw, hsw⟩
    have hknown : ∀ item ∈ switches.items, ∀ d ∈ item.2.neighbors.keys, d ∈ switches :=
      fun item hitem d hd => hmem (hcons.symm item.1 d
        ⟨item.2, Dict.mem_items.mp hitem, AList.mem_keys.mpr hd⟩)
    have hkeys : ∀ key ∈ links.keys, key.1 ∈ switches.keys ∧ key.2 ∈ switches.keys := by
      intro key hkey
      rw [Dict.keys_eq_map_items] at hkey
      obtain ⟨item, hitem, rfl⟩ := List.mem_map.mp hkey
      exact ⟨(hreadable item hitem).src, (hreadable item hitem).dst⟩
    obtain ⟨_, t, hexec, hfilled⟩ :=
      (filled_initAlgorithm hknown hreadable).returns (s := s.algorithm.toAlgorithm) rfl
    have hlocated := hfilled.located hcons hkeys
    rw [hfilled.ends] at hlocated
    rw [step, GAPopulation.initAlgorithm, GAPopulation.onTables, Py.exec_zoom, hexec]
    refine ⟨hlocated, fun k pair hk => ?_⟩
    have hends : (t.edges.map EdgeRow.ends)[k]? = some (pairNums t.switchQueue pair) := by
      rw [hfilled.ends, List.getElem?_map, hk]
      rfl
    rw [List.getElem?_map, Option.map_eq_some_iff] at hends
    obtain ⟨e, he, hends⟩ := hends
    exact ⟨e, he, .inl hends⟩
  | updateLinkStatus status links =>
    obtain ⟨hmeasured, hplaces⟩ := hok
    obtain ⟨_, t, hexec, edges, rfl, hends⟩ :=
      (filled_updateLinkStatus hmeasured).returns (s := s.algorithm.toAlgorithm) rfl
    rw [step, GAPopulation.updateLinkStatus, Py.exec_bind_of_ok (Py.exec_modify _ _),
      GAPopulation.onTables, Py.exec_zoom]
    dsimp only
    rw [hexec]
    refine ⟨h.located, fun k pair hk => ?_⟩
    obtain ⟨pair', hget, hsame⟩ := hplaces k pair hk
    have hend : (edges.map EdgeRow.ends)[k]? =
        some (pairNums s.algorithm.switchQueue pair') := by
      rw [hends, List.getElem?_map, hget]
      rfl
    rw [List.getElem?_map, Option.map_eq_some_iff] at hend
    obtain ⟨e, he, hend⟩ := hend
    refine ⟨e, he, ?_⟩
    rcases hsame with rfl | rfl
    · exact .inl hend
    · exact .inr hend

/-- In a run whose tables keep their places, every hop is charged with an edge of its own. -/
theorem aligned_of_inPlace (rng : Rng) (calls : List TableCall)
    (hcalls : Machine.Admits step InPlace { algorithm := { rng } } calls) :
    ∀ before, before <+: calls →
      Aligned (Machine.run step { algorithm := { rng } } before).algorithm := by
  rintro before ⟨rest, rfl⟩
  have hplaced : Placed (Machine.run step { algorithm := { rng } } before) := by
    refine Machine.invariant_run (I := fun _ s => Placed s) ?_ ?_
      (Machine.admits_append.mp hcalls).1
    · refine ⟨fun u v => ?_, fun k pair hk => ?_⟩
      · rintro ⟨row, hrow, -⟩
        simp at hrow
      · simp at hk
    · exact fun _ s call hs hok => placed_step hs call hok
  exact hplaced.aligned

/-! Three switches, each linked to the others. -/

def measuredLink (a b : ℕ) : Dict (ℕ × ℕ) Link := Dict.set ∅ (b, a) {
  src := ⟨a, b⟩, dst := ⟨b, a⟩, totalBand := some 10, availableBand := some 10,
  delay := some 1, cost := some 1 }

def triangleLinks : LinkTableApi :=
  ((Dict.set ∅ (2, 3) (measuredLink 2 3)).set (1, 3) (measuredLink 1 3)).set (1, 2)
    (measuredLink 1 2)

def switchWith (dpid : ℕ) (neighbors : List ℕ) : Switch :=
  { dp := dpid, neighbors := neighbors.foldr (fun n d => Dict.set d n [n]) ∅ }

def triangle : SwitchTable :=
  ((Dict.set ∅ 3 (switchWith 3 [1, 2])).set 2 (switchWith 2 [1, 3])).set 1 (switchWith 1 [2, 3])

/-- The link between the switches 1 and 2 is deleted. -/
def openTriangle : SwitchTable :=
  ((Dict.set ∅ 3 (switchWith 3 [1, 2])).set 2 (switchWith 2 [3])).set 1 (switchWith 1 [3])

def NeighborsJoined (switches : SwitchTable) (links : LinkTableApi) : Prop :=
  (∀ item ∈ switches.items, ∀ b ∈ item.2.neighbors.keys,
    (∃ item' ∈ switches.items, item'.1 = b ∧ item.1 ∈ item'.2.neighbors.keys) ∧
    ((item.1, b) ∈ links.keys ∨ (b, item.1) ∈ links.keys)) ∧
  ∀ key ∈ links.keys, key.swap ∉ links.keys

theorem consistent_of_neighborsJoined {switches : SwitchTable} {links : LinkTableApi}
    (h : NeighborsJoined switches links) : Consistent switches links := by
  obtain ⟨hneighbors, hkeys⟩ := h
  refine ⟨?_, ?_, ?_⟩
  · rintro a b ⟨sw, hsw, hb⟩
    obtain ⟨⟨⟨b, sw'⟩, hitem, rfl, ha⟩, -⟩ :=
      hneighbors (a, sw) (Dict.mem_items.mpr hsw) b (AList.mem_keys.mp hb)
    exact ⟨sw', Dict.mem_items.mp hitem, AList.mem_keys.mpr ha⟩
  · rintro a b ⟨sw, hsw, hb⟩
    exact (hneighbors (a, sw) (Dict.mem_items.mpr hsw) b (AList.mem_keys.mp hb)).2
  · intro a b hab hba
    exact absurd (AList.mem_keys.mp hba) (hkeys (a, b) (AList.mem_keys.mp hab))

theorem consistent_triangle : Consistent triangle triangleLinks :=
  consistent_of_neighborsJoined (by unfold NeighborsJoined; decide +kernel)

theorem consistent_openTriangle : Consistent openTriangle (triangleLinks.del (1, 2)) :=
  consistent_of_neighborsJoined (by unfold NeighborsJoined; decide +kernel)

theorem measured_triangleLinks : ∀ item ∈ triangleLinks.items, Measured id [1, 2, 3] item := by
  have hitems : triangleLinks.items = [((1, 2), measuredLink 1 2), ((1, 3), measuredLink 1 3),
    ((2, 3), measuredLink 2 3)] := rfl
  have hlink : ∀ a ∈ [1, 2, 3], ∀ b ∈ [1, 2, 3],
      Measured id [1, 2, 3] ((a, b), measuredLink a b) := by
    intro a ha b hb
    refine ⟨⟨ha, hb, _, rfl, rfl, rfl, rfl⟩, ?_⟩
    rintro link hlink
    obtain rfl := Option.some.inj hlink
    refine ⟨rfl, fun hband => ?_⟩
    have hten : (10 : ℚ) = 0 := Option.some.inj hband
    norm_num at hten
  rw [hitems]
  simp only [List.forall_mem_cons]
  exact ⟨hlink 1 (by simp) 2 (by simp), hlink 1 (by simp) 3 (by simp),
    hlink 2 (by simp) 3 (by simp), nofun⟩

def zeroDraws : Rng := fun _ => .zero

/-- An update with the links of the initialization. -/
theorem aligned_of_inPlace_triangle :
    Aligned (Machine.run step { algorithm := { rng := zeroDraws } }
      [.initAlgorithm id triangle triangleLinks, .updateLinkStatus id triangleLinks]).algorithm :=
    by
  refine aligned_of_inPlace zeroDraws [.initAlgorithm id triangle triangleLinks,
    .updateLinkStatus id triangleLinks] ⟨⟨consistent_triangle, ?_⟩, ⟨?_, ?_⟩, trivial⟩ _
    (List.prefix_refl _)
  · exact fun item hitem => (measured_triangleLinks item hitem).toReadable
  · exact measured_triangleLinks
  · exact fun k pair hk => ⟨pair, hk, .inl rfl⟩

/-- After the deletion of a link an update still lists the pair of the deleted link. So the
number of the edge between the switches 1 and 3 leads to the edge between 1 and 2. -/
theorem edges_shifted_by_stale_links :
    Consistent openTriangle (triangleLinks.del (1, 2)) ∧
    ¬ Aligned (Machine.run step { algorithm := { rng := zeroDraws } }
      [.initAlgorithm id triangle triangleLinks, .updateLinkStatus id triangleLinks,
        .initAlgorithm id openTriangle (triangleLinks.del (1, 2)),
        .updateLinkStatus id triangleLinks]).algorithm :=
    by
  refine ⟨consistent_openTriangle, fun h => ?_⟩
  obtain ⟨num, hnum, e, he, hjoins⟩ := h.edge 0 2 ⟨⟨1, [2], [0]⟩, by decide +kernel, by decide⟩
  have hzero : num = 0 := Except.ok.inj (hnum.symm.trans (by decide +kernel))
  subst hzero
  have hedge : e = ⟨0, 1, 1, 1, some 10, 10⟩ := Option.some.inj (he.symm.trans (by decide +kernel))
  subst hedge
  revert hjoins
  decide

end GATables
end SDRoute
