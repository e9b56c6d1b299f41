import SDRoute.Lib.Triple
import SDRoute.Algorithm.GAPopulation

/-! What the tables of the algorithms on numbered switches hold after they were filled: the
edges in the order of the link table, and for each vertex the numbers of its edges. -/
namespace SDRoute

def EdgeRow.ends (e : EdgeRow) : ℕ × ℕ := (e.src, e.dst)

namespace Algorithm
open Py

variable {status : LinkStatus} {switches : SwitchTable} {links : LinkTableApi}
  {s t : Algorithm} {queue : List ℕ} {item : (ℕ × ℕ) × Dict (ℕ × ℕ) Link} {d : ℕ}

/-- The number of a switch. -/
def num (queue : List ℕ) (dpid : ℕ) : ℕ := (queue.idxOf? dpid).getD 0

def pairNums (queue : List ℕ) (pair : ℕ × ℕ) : ℕ × ℕ := (num queue pair.1, num queue pair.2)

/-- A pair of known switches whose first link is configured. -/
structure Readable (status : LinkStatus) (queue : List ℕ)
    (item : (ℕ × ℕ) × Dict (ℕ × ℕ) Link) : Prop where
  src : item.1.1 ∈ queue
  dst : item.1.2 ∈ queue
  link : ∃ link, item.2.values.head? = some link ∧ (status link).delay.isSome ∧
    (status link).cost.isSome ∧ (status link).totalBand.isSome

/-- The links are measured, too, and have a band. -/
structure Measured (status : LinkStatus) (queue : List ℕ)
    (item : (ℕ × ℕ) × Dict (ℕ × ℕ) Link) : Prop extends Readable status queue item where
  availableBand : ∀ link, item.2.values.head? = some link →
    (status link).availableBand.isSome ∧ (status link).totalBand ≠ some 0

theorem idxOf?_eq_num (h : d ∈ queue) : queue.idxOf? d = some (num queue d) := by
  obtain ⟨i, hi⟩ := Option.isSome_iff_exists.mp (List.isSome_idxOf?.mpr h)
  rw [num, hi]
  rfl

theorem getElem?_num (h : d ∈ queue) : queue[num queue d]? = some d :=
  getElem?_of_idxOf? (idxOf?_eq_num h)

theorem num_lt (h : d ∈ queue) : num queue d < queue.length :=
  (List.getElem?_eq_some_iff.mp (getElem?_num h)).1

theorem num_inj {d' : ℕ} (h : d ∈ queue) (h' : d' ∈ queue) (heq : num queue d = num queue d') :
    d = d' := by
  have hd := getElem?_num h
  rw [heq, getElem?_num h'] at hd
  exact (Option.some.inj hd).symm

theorem exec_indexOf (h : d ∈ s.switchQueue) :
    (indexOf d).exec s = (.ok (num s.switchQueue d), s) := by
  rw [indexOf, exec_bind_of_ok (exec_get s), idxOf?_eq_num h]
  rfl

/-- An edge is made from a readable pair, if its band can be read. -/
theorem exec_makeEdge (readBand : Option ℚ → Py Algorithm (Option ℚ))
    (h : Readable status s.switchQueue item)
    (hband : ∀ link, item.2.values.head? = some link →
      ∃ band, readBand (status link).availableBand = pure band) :
    ∃ link e, item.2.values.head? = some link ∧ e.ends = pairNums s.switchQueue item.1 ∧
      (makeEdge status readBand item).exec s =
        (.ok (status link), { s with edges := s.edges ++ [e] }) := by
  obtain ⟨link, hlink, hdelay, hcost, htotal⟩ := h.link
  obtain ⟨band, hband⟩ := hband link hlink
  obtain ⟨delay, hdelay⟩ := Option.isSome_iff_exists.mp hdelay
  obtain ⟨cost, hcost⟩ := Option.isSome_iff_exists.mp hcost
  obtain ⟨total, htotal⟩ := Option.isSome_iff_exists.mp htotal
  refine ⟨link, ⟨num s.switchQueue item.1.1, num s.switchQueue item.1.2, delay, cost, band, total⟩,
    hlink, rfl, ?_⟩
  rw [makeEdge, exec_bind_of_ok (exec_indexOf h.src), exec_bind_of_ok (exec_indexOf h.dst), hlink,
    ofOption_some, pure_bind]
  dsimp only
  rw [hdelay, hcost, htotal, hband]
  rfl

/-- The edges of some rounds of a loop over the link table. -/
def EdgesOf (s : Algorithm) (items : List ((ℕ × ℕ) × Dict (ℕ × ℕ) Link)) (t : Algorithm) : Prop :=
  ∃ edges, t = { s with edges := s.edges ++ edges } ∧
    edges.map EdgeRow.ends = items.map fun item => pairNums s.switchQueue item.1

theorem EdgesOf.snoc {items : List ((ℕ × ℕ) × Dict (ℕ × ℕ) Link)} {e : EdgeRow}
    (h : EdgesOf s items t) (he : e.ends = pairNums s.switchQueue item.1) :
    EdgesOf s (items ++ [item]) { t with edges := t.edges ++ [e] } := by
  obtain ⟨edges, rfl, hedges⟩ := h
  exact ⟨edges ++ [e], by simp, by simp [hedges, he]⟩

theorem triple_initEdges (h : ∀ item ∈ links.items, Readable status s.switchQueue item) :
    Triple (· = s) (links.items.forM fun item => discard (makeEdge status pure item))
      (fun _ => EdgesOf s links.items) fun _ => False := by
  refine (Triple.forM (J := EdgesOf s) fun items item hitem => ?_).pre ?_
  · intro t ht
    obtain ⟨edges, rfl, -⟩ := id ht
    obtain ⟨link, e, -, he, hexec⟩ := exec_makeEdge (s := { s with edges := s.edges ++ edges })
      pure (h item hitem) fun link _ => ⟨_, rfl⟩
    rw [exec_discard, hexec]
    exact ht.snoc he
  · rintro _ rfl
    exact ⟨[], by simp, rfl⟩

theorem triple_updateEdges (h : ∀ item ∈ links.items, Measured status s.switchQueue item) :
    Triple (· = s) (links.items.forM fun item => do
      logArgs (← makeEdge status (fun band => some <$> toFloat band) item))
      (fun _ => EdgesOf s links.items) fun _ => False := by
  refine (Triple.forM (J := EdgesOf s) fun items item hitem => ?_).pre ?_
  · intro t ht
    obtain ⟨edges, rfl, -⟩ := id ht
    have hmeasured := h item hitem
    obtain ⟨link, e, hlink, he, hexec⟩ := exec_makeEdge (s := { s with edges := s.edges ++ edges })
      (fun band => some <$> toFloat band) hmeasured.toReadable fun link hlink => by
        obtain ⟨band, hband⟩ :=
          Option.isSome_iff_exists.mp (hmeasured.availableBand link hlink).1
        exact ⟨some band, by rw [hband]; rfl⟩
    obtain ⟨band, hband⟩ := Option.isSome_iff_exists.mp (hmeasured.availableBand link hlink).1
    obtain ⟨link', hlink', -, -, htotal⟩ := hmeasured.link
    obtain rfl := Option.some.inj (hlink.symm.trans hlink')
    obtain ⟨total, htotal⟩ := Option.isSome_iff_exists.mp htotal
    have hne : total ≠ 0 := by
      rintro rfl
      exact (hmeasured.availableBand link hlink).2 htotal
    rw [exec_bind_of_ok hexec, logArgs, hband, htotal, toFloat, toFloat, ofOption_some,
      ofOption_some, pure_bind, pure_bind, if_neg hne]
    exact ht.snoc he
  · rintro _ rfl
    exact ⟨[], by simp, rfl⟩

/-! The rows of the vertices. -/

/-- The entry of a switch in the table of the neighbors. -/
def neighborEntry (queue : List ℕ) (item : ℕ × Switch) : ℕ × List ℕ :=
  (num queue item.1, item.2.neighbors.keys.map (num queue))

theorem exec_setNeighbors {item : ℕ × Switch} (hself : item.1 ∈ s.switchQueue)
    (hknown : ∀ d ∈ item.2.neighbors.keys, d ∈ s.switchQueue) :
    (setNeighbors item).exec s = (.ok (), { s with
      switchNeighbors := Dict.set s.switchNeighbors (neighborEntry s.switchQueue item).1
        (neighborEntry s.switchQueue item).2 }) := by
  have hmapM := exec_mapM (f := indexOf) (g := num s.switchQueue) (s := s) fun d hd =>
    exec_indexOf (hknown d hd)
  rw [setNeighbors, exec_bind_of_ok (exec_indexOf hself), exec_bind_of_ok hmapM]
  rfl

/-- Each switch has its entry, under its own number. -/
theorem triple_setNeighbors (hqueue : s.switchQueue = switches.keys)
    (hempty : s.switchNeighbors = ∅)
    (hknown : ∀ item ∈ switches.items, ∀ d ∈ item.2.neighbors.keys, d ∈ switches) :
    Triple (· = s) (switches.items.forM setNeighbors)
      (fun _ t => ∃ d : Dict ℕ (List ℕ), t = { s with switchNeighbors := d } ∧
        d.items = (switches.items.map (neighborEntry s.switchQueue)).reverse)
      fun _ => False := by
  have hmem : ∀ {item : ℕ × Switch}, item ∈ switches.items → item.1 ∈ s.switchQueue := by
    intro item hitem
    rw [hqueue, Dict.keys_eq_map_items]
    exact List.mem_map_of_mem hitem
  refine (Triple.forM_split switches.items (J := fun items t => ∃ d : Dict ℕ (List ℕ),
    t = { s with switchNeighbors := d } ∧
      d.items = (items.map (neighborEntry s.switchQueue)).reverse)
    fun items item rest hsplit => ?_).pre ?_
  · rintro t ⟨d, rfl, hd⟩
    have hitem : item ∈ switches.items := by simp [hsplit]
    have hexec := exec_setNeighbors (s := { s with switchNeighbors := d }) (hmem hitem)
      fun d hd => by
        change d ∈ s.switchQueue
        rw [hqueue]
        exact AList.mem_keys.mp (hknown item hitem d hd)
    rw [hexec]
    refine ⟨_, rfl, ?_⟩
    -- the number of the switch is none of the numbers of the switches before it
    have hfresh : (neighborEntry s.switchQueue item).1 ∉ d := by
      intro hin
      rw [AList.mem_keys, Dict.keys_eq_map_items, hd] at hin
      obtain ⟨entry, hentry, hnum⟩ := List.mem_map.mp hin
      obtain ⟨item', hitem', rfl⟩ := List.mem_map.mp (List.mem_reverse.mp hentry)
      have hsame := num_inj (hmem (by simp [hsplit, hitem'])) (hmem hitem) hnum
      have hnodup := Dict.items_nodup_keys switches
      rw [hsplit, List.map_append, List.map_cons] at hnodup
      exact (List.nodup_append.mp hnodup).2.2 _ (List.mem_map_of_mem hitem') _
        (List.mem_cons_self ..) hsame
    rw [Dict.items_set_of_notMem hfresh, hd, List.map_append, List.reverse_append]
    rfl
  · rintro _ rfl
    exact ⟨∅, by rw [← hempty], rfl⟩

/-- The numbers of the edges that join two vertices. -/
def joining (edges : List (EdgeRow × ℕ)) (u v : ℕ) : List ℕ :=
  (edges.filter fun edge => edge.1.Joins u v).map Prod.snd

/-- The row of a vertex: the edges to each of its neighbors. -/
def vertexRow (edges : List EdgeRow) (u : ℕ) (neighbors : List ℕ) : Vertex :=
  { degree := neighbors.length, neighbors,
    edges := neighbors.flatMap (joining edges.zipIdx u) }

section row
variable {rows : Vertexs} {row : Vertex} {u v : ℕ}

/-- The state while the last row is filled. -/
def withRow (s : Algorithm) (rows : Vertexs) (row : Vertex) : Algorithm :=
  { s with vertexs := rows ++ [row] }

theorem exec_addEdgeNum (hrows : rows.length = u) (k : ℕ) :
    (addEdgeNum u k).exec (withRow s rows row) =
      (.ok (), withRow s rows { row with edges := row.edges ++ [k] }) := by
  subst hrows
  simp [addEdgeNum, withRow, exec_bind]

theorem exec_joinEdges (hrows : rows.length = u) (edges : List (EdgeRow × ℕ)) (row : Vertex) :
    (edges.forM fun edge => if edge.1.Joins u v then addEdgeNum u edge.2 else pure ()).exec
      (withRow s rows row) =
      (.ok (), withRow s rows { row with edges := row.edges ++ joining edges u v }) := by
  induction edges generalizing row with
  | nil => simp [joining]
  | cons edge edges ih =>
    rw [forM_cons]
    by_cases hjoins : edge.1.Joins u v
    · rw [if_pos hjoins, exec_bind_of_ok (exec_addEdgeNum hrows edge.2), ih]
      simp [joining, hjoins]
    · rw [if_neg hjoins, exec_bind_of_ok (exec_pure _ _), ih]
      simp [joining, hjoins]

theorem exec_joinNeighbors (hrows : rows.length = u) (edges : List (EdgeRow × ℕ))
    (neighbors : List ℕ) (row : Vertex) :
    (neighbors.forM fun v => edges.forM fun edge =>
      if edge.1.Joins u v then addEdgeNum u edge.2 else pure ()).exec (withRow s rows row) =
      (.ok (), withRow s rows
        { row with edges := row.edges ++ neighbors.flatMap (joining edges u) }) := by
  induction neighbors generalizing row with
  | nil => simp
  | cons v neighbors ih =>
    rw [forM_cons, exec_bind_of_ok (exec_joinEdges hrows edges row), ih]
    simp

theorem exec_addVertex {item : ℕ × List ℕ} (hnext : s.vertexs.length = item.1) :
    (addVertex item).exec s =
      (.ok (), { s with vertexs := s.vertexs ++ [vertexRow s.edges item.1 item.2] }) := by
  rw [addVertex, exec_bind_of_ok (exec_modify _ _), exec_bind_of_ok (exec_get _)]
  exact exec_joinNeighbors (s := s) hnext s.edges.zipIdx item.2 ⟨item.2.length, item.2, []⟩

end row

theorem num_keys (switches : SwitchTable) :
    switches.items.map (fun item => num switches.keys item.1) =
      List.range switches.items.length := by
  have hkeys := Dict.keys_eq_map_items switches
  refine List.ext_getElem (by simp) fun i hi _ => ?_
  rw [List.length_map] at hi
  have hget : switches.keys[i]? = some switches.items[i].1 := by
    rw [hkeys, List.getElem?_map, List.getElem?_eq_getElem hi]
    rfl
  rw [List.getElem_map, List.getElem_range]
  exact Py.place_eq switches.keys_nodup (getElem?_num (List.mem_of_getElem? hget)) hget

/-- The neighbors are walked in the order of the numbers. -/
theorem neighborItems_eq (hqueue : s.switchQueue = switches.keys)
    (hneighbors : s.switchNeighbors.items =
      (switches.items.map (neighborEntry s.switchQueue)).reverse) :
    s.neighborItems = switches.items.map (neighborEntry s.switchQueue) := by
  rw [neighborItems, hneighbors, List.length_reverse, List.length_map, ← num_keys,
    List.filterMap_map, ← List.filterMap_eq_map]
  refine List.filterMap_congr fun item hitem => ?_
  have hmem : neighborEntry s.switchQueue item ∈ s.switchNeighbors.items := by
    rw [hneighbors, List.mem_reverse]
    exact List.mem_map_of_mem hitem
  have hget := Dict.mem_items.mp hmem
  rw [hqueue] at hget ⊢
  simp only [Function.comp_apply, neighborEntry] at hget ⊢
  rw [hget]
  rfl

/-- Each vertex gets its row when the rows are as many as its number says. -/
theorem triple_addVertexs {items : List (ℕ × List ℕ)} (hempty : s.vertexs = [])
    (hnums : items.map Prod.fst = List.range items.length) :
    Triple (· = s) (items.forM addVertex) (fun _ t => t = { s with
      vertexs := items.map fun item => vertexRow s.edges item.1 item.2 }) fun _ => False := by
  refine (Triple.forM_split items (J := fun done t => t = { s with
    vertexs := done.map fun item : ℕ × List ℕ => vertexRow s.edges item.1 item.2 })
    fun done item rest hsplit => ?_).pre ?_
  · rintro _ rfl
    have hnext : done.length = item.1 := by
      have hget := congrArg (fun nums : List ℕ => nums[done.length]?) hnums
      simp [hsplit] at hget
      exact hget.symm
    rw [exec_addVertex (by simpa using hnext)]
    simp
  · rintro _ rfl
    simp [← hempty]

/-- What the tables hold after an initialization. -/
structure Filled (switches : SwitchTable) (links : LinkTableApi) (t : Algorithm) : Prop where
  queue : t.switchQueue = switches.keys
  ends : t.edges.map EdgeRow.ends = links.keys.map (pairNums t.switchQueue)
  rows : t.vertexs = (switches.items.map (neighborEntry t.switchQueue)).map fun item =>
    vertexRow t.edges item.1 item.2

theorem filled_initAlgorithm
    (hknown : ∀ item ∈ switches.items, ∀ d ∈ item.2.neighbors.keys, d ∈ switches)
    (hreadable : ∀ item ∈ links.items, Readable status switches.keys item) :
    Triple (· = s) (initAlgorithm status switches links) (fun _ => Filled switches links)
      fun _ => False := by
  refine Triple.bind (Triple.set (Q := fun _ => (· = { switchQueue := switches.keys }))
    fun _ _ => rfl) fun _ => ?_
  refine Triple.bind (triple_setNeighbors rfl rfl hknown) fun _ => Triple.intro ?_
  rintro _ ⟨d, rfl, hd⟩
  refine Triple.bind (triple_initEdges hreadable) fun _ => Triple.reads ?_
  rintro _ ⟨edges, rfl, hedges⟩
  rw [neighborItems_eq (show _ = switches.keys from rfl) hd]
  refine (triple_addVertexs rfl ?_).post ?_
  · rw [List.map_map, List.length_map]
    exact num_keys switches
  · rintro _ _ rfl
    have hpairs : links.items.map (fun item => pairNums switches.keys item.1) =
        links.keys.map (pairNums switches.keys) := by
      rw [Dict.keys_eq_map_items links, List.map_map]
      rfl
    exact ⟨rfl, hedges.trans hpairs, rfl⟩

theorem filled_updateLinkStatus (hmeasured : ∀ item ∈ links.items,
    Measured status s.switchQueue item) :
    Triple (· = s) (updateLinkStatus status links) (fun _ t => ∃ edges, t = { s with edges } ∧
      edges.map EdgeRow.ends = links.keys.map (pairNums s.switchQueue)) fun _ => False := by
  refine Triple.bind (Triple.modify (Q := fun _ => (· = { s with edges := [] }))
    fun _ h => h ▸ rfl) fun _ => ?_
  refine (triple_updateEdges (s := { s with edges := [] }) hmeasured).post ?_
  rintro _ _ ⟨edges, rfl, hedges⟩
  refine ⟨edges, rfl, hedges.trans ?_⟩
  rw [Dict.keys_eq_map_items links, List.map_map]
  rfl

end Algorithm
end SDRoute
