import SDRoute.Algorithm.EdgeAlignment
import SDRoute.Algorithm.MGEvolution

/-! The tables of the multicast algorithm: the initialization writes rows and edges at the numbers
of the switches and of the pairs of the link table, an update of the link status only the edges. -/
namespace SDRoute

/-- What divides the configured cost of a link. -/
def costIndex : ℚ := 500

namespace MGTables

structure Vertex where
  id : ℕ := 0
  degree : ℕ := 0
  connectVertex : List ℕ := []
  connectEdge : List ℕ := []
deriving DecidableEq, Repr

structure Edge where
  id : ℕ := 0
  vertexId0 : ℕ := 0
  vertexId1 : ℕ := 0
  width : ℚ := 0
  availableWidth : ℚ := 0
  delay : ℚ := 0
  cost : ℚ := 0
deriving DecidableEq, Repr

end MGTables

/-- The part of the object that describes the topology. -/
structure MGTables where
  switchQueue : List ℕ := []
  edgeQueue : List (ℕ × ℕ) := []
  vertexes : List MGTables.Vertex := []
  edges : List MGTables.Edge := []
deriving DecidableEq

namespace MGTables
open Py Algorithm

def toFloat (x : Option ℚ) : Py MGTables ℚ := ofOption .typeError x

def indexOf (dpid : ℕ) : Py MGTables ℕ := do
  let s ← get
  ofOption .valueError (s.switchQueue.idxOf? dpid)

def writeVertex (num : ℕ) (f : Vertex → Vertex) : Py MGTables Unit := do
  let s ← get
  let vertex ← ofOption .indexError s.vertexes[num]?
  modify fun s => { s with vertexes := s.vertexes.set num (f vertex) }

def writeEdge (num : ℕ) (f : Edge → Edge) : Py MGTables Unit := do
  let s ← get
  let edge ← ofOption .indexError s.edges[num]?
  modify fun s => { s with edges := s.edges.set num (f edge) }

def setVertex (item : ℕ × Switch) : Py MGTables Unit := do
  let num ← indexOf item.1
  let neighborsInNum ← item.2.neighbors.keys.mapM indexOf
  writeVertex num fun v => { v with
    id := num, connectVertex := neighborsInNum, degree := neighborsInNum.length }

/-- The part that the initialization and the update of an edge share. Returns its number and the
first of the links of the pair. -/
def setEdge (status : LinkStatus) (item : (ℕ × ℕ) × Dict (ℕ × ℕ) Link) :
    Py MGTables (ℕ × Link) := do
  let s ← get
  let num ← ofOption .valueError (s.edgeQueue.idxOf? item.1)
  let srcNum ← indexOf item.1.1
  let dstNum ← indexOf item.1.2
  let link ← ofOption .indexError item.2.values.head?
  let ev := status link
  writeEdge num fun e => { e with id := num, vertexId0 := srcNum, vertexId1 := dstNum }
  let delay ← toFloat ev.delay
  writeEdge num fun e => { e with delay }
  let cost ← toFloat ev.cost
  writeEdge num fun e => { e with cost := Rounding.double.div cost costIndex }
  return (num, ev)

def setWidth (num : ℕ) (ev : Link) : Py MGTables Unit := do
  let width ← toFloat ev.totalBand
  writeEdge num fun e => { e with width }

def initEdge (status : LinkStatus) (item : (ℕ × ℕ) × Dict (ℕ × ℕ) Link) :
    Py MGTables Unit := do
  let (num, ev) ← setEdge status item
  setWidth num ev

/-- The arguments of the log message divide by the total band. -/
def logArgs (ev : Link) : Py MGTables Unit := do
  let _ ← toFloat ev.availableBand
  let totalBand ← toFloat ev.totalBand
  if totalBand = 0 then throw .zeroDivisionError

/-- The measured band is not read, every edge is as wide as can be. -/
def updateEdge (status : LinkStatus) (item : (ℕ × ℕ) × Dict (ℕ × ℕ) Link) :
    Py MGTables Unit := do
  let (num, ev) ← setEdge status item
  writeEdge num fun e => { e with availableWidth := endlessFloat }
  setWidth num ev
  logArgs ev

def Edge.Joins (e : Edge) (a b : ℕ) : Prop :=
  (e.vertexId0 = a ∧ e.vertexId1 = b) ∨ (e.vertexId0 = b ∧ e.vertexId1 = a)

instance (e : Edge) (a b : ℕ) : Decidable (e.Joins a b) :=
  inferInstanceAs (Decidable (_ ∨ _))

def connectEdges (vertex : Vertex) : Py MGTables Unit := do
  let s ← get
  vertex.connectVertex.forM fun neighbor =>
    s.edges.forM fun edge =>
      if edge.Joins vertex.id neighbor then
        writeVertex vertex.id fun v => { v with connectEdge := v.connectEdge ++ [edge.id] }
      else pure ()

/-- The loop over the rows changes neither their numbers nor their neighbors. -/
def fillVertexesAndEdges (status : LinkStatus) (switches : SwitchTable) (links : LinkTableApi) :
    Py MGTables Unit := do
  modify fun s => { s with
    switchQueue := switches.keys
    edgeQueue := links.keys
    vertexes := s.vertexes ++ List.replicate switches.items.length {}
    edges := s.edges ++ List.replicate links.items.length {} }
  switches.items.forM setVertex
  links.items.forM (initEdge status)
  let s ← get
  s.vertexes.forM connectEdges

def updateLinkStatus (status : LinkStatus) (links : LinkTableApi) : Py MGTables Unit := do
  modify fun s => { s with edges := List.replicate links.items.length {} }
  links.items.forM (updateEdge status)

/-- The tables as the evaluation of the chromosomes reads them. -/
def load (t : MGTables) (s : MGInstance) : MGInstance := { s with
  switchQueue := t.switchQueue
  vertexes := t.vertexes.map fun v => ⟨v.degree, v.connectVertex, v.connectEdge⟩
  edges := t.edges.map fun e => ⟨e.vertexId0, e.vertexId1, e.availableWidth, e.cost⟩ }

/-! What the loops leave. -/

section exec
variable {status : LinkStatus} {switches : SwitchTable} {links : LinkTableApi} {s : MGTables}
  {item : (ℕ × ℕ) × Dict (ℕ × ℕ) Link} {d k : ℕ} {e : Edge} {v : Vertex}
  {done : List Vertex}

theorem exec_indexOf (h : d ∈ s.switchQueue) :
    (indexOf d).exec s = (.ok (num s.switchQueue d), s) := by
  rw [indexOf, exec_bind_of_ok (exec_get s), idxOf?_eq_num h]
  rfl

theorem toFloat_eq {x : Option ℚ} {q : ℚ} (h : x = some q) : toFloat x = pure q := by
  rw [toFloat, h]
  rfl

theorem exec_writeVertex (f : Vertex → Vertex) (h : s.vertexes[k]? = some v) :
    (writeVertex k f).exec s = (.ok (), { s with vertexes := s.vertexes.set k (f v) }) := by
  rw [writeVertex, exec_bind_of_ok (exec_get s), h]
  rfl

theorem exec_writeEdge (f : Edge → Edge) (h : s.edges[k]? = some e) :
    (writeEdge k f).exec s = (.ok (), { s with edges := s.edges.set k (f e) }) := by
  rw [writeEdge, exec_bind_of_ok (exec_get s), h]
  rfl

/-- The row of a switch before the edges are connected. -/
def neighborRow (queue : List ℕ) (item : ℕ × Switch) (i : ℕ) : Vertex where
  id := i
  degree := item.2.neighbors.keys.length
  connectVertex := item.2.neighbors.keys.map (num queue)

theorem exec_setVertex {item : ℕ × Switch} (hself : item.1 ∈ s.switchQueue)
    (hknown : ∀ d ∈ item.2.neighbors.keys, d ∈ s.switchQueue)
    (hrow : s.vertexes[num s.switchQueue item.1]? = some {}) :
    (setVertex item).exec s = (.ok (), { s with
      vertexes := s.vertexes.set (num s.switchQueue item.1)
        (neighborRow s.switchQueue item (num s.switchQueue item.1)) }) := by
  have hmapM := exec_mapM (f := indexOf) (g := num s.switchQueue) (s := s) fun d hd =>
    exec_indexOf (hknown d hd)
  rw [setVertex, exec_bind_of_ok (exec_indexOf hself), exec_bind_of_ok hmapM,
    exec_writeVertex _ hrow, neighborRow, List.length_map]

/-- The rows of the first switches are set, those of the others are new. -/
theorem triple_setVertexes (hqueue : s.switchQueue = switches.keys)
    (hknown : ∀ item ∈ switches.items, ∀ d ∈ item.2.neighbors.keys, d ∈ switches)
    (hrows : s.vertexes = List.replicate switches.items.length {}) :
    Triple (· = s) (switches.items.forM setVertex) (fun _ t => t = { s with
      vertexes := switches.items.mapIdx fun i item => neighborRow switches.keys item i })
      fun _ => False := by
  refine ((Triple.forM_split switches.items (J := fun items t => t = { s with
    vertexes := (items.mapIdx fun i item => neighborRow switches.keys item i) ++
      List.replicate (switches.items.length - items.length) {} })
    fun items item rest hsplit => ?_).pre ?_).post ?_
  · rintro _ rfl
    have hitem : switches.items[items.length]? = some item := by
      rw [hsplit, List.getElem?_append_right le_rfl, Nat.sub_self, List.getElem?_cons_zero]
    have hnum : num switches.keys item.1 = items.length := num_item hitem
    have hmem : item ∈ switches.items := List.mem_of_getElem? hitem
    have hleft : switches.items.length - items.length = rest.length + 1 := by
      rw [hsplit, List.length_append, List.length_cons]
      omega
    have hnext : switches.items.length - (items ++ [item]).length = rest.length := by
      rw [List.length_append, List.length_singleton]
      omega
    rw [exec_setVertex]
    · simp only [hqueue, hnum, hleft, hnext, List.replicate_succ, List.mapIdx_append]
      simp
    · rw [hqueue]
      exact Dict.mem_keys_of_mem_items hmem
    · rw [hqueue]
      exact fun d hd => AList.mem_keys.mp (hknown item hmem d hd)
    · simp only [hqueue, hnum, hleft]
      rw [List.getElem?_append_right (by simp)]
      simp
  · rintro _ rfl
    simp [← hrows]
  · rintro _ _ rfl
    simp

/-- The edge of a pair, from the first of its links. -/
def edgeFor (status : LinkStatus) (queue : List ℕ) (links : LinkTableApi) (availableWidth : ℚ)
    (key : ℕ × ℕ) (k : ℕ) : Edge :=
  let ev := ((links.get? key).bind fun d => d.values.head?).map status
  { id := k
    vertexId0 := num queue key.1
    vertexId1 := num queue key.2
    width := (ev.bind Link.totalBand).getD 0
    availableWidth
    delay := (ev.bind Link.delay).getD 0
    cost := Rounding.double.div ((ev.bind Link.cost).getD 0) costIndex }

theorem exec_setEdge {link : Link} (h : Readable status s.switchQueue item)
    (hlink : item.2.values.head? = some link) (hk : s.edgeQueue.idxOf? item.1 = some k)
    (he : s.edges[k]? = some e) :
    (setEdge status item).exec s = (.ok (k, status link), { s with
      edges := s.edges.set k { e with
        id := k
        vertexId0 := num s.switchQueue item.1.1
        vertexId1 := num s.switchQueue item.1.2
        delay := (status link).delay.getD 0
        cost := Rounding.double.div ((status link).cost.getD 0) costIndex } }) := by
  obtain ⟨hlt, -⟩ := List.getElem?_eq_some_iff.mp he
  obtain ⟨link', hlink', hdelay, hcost, -⟩ := h.link
  obtain rfl := Option.some.inj (hlink.symm.trans hlink')
  obtain ⟨delay, hdelay⟩ := Option.isSome_iff_exists.mp hdelay
  obtain ⟨cost, hcost⟩ := Option.isSome_iff_exists.mp hcost
  have hset : ∀ (e : Edge), (s.edges.set k e)[k]? = some e := fun e => by simp [hlt]
  rw [setEdge, exec_bind_of_ok (exec_get s), hk, ofOption_some, pure_bind,
    exec_bind_of_ok (exec_indexOf h.src), exec_bind_of_ok (exec_indexOf h.dst), hlink,
    ofOption_some, pure_bind]
  dsimp only
  rw [exec_bind_of_ok (exec_writeEdge _ he), toFloat_eq hdelay, toFloat_eq hcost, pure_bind,
    exec_bind_of_ok (exec_writeEdge _ (hset _)), pure_bind]
  simp only [List.set_set]
  rw [exec_bind_of_ok (exec_writeEdge _ (hset _)), hdelay, hcost, List.set_set]
  rfl

theorem edgeFor_eq {link : Link} {availableWidth : ℚ} {queue : List ℕ}
    (hitem : item ∈ links.items) (hlink : item.2.values.head? = some link) :
    edgeFor status queue links availableWidth item.1 k =
      { id := k
        vertexId0 := num queue item.1.1
        vertexId1 := num queue item.1.2
        width := (status link).totalBand.getD 0
        availableWidth
        delay := (status link).delay.getD 0
        cost := Rounding.double.div ((status link).cost.getD 0) costIndex } := by
  rw [edgeFor, Dict.mem_items.mp hitem, Option.bind_some, hlink]
  rfl

theorem exec_setWidth {ev : Link} {width : ℚ} (h : ev.totalBand = some width)
    (he : s.edges[k]? = some e) :
    (setWidth k ev).exec s = (.ok (), { s with edges := s.edges.set k { e with width } }) := by
  rw [setWidth, toFloat_eq h, pure_bind, exec_writeEdge _ he]

theorem exec_initEdge (hitem : item ∈ links.items) (h : Readable status s.switchQueue item)
    (hk : s.edgeQueue.idxOf? item.1 = some k) (he : s.edges[k]? = some {}) :
    (initEdge status item).exec s = (.ok (), { s with
      edges := s.edges.set k (edgeFor status s.switchQueue links 0 item.1 k) }) := by
  obtain ⟨hlt, -⟩ := List.getElem?_eq_some_iff.mp he
  obtain ⟨link, hlink, -, -, htotal⟩ := h.link
  obtain ⟨width, hwidth⟩ := Option.isSome_iff_exists.mp htotal
  rw [initEdge, exec_bind_of_ok (exec_setEdge h hlink hk he)]
  dsimp only
  rw [exec_setWidth hwidth (List.getElem?_set_self hlt), edgeFor_eq hitem hlink, hwidth,
    List.set_set]
  rfl

theorem exec_updateEdge (hitem : item ∈ links.items) (h : Measured status s.switchQueue item)
    (hk : s.edgeQueue.idxOf? item.1 = some k) (he : s.edges[k]? = some {}) :
    (updateEdge status item).exec s = (.ok (), { s with
      edges := s.edges.set k (edgeFor status s.switchQueue links endlessFloat item.1 k) }) := by
  obtain ⟨hlt, -⟩ := List.getElem?_eq_some_iff.mp he
  obtain ⟨link, hlink, -, -, htotal⟩ := h.link
  obtain ⟨width, hwidth⟩ := Option.isSome_iff_exists.mp htotal
  obtain ⟨hband, hne⟩ := h.availableBand link hlink
  obtain ⟨band, hband⟩ := Option.isSome_iff_exists.mp hband
  have hwidthNe : width ≠ 0 := by
    rintro rfl
    exact hne hwidth
  have hset : ∀ e : Edge, (s.edges.set k e)[k]? = some e := fun e => List.getElem?_set_self hlt
  have hlog : ∀ t : MGTables, (logArgs (status link)).exec t = (.ok (), t) := by
    intro t
    rw [logArgs, toFloat_eq hband, toFloat_eq hwidth, pure_bind, pure_bind, if_neg hwidthNe]
    rfl
  rw [updateEdge, exec_bind_of_ok (exec_setEdge h.toReadable hlink hk he)]
  dsimp only
  rw [exec_bind_of_ok (exec_writeEdge _ (hset _)), List.set_set]
  rw [exec_bind_of_ok (exec_setWidth hwidth (hset _)), hlog, edgeFor_eq hitem hlink, hwidth,
    List.set_set]
  rfl

/-- The edges after some pairs were read. -/
def edgesAfter (status : LinkStatus) (links : LinkTableApi) (availableWidth : ℚ) (s : MGTables)
    (done : List (ℕ × ℕ)) : List Edge :=
  s.edgeQueue.mapIdx fun k key =>
    if done.contains key then edgeFor status s.switchQueue links availableWidth key k else {}

/-- A loop that writes the edge of each pair at its number. -/
theorem triple_edges {availableWidth : ℚ}
    {f : (ℕ × ℕ) × Dict (ℕ × ℕ) Link → Py MGTables Unit} (hnodup : s.edgeQueue.Nodup)
    (hkeys : ∀ key ∈ links.keys, key ∈ s.edgeQueue)
    (hedges : s.edges = List.replicate s.edgeQueue.length {})
    (hround : ∀ item ∈ links.items, ∀ (edges : List Edge) (k : ℕ),
      s.edgeQueue.idxOf? item.1 = some k → edges[k]? = some {} →
      (f item).exec { s with edges } = (.ok (), { s with
        edges := edges.set k (edgeFor status s.switchQueue links availableWidth item.1 k) })) :
    Triple (· = s) (links.items.forM f) (fun _ t => t = { s with
      edges := edgesAfter status links availableWidth s links.keys }) fun _ => False := by
  rw [Dict.keys_eq_map_items]
  refine (Triple.forM_split links.items (J := fun items t => t = { s with
    edges := edgesAfter status links availableWidth s (items.map Prod.fst) })
    fun items item rest hsplit => ?_).pre ?_
  · rintro _ rfl
    have hitem : item ∈ links.items := by simp [hsplit]
    obtain ⟨k, hk⟩ := Option.isSome_iff_exists.mp
      (List.isSome_idxOf?.mpr (hkeys _ (Dict.mem_keys_of_mem_items hitem)))
    have hkey : s.edgeQueue[k]? = some item.1 := by
      obtain ⟨hlt, heq, -⟩ := List.idxOf?_eq_some_iff.mp hk
      rw [List.getElem?_eq_getElem hlt, heq]
    have hfresh : item.1 ∉ items.map Prod.fst := by
      have hkeysNodup := Dict.items_nodup_keys links
      rw [hsplit, List.map_append, List.map_cons] at hkeysNodup
      intro hin
      exact (List.nodup_append.mp hkeysNodup).2.2 _ hin _ (List.mem_cons_self ..) rfl
    have hdefault : (edgesAfter status links availableWidth s (items.map Prod.fst))[k]? =
        some {} := by
      rw [edgesAfter, List.getElem?_mapIdx, hkey, Option.map_some, if_neg (by simpa using hfresh)]
    rw [hround item hitem _ k hk hdefault]
    refine congrArg (fun edges => { s with edges }) (List.ext_getElem? fun i => ?_)
    rw [List.getElem?_set, edgesAfter, edgesAfter, List.getElem?_mapIdx, List.getElem?_mapIdx,
      List.length_mapIdx]
    by_cases hi : k = i
    · subst hi
      have hlast : ((items ++ [item]).map Prod.fst).contains item.1 := by simp
      rw [if_pos rfl, if_pos (List.getElem?_eq_some_iff.mp hkey).1, hkey, Option.map_some,
        if_pos hlast]
    · rw [if_neg hi]
      rcases hother : s.edgeQueue[i]? with _ | key
      · rfl
      · have hne : key ≠ item.1 := ne_of_place_ne hnodup (Ne.symm hi) hother hkey
        have hdone : key ∈ (items ++ [item]).map Prod.fst ↔ key ∈ items.map Prod.fst := by
          rw [List.map_append, List.mem_append, List.map_singleton, List.mem_singleton,
            or_iff_left hne]
        simp only [Option.map_some, List.contains_iff_mem, hdone]
  · intro t ht
    have hnew : edgesAfter status links availableWidth s [] = s.edges := by
      rw [hedges]
      exact List.ext_getElem (by simp [edgesAfter]) (by simp [edgesAfter])
    rw [List.map_nil, hnew, ht]

/-! The edges in the rows. -/

/-- An edge as the tables of the other algorithms have it. -/
def Edge.toRow (e : Edge) : EdgeRow := ⟨e.vertexId0, e.vertexId1, e.delay, e.cost, none, e.width⟩

/-- The state while the row between others is filled. -/
def withRow (s : MGTables) (done rest : List Vertex) (v : Vertex) : MGTables :=
  { s with vertexes := done ++ v :: rest }

theorem exec_appendEdge (rest : List Vertex) (hid : v.id = done.length) (i : ℕ) :
    (writeVertex v.id fun v => { v with connectEdge := v.connectEdge ++ [i] }).exec
      (s.withRow done rest v) =
      (.ok (), s.withRow done rest { v with connectEdge := v.connectEdge ++ [i] }) := by
  have hrow : (s.withRow done rest v).vertexes[v.id]? = some v := by
    rw [withRow, hid, List.getElem?_append_right le_rfl, Nat.sub_self, List.getElem?_cons_zero]
  rw [exec_writeVertex _ hrow]
  simp [withRow, hid]

/-- The numbers of the edges are their places. -/
def Numbered (edges : List (Edge × ℕ)) : Prop := ∀ edge ∈ edges, edge.1.id = edge.2

theorem exec_connectNeighbor (rest : List Vertex) (hid : v.id = done.length) (neighbor : ℕ)
    (edges : List (Edge × ℕ)) (hedges : Numbered edges) (row : List ℕ) :
    ((edges.map Prod.fst).forM fun edge =>
      if edge.Joins v.id neighbor then
        writeVertex v.id fun v => { v with connectEdge := v.connectEdge ++ [edge.id] }
      else pure ()).exec (s.withRow done rest { v with connectEdge := row }) =
      (.ok (), s.withRow done rest { v with
        connectEdge := row ++
          joining (edges.map fun edge => (edge.1.toRow, edge.2)) v.id neighbor }) := by
  induction edges generalizing row with
  | nil => simp [joining]
  | cons edge edges ih =>
    have hrest := ih fun e he => hedges e (by simp [he])
    rw [List.map_cons, forM_cons]
    by_cases hjoins : edge.1.Joins v.id neighbor
    · rw [if_pos hjoins,
        exec_bind_of_ok (exec_appendEdge (v := { v with connectEdge := row }) rest hid _), hrest]
      have hrow : edge.1.toRow.Joins v.id neighbor := hjoins
      simp [joining, hrow, hedges edge]
    · rw [if_neg hjoins, exec_bind_of_ok (exec_pure _ _), hrest]
      have hrow : ¬ edge.1.toRow.Joins v.id neighbor := hjoins
      simp [joining, hrow]

/-- A row with the edges to its neighbors. -/
def connectedRow (edges : List Edge) (v : Vertex) : Vertex := { v with
  connectEdge := v.connectEdge ++
    v.connectVertex.flatMap (joining (edges.map Edge.toRow).zipIdx v.id) }

theorem exec_connectNeighbors (rest : List Vertex) (hid : v.id = done.length) (edges : List Edge)
    (hedges : Numbered edges.zipIdx) (neighbors row : List ℕ) :
    (neighbors.forM fun neighbor => edges.forM fun edge =>
      if edge.Joins v.id neighbor then
        writeVertex v.id fun v => { v with connectEdge := v.connectEdge ++ [edge.id] }
      else pure ()).exec (s.withRow done rest { v with connectEdge := row }) =
      (.ok (), s.withRow done rest { v with
        connectEdge := row ++
          neighbors.flatMap (joining (edges.map Edge.toRow).zipIdx v.id) }) := by
  induction neighbors generalizing row with
  | nil => simp
  | cons neighbor neighbors ih =>
    have hround := exec_connectNeighbor (s := s) rest hid neighbor edges.zipIdx hedges row
    rw [List.zipIdx_map_fst] at hround
    rw [forM_cons, exec_bind_of_ok hround, ih, List.flatMap_cons, ← List.append_assoc,
      List.zipIdx_map]
    rfl

theorem exec_connectEdges (rest : List Vertex) (hid : v.id = done.length)
    (hedges : Numbered s.edges.zipIdx) : (connectEdges v).exec (s.withRow done rest v) =
      (.ok (), s.withRow done rest (connectedRow s.edges v)) := by
  rw [connectEdges, exec_bind_of_ok (exec_get _)]
  exact exec_connectNeighbors rest hid s.edges hedges v.connectVertex v.connectEdge

theorem triple_connectRows (hids : s.vertexes.map Vertex.id = List.range s.vertexes.length)
    (hedges : Numbered s.edges.zipIdx) :
    Triple (· = s) (s.vertexes.forM connectEdges) (fun _ t => t = { s with
      vertexes := s.vertexes.map (connectedRow s.edges) }) fun _ => False := by
  refine ((Triple.forM_split s.vertexes (J := fun done t => t = { s with
    vertexes := done.map (connectedRow s.edges) ++ s.vertexes.drop done.length })
    fun done v rest hsplit => ?_).pre ?_).post ?_
  · rintro _ rfl
    have hid : v.id = (done.map (connectedRow s.edges)).length := by
      have hget := congrArg (fun ids : List ℕ => ids[done.length]?) hids
      simpa [hsplit] using hget
    have hdrop : s.vertexes.drop done.length = v :: rest := by
      rw [hsplit, List.drop_left]
    have hnext : s.vertexes.drop (done ++ [v]).length = rest := by
      rw [hsplit, List.length_append, List.length_singleton, ← List.drop_drop, List.drop_left,
        List.drop_one, List.tail_cons]
    have hexec := exec_connectEdges (s := s) rest hid hedges
    rw [withRow] at hexec
    rw [hdrop, hexec, hnext]
    simp [withRow]
  · rintro _ rfl
    rfl
  · rintro _ _ rfl
    simp

/-- Edges stand where their pairs stand. -/
def Ends (switches : SwitchTable) (links : LinkTableApi) (edges : List Edge) : Prop :=
  (edges.map Edge.toRow).map EdgeRow.ends = links.keys.map (pairNums switches.keys)

/-- What the tables hold from the initialization on. -/
structure Filled (switches : SwitchTable) (links : LinkTableApi) (t : MGTables) : Prop where
  queue : t.switchQueue = switches.keys
  edgeQueue : t.edgeQueue = links.keys
  ends : Ends switches links t.edges
  rows : ∃ edges, Ends switches links edges ∧
    t.vertexes = (switches.items.mapIdx fun i item => neighborRow switches.keys item i).map
      (connectedRow edges)

theorem ends_edgesAfter {availableWidth : ℚ} {done : List (ℕ × ℕ)}
    (hdone : ∀ key ∈ s.edgeQueue, key ∈ done) :
    ((edgesAfter status links availableWidth s done).map Edge.toRow).map EdgeRow.ends =
      s.edgeQueue.map (pairNums s.switchQueue) := by
  refine List.ext_getElem (by simp [edgesAfter]) fun i hi hi' => ?_
  rw [List.length_map] at hi'
  simp only [edgesAfter, List.getElem_map, List.getElem_mapIdx,
    if_pos (List.contains_iff_mem.mpr (hdone _ (List.getElem_mem hi')))]
  rfl

theorem numbered_edgesAfter {availableWidth : ℚ} {done : List (ℕ × ℕ)}
    (hdone : ∀ key ∈ s.edgeQueue, key ∈ done) :
    Numbered (edgesAfter status links availableWidth s done).zipIdx := by
  intro edge hedge
  have hget := List.mk_mem_zipIdx_iff_getElem?.mp hedge
  rw [edgesAfter, List.getElem?_mapIdx, Option.map_eq_some_iff] at hget
  obtain ⟨key, hkey, heq⟩ := hget
  rw [if_pos (List.contains_iff_mem.mpr (hdone _ (List.mem_of_getElem? hkey)))] at heq
  rw [← heq]
  rfl

theorem filled_fillVertexesAndEdges
    (hknown : ∀ item ∈ switches.items, ∀ d ∈ item.2.neighbors.keys, d ∈ switches)
    (hreadable : ∀ item ∈ links.items, Readable status switches.keys item) :
    Triple (· = {}) (fillVertexesAndEdges status switches links) (fun _ t =>
      Filled switches links t ∧ t.edges = edgesAfter status links 0 t links.keys)
      fun _ => False := by
  have hsize : links.items.length = links.keys.length := by
    rw [Dict.keys_eq_map_items, List.length_map]
  refine Triple.bind (Triple.modify (Q := fun _ => (· = {
    switchQueue := switches.keys
    edgeQueue := links.keys
    vertexes := List.replicate switches.items.length {}
    edges := List.replicate links.items.length {} })) ?_) fun _ => ?_
  · rintro _ rfl
    rfl
  refine Triple.bind (triple_setVertexes rfl hknown rfl) fun _ => ?_
  refine Triple.bind (triple_edges links.keys_nodup (fun _ h => h) (by rw [hsize])
    fun item hitem edges k hk he => exec_initEdge hitem (hreadable item hitem) hk he) fun _ => ?_
  refine Triple.reads ?_
  rintro _ rfl
  refine (triple_connectRows ?_ ?_).post ?_
  · simp [List.mapIdx_eq_zipIdx_map, Function.comp_def, neighborRow, List.range_eq_range']
  · exact numbered_edgesAfter fun _ h => h
  · rintro _ _ rfl
    have hends : Ends switches links (edgesAfter status links 0
        { switchQueue := switches.keys, edgeQueue := links.keys } links.keys) :=
      ends_edgesAfter fun _ h => h
    exact ⟨⟨rfl, rfl, hends, _, hends, rfl⟩, rfl⟩

/-- A snapshot of the same pairs writes new edges at the old numbers. -/
theorem exec_updateLinkStatus {initial : LinkTableApi} (h : Filled switches initial s)
    (hkeys : links.keys.Perm initial.keys)
    (hmeasured : ∀ item ∈ links.items, Measured status switches.keys item) :
    (updateLinkStatus status links).exec s = (.ok (), { s with
      edges := edgesAfter status links endlessFloat s links.keys }) ∧
    Filled switches initial { s with
      edges := edgesAfter status links endlessFloat s links.keys } := by
  have hin : ∀ key ∈ s.edgeQueue, key ∈ links.keys := by
    rw [h.edgeQueue]
    exact fun key hkey => hkeys.mem_iff.mpr hkey
  constructor
  · have hsize : links.items.length = s.edgeQueue.length := by
      rw [h.edgeQueue, ← hkeys.length_eq, Dict.keys_eq_map_items, List.length_map]
    have hloop : Triple (· = { s with edges := List.replicate links.items.length {} })
        (links.items.forM (updateEdge status)) (fun _ t => t = { s with
          edges := edgesAfter status links endlessFloat s links.keys }) fun _ => False := by
      refine triple_edges ?_ ?_ (by rw [hsize]) fun item hitem edges k hk he => ?_
      · change s.edgeQueue.Nodup
        rw [h.edgeQueue]
        exact initial.keys_nodup
      · change ∀ key ∈ links.keys, key ∈ s.edgeQueue
        rw [h.edgeQueue]
        exact fun key hkey => hkeys.mem_iff.mp hkey
      · exact exec_updateEdge hitem (h.queue ▸ hmeasured item hitem) hk he
    obtain ⟨_, t, hexec, rfl⟩ := hloop.returns rfl
    rw [updateLinkStatus, exec_bind_of_ok (exec_modify _ _), hexec]
  · refine ⟨h.queue, h.edgeQueue, ?_, h.rows⟩
    rw [Ends, ends_edgesAfter hin, h.edgeQueue, h.queue]

end exec

end MGTables
end SDRoute
