import SDRoute.Topology.Switch

/-! The tables that the route algorithms keep of the topology. The unicast and the multicast
algorithm fill them with the same code. -/
namespace SDRoute

structure Node where
  id : ℕ
  degree : ℕ
  connectNode : List ℕ
deriving DecidableEq, Repr

structure Edge where
  id : ℕ
  src : ℕ
  dst : ℕ
  delay : ℚ
  band : ℚ
  loss : ℚ
deriving DecidableEq, Repr

structure AlgorithmTables where
  switchQueue : List ℕ := []
  linkQueue : List (ℕ × ℕ) := []
  nodes : List Node := []
  edges : List Edge := []
  numNodes : ℕ := 0
  numEdges : ℕ := 0
deriving DecidableEq, Repr

/-- Snapshots share the link objects of the link table: `status` gives a link with the
properties that the configuration and the monitor have written to it by the time of a call. -/
abbrev LinkStatus := Link → Link

namespace AlgorithmTables
variable {status : LinkStatus} {links : LinkTableApi} {s t : AlgorithmTables}

/-- `float` of a property that may be unset. -/
def toFloat (x : Option ℚ) : Py AlgorithmTables ℚ := Py.ofOption .typeError x

def makeNode (item : ℕ × Switch) : Py AlgorithmTables Unit := do
  let s ← get
  let index ← Py.ofOption .valueError (s.switchQueue.idxOf? item.1)
  let neighborsIndex ← item.2.neighbors.keys.mapM fun dpid =>
    Py.ofOption .valueError (s.switchQueue.idxOf? dpid)
  modify fun s => { s with nodes := s.nodes ++
    [{ id := index, degree := neighborsIndex.length, connectNode := neighborsIndex }] }

/-- Adds the edge of a pair of switches, from the first of its links. Returns that link. -/
def makeEdge (status : LinkStatus) (item : (ℕ × ℕ) × Dict (ℕ × ℕ) Link) :
    Py AlgorithmTables Link := do
  let s ← get
  let index ← Py.ofOption .valueError (s.linkQueue.idxOf? item.1)
  let link ← Py.ofOption .indexError item.2.values.head?
  let value := status link
  let pktLoss ← toFloat value.pktLoss
  let delay ← toFloat value.delay
  let totalBand ← toFloat value.totalBand
  let edge := { id := index, src := item.1.1, dst := item.1.2, delay, band := totalBand,
                loss := pktLoss / 100 }
  modify fun s => { s with edges := s.edges ++ [edge] }
  return value

/-- Nodes and edges are added to those of earlier calls. -/
def initAlgorithm (status : LinkStatus) (switches : SwitchTable) (links : LinkTableApi) :
    Py AlgorithmTables Unit := do
  modify fun s => { s with switchQueue := switches.keys, linkQueue := links.keys }
  switches.items.forM makeNode
  links.items.forM fun item => discard (makeEdge status item)
  modify fun s => { s with numNodes := s.nodes.length, numEdges := s.edges.length }

/-- The arguments of the log message of an edge: the usage divides by the total band. -/
def logArgs (value : Link) : Py AlgorithmTables Unit := do
  let _ ← toFloat value.availableBand
  let totalBand ← toFloat value.totalBand
  if totalBand = 0 then throw .zeroDivisionError

def updateLinkStatus (status : LinkStatus) (links : LinkTableApi) :
    Py AlgorithmTables Unit := do
  modify fun s => { s with edges := [] }
  links.items.forM fun item => do logArgs (← makeEdge status item)
  modify fun s => { s with numEdges := s.edges.length }

/-- The properties of the link are configured and measured. -/
structure IsMeasured (value : Link) : Prop where
  pktLoss : value.pktLoss.isSome
  delay : value.delay.isSome
  availableBand : value.availableBand.isSome
  totalBand : ∃ band, value.totalBand = some band ∧ band ≠ 0

def Measured (status : LinkStatus) (links : LinkTableApi) : Prop :=
  ∀ item ∈ links.items, ∀ link ∈ item.2.values, IsMeasured (status link)

theorem exec_makeEdge {item : (ℕ × ℕ) × Dict (ℕ × ℕ) Link} (hqueue : item.1 ∈ s.linkQueue)
    (hfilled : item.2.values ≠ [])
    (hmeasured : ∀ link ∈ item.2.values, IsMeasured (status link)) :
    ∃ value e, IsMeasured value ∧ (e.src, e.dst) = item.1 ∧
      (makeEdge status item).exec s = (.ok value, { s with edges := s.edges ++ [e] }) := by
  obtain ⟨index, hindex⟩ := Option.isSome_iff_exists.mp (List.isSome_idxOf?.mpr hqueue)
  obtain ⟨link, hlink⟩ : ∃ link, item.2.values.head? = some link :=
    ⟨_, List.head?_eq_some_head hfilled⟩
  have hm := hmeasured link (List.mem_of_mem_head? hlink)
  obtain ⟨loss, hloss⟩ := Option.isSome_iff_exists.mp hm.pktLoss
  obtain ⟨delay, hdelay⟩ := Option.isSome_iff_exists.mp hm.delay
  obtain ⟨band, hband, -⟩ := hm.totalBand
  let e : Edge := ⟨index, item.1.1, item.1.2, delay, band, loss / 100⟩
  refine ⟨status link, e, hm, rfl, ?_⟩
  simp [makeEdge, hindex, hlink, hloss, hdelay, hband, toFloat, Py.exec_bind, e, Except.map]

theorem exec_logArgs {value : Link} (h : IsMeasured value) :
    (logArgs value).exec s = (.ok (), s) := by
  obtain ⟨available, havailable⟩ := Option.isSome_iff_exists.mp h.availableBand
  obtain ⟨band, hband, hne⟩ := h.totalBand
  simp [logArgs, toFloat, havailable, hband, hne]

/-- The edges that the tables hold are those of pairs of `links`. -/
def EdgesFrom (links : LinkTableApi) (s : AlgorithmTables) : Prop :=
  ∀ e ∈ s.edges, (e.src, e.dst) ∈ links

/-- All pairs of the snapshot are found in the queue: the update returns, and leaves the
edges of these pairs and no others. -/
theorem exec_updateLinkStatus (hqueue : ∀ key ∈ links, key ∈ s.linkQueue)
    (hfilled : ∀ item ∈ links.items, item.2.values ≠ []) (hmeasured : Measured status links) :
    ∃ t, (updateLinkStatus status links).exec s = (.ok (), t) ∧ EdgesFrom links t := by
  have hround : ∀ item ∈ links.items, ∀ s : AlgorithmTables,
      (∀ key ∈ links, key ∈ s.linkQueue) ∧ EdgesFrom links s →
      ∃ t, (makeEdge status item >>= logArgs).exec s = (.ok (), t) ∧
        (∀ key ∈ links, key ∈ t.linkQueue) ∧ EdgesFrom links t := by
    rintro item hitem s ⟨hqueue, hedges⟩
    have hkey : item.1 ∈ links := Dict.mem_iff_get?.mpr ⟨item.2, Dict.mem_items.mp hitem⟩
    obtain ⟨value, e, hvalue, he, hexec⟩ :=
      exec_makeEdge (hqueue _ hkey) (hfilled item hitem) (hmeasured item hitem)
    refine ⟨_, (Py.exec_bind_of_ok hexec).trans (exec_logArgs hvalue), hqueue, ?_⟩
    intro e' he'
    rcases List.mem_append.mp he' with he' | he'
    · exact hedges e' he'
    · rw [List.mem_singleton.mp he', he]
      exact hkey
  obtain ⟨t, ht, -, hedges⟩ := Py.exec_forM_of_ok hround
    (s := { s with edges := [] }) ⟨hqueue, fun e he => by cases he⟩
  refine ⟨{ t with numEdges := t.edges.length }, ?_, hedges⟩
  rw [updateLinkStatus, Py.exec_bind_of_ok (Py.exec_modify _ _), Py.exec_bind_of_ok ht]
  rfl

theorem keeps_logArgs {I : AlgorithmTables → Prop} (value : Link) :
    Py.Keeps I (logArgs value) := by
  refine Py.Keeps.bind (Py.Keeps.ofOption _ _) fun _ => ?_
  refine Py.Keeps.bind (Py.Keeps.ofOption _ _) fun _ => ?_
  exact Py.Keeps.ite (Py.Keeps.throw _) (Py.Keeps.pure _)

section keeps
variable {I : AlgorithmTables → Prop} (hI : ∀ s t : AlgorithmTables, t.linkQueue = s.linkQueue →
  I s → I t)
include hI

theorem keeps_makeNode (item : ℕ × Switch) : Py.Keeps I (makeNode item) := by
  refine Py.Keeps.bind Py.Keeps.get fun s => Py.Keeps.bind (Py.Keeps.ofOption _ _) fun _ => ?_
  refine Py.Keeps.bind (Py.Keeps.mapM fun _ _ => Py.Keeps.ofOption _ _) fun _ => ?_
  exact Py.Keeps.modify fun s h => hI s _ rfl h

theorem keeps_makeEdge (item : (ℕ × ℕ) × Dict (ℕ × ℕ) Link) :
    Py.Keeps I (makeEdge status item) := by
  refine Py.Keeps.bind Py.Keeps.get fun s => Py.Keeps.bind (Py.Keeps.ofOption _ _) fun _ => ?_
  refine Py.Keeps.bind (Py.Keeps.ofOption _ _) fun _ => ?_
  refine Py.Keeps.bind (Py.Keeps.ofOption _ _) fun _ => ?_
  refine Py.Keeps.bind (Py.Keeps.ofOption _ _) fun _ => ?_
  refine Py.Keeps.bind (Py.Keeps.ofOption _ _) fun _ => ?_
  exact Py.Keeps.bind (Py.Keeps.modify fun s h => hI s _ rfl h) fun _ => Py.Keeps.pure _

theorem keeps_updateLinkStatus (links : LinkTableApi) :
    Py.Keeps I (updateLinkStatus status links) := by
  refine Py.Keeps.bind (Py.Keeps.modify fun s h => hI s _ rfl h) fun _ => ?_
  refine Py.Keeps.bind (Py.Keeps.forM fun item _ => ?_) fun _ => ?_
  · exact Py.Keeps.bind (keeps_makeEdge hI item) fun value => keeps_logArgs value
  · exact Py.Keeps.modify fun s h => hI s _ rfl h

end keeps

/-- Whether the initialization returns or raises, the queue holds the pairs of the snapshot. -/
theorem linkQueue_initAlgorithm (status : LinkStatus) (switches : SwitchTable)
    (links : LinkTableApi) (s : AlgorithmTables) :
    ((initAlgorithm status switches links).exec s).2.linkQueue = links.keys := by
  rw [initAlgorithm, Py.exec_bind_of_ok (Py.exec_modify _ _)]
  have hI : ∀ s t : AlgorithmTables, t.linkQueue = s.linkQueue →
      s.linkQueue = links.keys → t.linkQueue = links.keys := fun s t h hs => h.trans hs
  refine Py.Keeps.bind (I := fun s : AlgorithmTables => s.linkQueue = links.keys)
    (Py.Keeps.forM fun item _ => keeps_makeNode hI item) (fun _ => ?_) _ rfl
  refine Py.Keeps.bind (Py.Keeps.forM fun item _ => ?_) fun _ => ?_
  · exact Py.Keeps.map (keeps_makeEdge hI item)
  · exact Py.Keeps.modify fun _ h => h

end AlgorithmTables
end SDRoute
