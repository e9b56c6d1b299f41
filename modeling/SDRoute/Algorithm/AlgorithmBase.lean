import SDRoute.Algorithm.AlgorithmTables
import SDRoute.Algorithm.PathSearch

/-! The tables of the algorithms on numbered switches, and how they are filled from the topology
and from the monitored links. -/
namespace SDRoute

/-- Row of an edge. The available band of a link that is not measured yet is unset. -/
structure EdgeRow where
  src : ℕ
  dst : ℕ
  delay : ℚ
  cost : ℚ
  availableBand : Option ℚ
  totalBand : ℚ
deriving DecidableEq, Repr

def EdgeRow.Joins (e : EdgeRow) (a b : ℕ) : Prop :=
  (e.src = a ∧ e.dst = b) ∨ (e.src = b ∧ e.dst = a)

instance (e : EdgeRow) (a b : ℕ) : Decidable (e.Joins a b) :=
  inferInstanceAs (Decidable (_ ∨ _))

structure Algorithm where
  switchQueue : List ℕ := []
  switchNeighbors : Dict ℕ (List ℕ) := ∅
  vertexs : Vertexs := []
  edges : List EdgeRow := []
  links : List (List ℕ) := []
  fitness : List ℚ := []
  linkCache : Dict (ℕ × ℕ) (List ℕ) := ∅
deriving DecidableEq

namespace Algorithm

def toFloat (x : Option ℚ) : Py Algorithm ℚ := Py.ofOption .typeError x

def indexOf (dpid : ℕ) : Py Algorithm ℕ := do
  let s ← get
  Py.ofOption .valueError (s.switchQueue.idxOf? dpid)

def setNeighbors (item : ℕ × Switch) : Py Algorithm Unit := do
  let num ← indexOf item.1
  let neighborsInNum ← item.2.neighbors.keys.mapM indexOf
  modify fun s => { s with switchNeighbors := s.switchNeighbors.set num neighborsInNum }

/-- Adds the edge of a pair of switches, from the first of its links, with what `readBand`
makes of the available band. Returns that link. -/
def makeEdge (status : LinkStatus) (readBand : Option ℚ → Py Algorithm (Option ℚ))
    (item : (ℕ × ℕ) × Dict (ℕ × ℕ) Link) : Py Algorithm Link := do
  let srcNum ← indexOf item.1.1
  let dstNum ← indexOf item.1.2
  let link ← Py.ofOption .indexError item.2.values.head?
  let ev := status link
  let delay ← toFloat ev.delay
  let cost ← toFloat ev.cost
  let availableBand ← readBand ev.availableBand
  let totalBand ← toFloat ev.totalBand
  modify fun s => { s with edges := s.edges ++
    [{ src := srcNum, dst := dstNum, delay, cost, availableBand, totalBand }] }
  return ev

/-- The keys are the numbers below the size, and such keys are walked in their order. -/
def neighborItems (s : Algorithm) : List (ℕ × List ℕ) :=
  (List.range s.switchNeighbors.items.length).filterMap fun num =>
    (s.switchNeighbors.get? num).map fun neighbors => (num, neighbors)

/-- The number of an edge is added to the row of a vertex. -/
def addEdgeNum (srcNum num : ℕ) : Py Algorithm Unit := do
  let s ← get
  let vertex ← Py.ofOption .indexError s.vertexs[srcNum]?
  modify fun s => { s with
    vertexs := s.vertexs.set srcNum { vertex with edges := vertex.edges ++ [num] } }

def addVertex (item : ℕ × List ℕ) : Py Algorithm Unit := do
  modify fun s => { s with vertexs := s.vertexs ++
    [{ degree := item.2.length, neighbors := item.2, edges := [] }] }
  let s ← get
  item.2.forM fun dstNum =>
    s.edges.zipIdx.forM fun edge =>
      if edge.1.Joins item.1 dstNum then addEdgeNum item.1 edge.2 else pure ()

def initAlgorithm (status : LinkStatus) (switches : SwitchTable) (links : LinkTableApi) :
    Py Algorithm Unit := do
  set ({ switchQueue := switches.keys } : Algorithm)
  switches.items.forM setNeighbors
  links.items.forM fun item => discard (makeEdge status pure item)
  let s ← get
  s.neighborItems.forM addVertex

/-- The arguments of the log message of an edge: the usage divides by the total band. -/
def logArgs (ev : Link) : Py Algorithm Unit := do
  let _ ← toFloat ev.availableBand
  let totalBand ← toFloat ev.totalBand
  if totalBand = 0 then throw .zeroDivisionError

/-- Only the edges are new; the numbers of the rows stay. -/
def updateLinkStatus (status : LinkStatus) (links : LinkTableApi) : Py Algorithm Unit := do
  modify fun s => { s with edges := [] }
  links.items.forM fun item => do
    logArgs (← makeEdge status (fun band => some <$> toFloat band) item)

/-- What a path costs: the first edge found for each hop counts. -/
def linkCost (edges : List EdgeRow) (linksInNum : List ℕ) : ℚ :=
  ((linksInNum.zip linksInNum.tail).map fun hop =>
    ((edges.find? fun e => e.Joins hop.1 hop.2).map EdgeRow.cost).getD 0).sum

end Algorithm
end SDRoute
