import Mathlib.Data.List.Chain
import SDRoute.Algorithm.AlgorithmTables

/-! The unicast algorithm: a shortest path over the edges of the monitored links. -/
namespace SDRoute

/-- A graph of networkx: the edges that were added to it, in order. -/
abbrev Graph := List Edge

namespace Graph

def Joins (a b : ℕ) (e : Edge) : Bool :=
  (e.src = a ∧ e.dst = b) ∨ (e.src = b ∧ e.dst = a)

/-- `graph.edge[a][b]`: an edge that is added again replaces the data of the earlier one. -/
def edge? (graph : Graph) (a b : ℕ) : Option Edge := graph.reverse.find? (Joins a b)

def Adj (graph : Graph) (a b : ℕ) : Prop := ∃ e ∈ graph, Joins a b e

end Graph

/-- The functions of networkx that the algorithms call. -/
structure NetworkX where
  dijkstraPath (graph : Graph) (src dst : ℕ) (weight : Edge → ℚ) : Except Exc (List ℕ)
  isConnected (graph : Graph) : Bool

/-- What the documentation of `dijkstra_path` promises of the path that it returns. -/
structure NetworkX.Documented (nx : NetworkX) : Prop where
  head {graph src dst weight path} :
    nx.dijkstraPath graph src dst weight = .ok path → path.head? = some src
  last {graph src dst weight path} :
    nx.dijkstraPath graph src dst weight = .ok path → path.getLast? = some dst
  chain {graph src dst weight path} :
    nx.dijkstraPath graph src dst weight = .ok path → path.IsChain graph.Adj

structure RouteAlgorithm extends AlgorithmTables where
  srcNode : Option ℕ := none
  dstNode : Option ℕ := none
  minAvailableBandwidth : ℚ := 0
  loss : ℚ := 0
  delay : ℚ := 0
  band : ℚ := 0
  path : Option (List ℕ) := none
deriving DecidableEq

namespace RouteAlgorithm
variable {nx : NetworkX} {status : LinkStatus} {links : LinkTableApi} {s t : RouteAlgorithm}

def onTables (x : Py AlgorithmTables Unit) : Py RouteAlgorithm Unit :=
  Py.zoom toAlgorithmTables (fun s tables => { s with toAlgorithmTables := tables }) x

def initAlgorithm (status : LinkStatus) (switches : SwitchTable) (links : LinkTableApi) :
    Py RouteAlgorithm Unit :=
  onTables (AlgorithmTables.initAlgorithm status switches links)

def updateLinkStatus (status : LinkStatus) (links : LinkTableApi) : Py RouteAlgorithm Unit :=
  onTables (AlgorithmTables.updateLinkStatus status links)

structure PathProperty where
  delay : ℚ := 0
  loss : ℚ := 1
  bandwidth : ℚ := 99999999999999999 / 10

/-- Delays add up, losses multiply, and the narrowest edge gives the bandwidth. -/
def addHop (graph : Graph) (p : PathProperty) (hop : ℕ × ℕ) : Except Exc PathProperty :=
  match graph.edge? hop.1 hop.2 with
  | none => .error .keyError
  | some e => .ok {
      delay := p.delay + e.delay
      loss := p.loss * (1 - e.loss)
      bandwidth := if p.bandwidth > e.band then e.band else p.bandwidth }

/-- A draw below one half weighs the edges by delay, the others by loss. -/
def main (nx : NetworkX) (draw : ℚ) : Py RouteAlgorithm Unit := do
  let s ← get
  let src ← Py.ofOption .keyError s.srcNode
  let dst ← Py.ofOption .keyError s.dstNode
  let weight := if draw < 1 / 2 then Edge.delay else Edge.loss
  let path ← Py.ofExcept (nx.dijkstraPath s.edges src dst weight)
  modify fun s => { s with path := some path }
  let p ← Py.ofExcept ((path.zip path.tail).foldlM (addHop s.edges) {})
  modify fun s => { s with delay := p.delay, loss := 1 - p.loss, band := p.bandwidth }

def run (nx : NetworkX) (draw : ℚ) (srcDpid dstDpid : ℕ) (minAvailableBandwidth : ℚ) :
    Py RouteAlgorithm Unit := do
  modify fun s => { s with srcNode := some srcDpid, dstNode := some dstDpid,
                           minAvailableBandwidth }
  main nx draw

def getLink : Py RouteAlgorithm (Option (List ℕ) × ℚ) := do
  let s ← get
  return (s.path, s.delay)

/-- A path that `main` computes runs over the edges. -/
theorem isChain_of_run (hnx : nx.Documented) {draw band : ℚ} {src dst : ℕ}
    (h : (run nx draw src dst band).exec s = (.ok (), t)) :
    ∃ path, t.path = some path ∧ path.IsChain (Graph.Adj s.edges) := by
  rw [run, Py.exec_bind_of_ok (Py.exec_modify _ _), main, Py.exec_bind_of_ok (Py.exec_get _)] at h
  obtain ⟨src, u, hsrc, h⟩ := Py.exec_bind_ok.mp h
  obtain ⟨-, rfl⟩ := Py.exec_ofOption_ok.mp hsrc
  obtain ⟨dst, u, hdst, h⟩ := Py.exec_bind_ok.mp h
  obtain ⟨-, rfl⟩ := Py.exec_ofOption_ok.mp hdst
  obtain ⟨path, u, hpath, h⟩ := Py.exec_bind_ok.mp h
  rw [Py.exec_ofExcept] at hpath
  obtain ⟨hchosen, rfl⟩ := Prod.mk.inj hpath
  rw [Py.exec_bind_of_ok (Py.exec_modify _ _)] at h
  obtain ⟨p, u, hp, h⟩ := Py.exec_bind_ok.mp h
  rw [Py.exec_ofExcept] at hp
  obtain ⟨-, rfl⟩ := Prod.mk.inj hp
  obtain ⟨-, rfl⟩ := Prod.mk.inj h
  exact ⟨path, rfl, hnx.chain hchosen⟩

/-- The update answers from the tables only, and leaves the rest as it is. -/
theorem exec_updateLinkStatus (hqueue : ∀ key ∈ links, key ∈ s.linkQueue)
    (hfilled : ∀ item ∈ links.items, item.2.values ≠ [])
    (hmeasured : AlgorithmTables.Measured status links) :
    ∃ t, (updateLinkStatus status links).exec s = (.ok (), t) ∧
      t.toAlgorithmTables.EdgesFrom links := by
  obtain ⟨t, ht, hedges⟩ := AlgorithmTables.exec_updateLinkStatus hqueue hfilled hmeasured
  refine ⟨{ s with toAlgorithmTables := t }, ?_, hedges⟩
  rw [updateLinkStatus, onTables, Py.exec_zoom, ht]

theorem linkQueue_initAlgorithm (status : LinkStatus) (switches : SwitchTable)
    (links : LinkTableApi) (s : RouteAlgorithm) :
    ((initAlgorithm status switches links).exec s).2.linkQueue = links.keys := by
  rw [initAlgorithm, onTables, Py.exec_zoom]
  exact AlgorithmTables.linkQueue_initAlgorithm status switches links _

section keeps
variable {queue : List (ℕ × ℕ)}

theorem keeps_updateLinkStatus (links : LinkTableApi) :
    Py.Keeps (fun s : RouteAlgorithm => s.linkQueue = queue) (updateLinkStatus status links) := by
  rw [updateLinkStatus, onTables]
  exact Py.Keeps.zoom (J := fun s => s.linkQueue = queue)
    (AlgorithmTables.keeps_updateLinkStatus (fun _ _ h hs => h.trans hs) links)
    (fun _ h => h) (fun _ _ _ h => h)

theorem keeps_run (nx : NetworkX) (draw : ℚ) (src dst : ℕ) (band : ℚ) :
    Py.Keeps (fun s : RouteAlgorithm => s.linkQueue = queue) (run nx draw src dst band) := by
  refine Py.Keeps.bind (Py.Keeps.modify fun _ h => h) fun _ => Py.Keeps.bind Py.Keeps.get
    fun s => ?_
  refine Py.Keeps.bind (Py.Keeps.ofOption _ _) fun _ => Py.Keeps.bind (Py.Keeps.ofOption _ _)
    fun _ => Py.Keeps.bind (Py.Keeps.ofExcept _) fun _ => ?_
  refine Py.Keeps.bind (Py.Keeps.modify fun _ h => h) fun _ => ?_
  exact Py.Keeps.bind (Py.Keeps.ofExcept _) fun _ => Py.Keeps.modify fun _ h => h

end keeps

end RouteAlgorithm
end SDRoute
