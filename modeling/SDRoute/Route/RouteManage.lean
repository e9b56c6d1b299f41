import SDRoute.Algorithm.RouteAlgorithm
import SDRoute.Topology.TopologyManage

/-! The route manager, the table of the link monitor and the topology manager side by side:
what the events of the links and of the two timers, and the route requests, do to them. -/
namespace SDRoute

structure RouteManage where
  initStatus : Bool := false
  algorithmState : Bool := false
  multicastAlgorithmState : Bool := false
  switches : Option SwitchTable := none
  links : Option LinkTableApi := none
  algorithm : RouteAlgorithm := {}
  multicastAlgorithm : AlgorithmTables := {}
deriving DecidableEq

namespace RouteManage

def onAlgorithm {α : Type} (x : Py RouteAlgorithm α) : Py RouteManage α :=
  Py.zoom algorithm (fun s algorithm => { s with algorithm }) x

def onMulticastAlgorithm {α : Type} (x : Py AlgorithmTables α) : Py RouteManage α :=
  Py.zoom multicastAlgorithm (fun s multicastAlgorithm => { s with multicastAlgorithm }) x

/-- Only the first event that is handled to its end counts. -/
def topoInitHandler (status : LinkStatus) (switches : SwitchTable) (linkTable : LinkTableApi) :
    Py RouteManage Unit := do
  let s ← get
  if s.initStatus then
    return
  modify fun s => { s with links := some linkTable, switches := some switches }
  onAlgorithm (RouteAlgorithm.initAlgorithm status switches linkTable)
  modify fun s => { s with algorithmState := true }
  onMulticastAlgorithm (AlgorithmTables.initAlgorithm status switches linkTable)
  modify fun s => { s with multicastAlgorithmState := true }
  modify fun s => { s with initStatus := true }

def linkDeleteHandler (status : LinkStatus) (switches : SwitchTable) (links : LinkTableApi) :
    Py RouteManage Unit :=
  onAlgorithm (RouteAlgorithm.initAlgorithm status switches links)

/-- Requests before the algorithm is initialized are dropped, and one within a switch needs
no algorithm. -/
def routeRequest (nx : NetworkX) (status : LinkStatus) (globalLinkTable : LinkTableApi)
    (draw : ℚ) (srcDpid dstDpid : ℕ) (businessType : ℚ) :
    Py RouteManage (Option (List ℕ)) := do
  let s ← get
  if s.algorithmState then
    if srcDpid = dstDpid then
      return some [srcDpid]
    else
      onAlgorithm (RouteAlgorithm.updateLinkStatus status globalLinkTable)
      onAlgorithm (RouteAlgorithm.run nx draw srcDpid dstDpid businessType)
      let (linkList, _) ← onAlgorithm RouteAlgorithm.getLink
      return linkList
  else
    return none

end RouteManage

structure System where
  topology : TopologyManage
  globalLinkTable : LinkTableApi := ∅
  routeManage : RouteManage := {}
deriving DecidableEq

namespace System

inductive Event
  | linkAdd (src dst : Port)
  | linkDelete (src dst : Port) (status : LinkStatus)
  | topoInitializeEnd (status : LinkStatus)
  | startLinkMonitor
  | request (status : LinkStatus) (draw : ℚ) (srcDpid dstDpid : ℕ) (businessType : ℚ)

/-- Before any link is reported. -/
def init (switches : SwitchTable) : System := { topology := { switches } }

/-- A timer that is not pending does not expire. -/
def step (nx : NetworkX) (s : System) : Event → System
  | .linkAdd src dst => { s with topology := s.topology.step (.add src dst) }
  | .linkDelete src dst status =>
    let (topology, apiLinks) := s.topology.linkDeleteHandler src dst
    match apiLinks with
    | none => { s with topology }
    | some links => { s with
      topology
      routeManage :=
        ((RouteManage.linkDeleteHandler status topology.switches links).exec s.routeManage).2 }
  | .topoInitializeEnd status =>
    match s.topology.topoInitializeEnd with
    | none => s
    | some linkTable => { s with
      topology := { s.topology with topoInitializeEnd := none }
      routeManage := ((RouteManage.topoInitHandler status s.topology.switches linkTable).exec
        s.routeManage).2 }
  | .startLinkMonitor =>
    match s.topology.startLinkMonitor with
    | none => s
    | some linkTable => { s with
      topology := { s.topology with startLinkMonitor := none }
      globalLinkTable := linkTable }
  | .request status draw srcDpid dstDpid businessType => { s with
      routeManage := ((RouteManage.routeRequest nx status s.globalLinkTable draw srcDpid dstDpid
        businessType).exec s.routeManage).2 }

end System
end SDRoute
