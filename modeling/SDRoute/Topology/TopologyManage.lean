import SDRoute.Lib.Machine
import SDRoute.Topology.LinkInvariant
import SDRoute.Topology.Switch

/-! The handlers of link events: they keep the undirected link table and the directed
neighbor entries, and set the two timers that publish a snapshot of the links. -/
namespace SDRoute

/-- The tables, and the snapshots that the pending timers carry. -/
structure TopologyManage where
  switches : SwitchTable
  links : LinkTable := ∅
  topoInitializeEnd : Option LinkTableApi := none
  startLinkMonitor : Option LinkTableApi := none
deriving DecidableEq

namespace TopologyManage
variable {s t : TopologyManage} {src dst : Port}

/-- Reports one direction of a link. Returns the link of the event that is sent on, if the
table did not hold it yet. The source port needs no entry of its own in the switch: the
lookup of an unknown port returns `None` and raises nothing, so none is ever added. -/
def linkAddHandler (src dst : Port) : Py TopologyManage (Option ((ℕ × ℕ) × Link)) := do
  modify fun s => { s with topoInitializeEnd := none, startLinkMonitor := none }
  let s ← get
  let _ ← Py.ofOption .attributeError (s.switches.getSwitch src.dpid)
  let _ ← Py.ofOption .attributeError (s.switches.getSwitch dst.dpid)
  let (links, link) := s.links.addLink { src, dst }
  modify fun s => { s with links }
  let switches ← Py.ofExcept (s.switches.setNeighbor src.dpid dst.dpid src.portNo)
  let apiLinks := LinkTableApi.init links
  modify fun s => { s with
    switches
    topoInitializeEnd := some apiLinks
    startLinkMonitor := some apiLinks }
  return link

/-- Both directions are cleared in one guarded block: if the first removal raises, the
second one is not tried. -/
def delNeighbors (switches : SwitchTable) (src dst : Port) : SwitchTable :=
  match switches.delNeighbor src.dpid dst.dpid src.portNo with
  | .error _ => switches
  | .ok cleared =>
    match cleared.delNeighbor dst.dpid src.dpid dst.portNo with
    | .error _ => cleared
    | .ok clearedBoth => clearedBoth

/-- Returns the snapshot of the event that is sent on, if a link was deleted. A switch
with id 0 counts as no switch. -/
def linkDeleteHandler (s : TopologyManage) (src dst : Port) :
    TopologyManage × Option LinkTableApi :=
  let (links, dpids) := s.links.delLink { src, dst }
  let apiLinks := LinkTableApi.init links
  ({ s with links, switches := delNeighbors s.switches src dst },
    match dpids with
    | some (srcDpid, dstDpid) => if srcDpid ≠ 0 ∧ dstDpid ≠ 0 then some apiLinks else none
    | none => none)

inductive LinkEvent
  | add (src dst : Port)
  | delete (src dst : Port)
deriving DecidableEq

def step (s : TopologyManage) : LinkEvent → TopologyManage
  | .add src dst => ((linkAddHandler src dst).exec s).2
  | .delete src dst => (s.linkDeleteHandler src dst).1

/-- What a reported direction does to the tables: nothing between unknown switches. -/
theorem step_add_tables (s : TopologyManage) (src dst : Port) :
    ((step s (.add src dst)).switches = s.switches ∧ (step s (.add src dst)).links = s.links ∧
      (src.dpid ∉ s.switches ∨ dst.dpid ∉ s.switches)) ∨
    (src.dpid ∈ s.switches ∧ dst.dpid ∈ s.switches ∧
      s.switches.setNeighbor src.dpid dst.dpid src.portNo =
        .ok (step s (.add src dst)).switches ∧
      (step s (.add src dst)).links = (s.links.addLink { src, dst }).1) := by
  by_cases hsrc : src.dpid ∈ s.switches
  · by_cases hdst : dst.dpid ∈ s.switches
    · right
      refine ⟨hsrc, hdst, ?_⟩
      obtain ⟨sw, hsw⟩ := Dict.mem_iff_get?.mp hsrc
      obtain ⟨sw', hsw'⟩ := Dict.mem_iff_get?.mp hdst
      obtain ⟨u, hu⟩ := SwitchTable.setNeighbor_ok (b := dst.dpid) (p := src.portNo) hsrc
      simp [step, linkAddHandler, Py.exec_bind, SwitchTable.getSwitch, hsw, hsw', hu]
    · left
      obtain ⟨sw, hsw⟩ := Dict.mem_iff_get?.mp hsrc
      have hnone := Dict.get?_eq_none.mpr hdst
      simp [step, linkAddHandler, Py.exec_bind, SwitchTable.getSwitch, hsw, hnone, hdst]
  · left
    have hnone := Dict.get?_eq_none.mpr hsrc
    simp [step, linkAddHandler, Py.exec_bind, SwitchTable.getSwitch, hnone, hsrc]

/-- Both timers carry a snapshot of the table that the handler leaves, or none is set. -/
theorem step_add_timers (s : TopologyManage) (src dst : Port) {api : LinkTableApi}
    (h : (step s (.add src dst)).topoInitializeEnd = some api ∨
      (step s (.add src dst)).startLinkMonitor = some api) :
    api = LinkTableApi.init (step s (.add src dst)).links := by
  revert h
  cases hsrc : s.switches.get? src.dpid with
  | none => simp [step, linkAddHandler, Py.exec_bind, SwitchTable.getSwitch, hsrc]
  | some sw =>
    cases hdst : s.switches.get? dst.dpid with
    | none => simp [step, linkAddHandler, Py.exec_bind, SwitchTable.getSwitch, hsrc, hdst]
    | some sw' =>
      obtain ⟨u, hu⟩ := SwitchTable.setNeighbor_ok (b := dst.dpid) (p := src.portNo)
        (Dict.mem_iff_get?.mpr ⟨sw, hsrc⟩)
      simp only [step, linkAddHandler, Py.exec_bind, SwitchTable.getSwitch, hsrc, hdst, hu,
        Py.exec_modify, Py.exec_get, Py.ofOption_some, Py.exec_pure, Py.exec_ofExcept]
      rintro (h | h) <;> exact (Option.some.inj h).symm

end TopologyManage
end SDRoute
