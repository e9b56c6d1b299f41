import SDRoute.Topology.TopologyManage
import SDRoute.Topology.WholeLinks

/-! The requests that add and delete virtual links, among the events that change the topology. -/
namespace SDRoute

/-- The two bodies of a reply. -/
inductive RestBody
  | ok
  | none
deriving DecidableEq

/-- The switches with their neighbors, the port tables of the switches, and the link table. -/
structure PortTopology where
  switches : SwitchTable := ∅
  ports : Dict ℕ (Dict ℕ Port) := ∅
  links : StoredTable := ∅
deriving DecidableEq

namespace PortTopology

/-- A switch that is not known has no ports to look at; a port that is not known is `None`. -/
def lookupPort (s : PortTopology) (dpid portNo : ℕ) : Except Exc (Option Port) :=
  match s.switches.getSwitch dpid with
  | none => .error .attributeError
  | some _ => .ok (s.ports.getAt dpid portNo)

def setNeighbor (dpid neighborDpid portNo : ℕ) : Py PortTopology Unit := do
  let s ← get
  let switches ← Py.ofExcept (s.switches.setNeighbor dpid neighborDpid portNo)
  modify fun s => { s with switches }

def delNeighbor (dpid neighborDpid portNo : ℕ) : Py PortTopology Unit := do
  let s ← get
  let switches ← Py.ofExcept (s.switches.delNeighbor dpid neighborDpid portNo)
  modify fun s => { s with switches }

/-- `POST`: what the lookups raise is caught, what they do not find is not noticed. -/
def updateVirtualLinkByDpid (srcDpid srcPortNo dstDpid dstPortNo : ℕ) :
    Py PortTopology RestBody := do
  let s ← get
  match s.lookupPort srcDpid srcPortNo, s.lookupPort dstDpid dstPortNo with
  | .ok srcPort, .ok dstPort => do
    let (links, added) := s.links.addVirtualLink srcDpid srcPort dstDpid dstPort
    modify fun s => { s with links }
    if added = some true then
      setNeighbor srcDpid dstDpid srcPortNo
      setNeighbor dstDpid srcDpid dstPortNo
      return .ok
    else
      return .none
  | _, _ => return .none

/-- `DELETE` -/
def delVirtualLinkByDpid (srcDpid srcPortNo dstDpid dstPortNo : ℕ) :
    Py PortTopology RestBody := do
  let s ← get
  match s.lookupPort srcDpid srcPortNo, s.lookupPort dstDpid dstPortNo with
  | .ok srcPort, .ok dstPort => do
    let (links, removed) ←
      Py.ofExcept (s.links.delVirtualLink srcDpid srcPort dstDpid dstPort)
    modify fun s => { s with links }
    if removed = some true then
      delNeighbor srcDpid dstDpid srcPortNo
      delNeighbor dstDpid srcDpid dstPortNo
      return .ok
    else
      return .none
  | _, _ => return .none

def addEdgeSwitch (switches : SwitchTable) (dpid : ℕ) : SwitchTable :=
  let sw := ((switches.addSwitch dpid).getSwitch dpid).getD { dp := dpid }
  (switches.addSwitch dpid).set dpid { sw with attr := .edge }

/-- The ports that the switch reports are added unless they are known. -/
def switchStateChangeHandler (dpid : ℕ) (portNos : List ℕ) : Py PortTopology Unit :=
  modify fun s => { s with
    switches := addEdgeSwitch s.switches dpid
    ports := portNos.foldl (fun ports portNo =>
      if ports.getAt dpid portNo = none then ports.setAt dpid portNo ⟨dpid, portNo⟩ else ports)
      s.ports }

def cleanNeighbor (dpid neighborDpid : ℕ) : Py PortTopology Unit := do
  let s ← get
  let neighbor ← Py.ofOption .attributeError (s.switches.getSwitch neighborDpid)
  let _ ← Py.ofOption .keyError (neighbor.neighbors.get? dpid)
  modify fun s => { s with
    switches := s.switches.set neighborDpid
      { neighbor with neighbors := neighbor.neighbors.del dpid }
    links := s.links.delAllVirtualLink neighborDpid dpid }

def switchLeaveHandler (dpid : ℕ) : Py PortTopology Unit := do
  let s ← get
  let switch ← Py.ofOption .attributeError (s.switches.getSwitch dpid)
  switch.neighbors.keys.forM (cleanNeighbor dpid)
  modify fun s => { s with switches := s.switches.del dpid, ports := s.ports.del dpid }

def portAddHandler (port : Port) : Py PortTopology Unit := do
  let s ← get
  let _ ← Py.ofOption .attributeError (s.switches.getSwitch port.dpid)
  modify fun s => { s with ports := s.ports.setAt port.dpid port.portNo port }

def portDeleteHandler (port : Port) : Py PortTopology Unit := do
  let s ← get
  let _ ← Py.ofOption .attributeError (s.switches.getSwitch port.dpid)
  modify fun s => { s with
    ports := s.ports.set port.dpid (((s.ports.get? port.dpid).getD ∅).del port.portNo) }

/-- The link table is snapshot last. -/
def linkAddHandler (src dst : Port) : Py PortTopology Unit := do
  let s ← get
  let _ ← Py.ofOption .attributeError (s.switches.getSwitch src.dpid)
  let _ ← Py.ofOption .attributeError (s.switches.getSwitch dst.dpid)
  let links ← Py.ofExcept (s.links.addLink src dst)
  modify fun s => { s with links }
  setNeighbor src.dpid dst.dpid src.portNo
  let _ ← Py.ofExcept links.init

def linkDeleteHandler (src dst : Port) : Py PortTopology Unit := do
  modify fun s => { s with
    links := s.links.delLink src dst
    switches := TopologyManage.delNeighbors s.switches src dst }
  let s ← get
  let _ ← Py.ofExcept s.links.init

inductive Event
  | switchStateChange (dpid : ℕ) (portNos : List ℕ)
  | switchLeave (dpid : ℕ)
  | portAdd (port : Port)
  | portDelete (port : Port)
  | linkAdd (src dst : Port)
  | linkDelete (src dst : Port)
  | addVirtual (srcDpid srcPortNo dstDpid dstPortNo : ℕ)
  | delVirtual (srcDpid srcPortNo dstDpid dstPortNo : ℕ)
deriving DecidableEq

def handle : Event → Py PortTopology Unit
  | .switchStateChange dpid portNos => switchStateChangeHandler dpid portNos
  | .switchLeave dpid => switchLeaveHandler dpid
  | .portAdd port => portAddHandler port
  | .portDelete port => portDeleteHandler port
  | .linkAdd src dst => linkAddHandler src dst
  | .linkDelete src dst => linkDeleteHandler src dst
  | .addVirtual a p b q => discard (updateVirtualLinkByDpid a p b q)
  | .delVirtual a p b q => discard (delVirtualLinkByDpid a p b q)

def step (s : PortTopology) (e : Event) : PortTopology := ((handle e).exec s).2

variable {s t : PortTopology} {e : Event} {a p b q dpid portNo : ℕ} {src dst port : Port}

/-- The switch has such a port. -/
def Known (s : PortTopology) (dpid portNo : ℕ) : Prop :=
  dpid ∈ s.switches ∧ s.ports.getAt dpid portNo ≠ none

instance (s : PortTopology) (dpid portNo : ℕ) : Decidable (s.Known dpid portNo) :=
  inferInstanceAs (Decidable (_ ∧ _))

/-- What is promised of an event: a request that names something unknown changes nothing, another
one joins the two ports that it names, and the table can be read afterwards. -/
structure Handled (s : PortTopology) (e : Event) : Prop where
  rejected : ∀ a p b q, e = .addVirtual a p b q → ¬ (s.Known a p ∧ s.Known b q) →
    ((updateVirtualLinkByDpid a p b q).exec s).1 = .ok .none ∧
      (step s e).links = s.links ∧ (step s e).switches = s.switches
  joined : ∀ a p b q, e = .addVirtual a p b q → s.Known a p ∧ s.Known b q →
    ∀ l, (step s e).links.Filed l → s.links.Filed l ∨
      l.src = s.ports.getAt a p ∧ l.dst = s.ports.getAt b q ∨
      l.src = s.ports.getAt b q ∧ l.dst = s.ports.getAt a p
  whole : (step s e).links.Whole
  snapshot : ∃ api, (step s e).links.init = .ok api
  shown : ∃ rows, (step s e).links.toDict = .ok rows

/-- A request with known switches that names a port which one of them does not have. -/
def Dangling (s : PortTopology) : Event → Prop
  | .addVirtual a p b q => a ∈ s.switches ∧ b ∈ s.switches ∧ ¬ (s.Known a p ∧ s.Known b q)
  | _ => False

instance (s : PortTopology) : ∀ e, Decidable (s.Dangling e)
  | .addVirtual _ _ _ _ => inferInstanceAs (Decidable (_ ∧ _))
  | .switchStateChange _ _ | .switchLeave _ | .portAdd _ | .portDelete _ | .linkAdd _ _
  | .linkDelete _ _ | .delVirtual _ _ _ _ => inferInstanceAs (Decidable False)

/-! The handlers that are not asked for virtual links keep the ends of the links. -/

/-- All links of the table have two ends. -/
def Sound (s : PortTopology) : Prop := s.links.Whole

theorem keeps_setNeighbor {I : StoredTable → Prop} :
    Py.Keeps (fun s : PortTopology => I s.links) (setNeighbor a b p) :=
  Py.Keeps.bind Py.Keeps.get fun _ => Py.Keeps.bind (Py.Keeps.ofExcept _) fun _ =>
    Py.Keeps.modify fun _ h => h

theorem keeps_delNeighbor : Py.Keeps Sound (delNeighbor a b p) :=
  Py.Keeps.bind Py.Keeps.get fun _ => Py.Keeps.bind (Py.Keeps.ofExcept _) fun _ =>
    Py.Keeps.modify fun _ h => h

theorem keeps_cleanNeighbor : Py.Keeps Sound (cleanNeighbor dpid a) := by
  refine Py.Keeps.bind Py.Keeps.get fun s => ?_
  refine Py.Keeps.bind (Py.Keeps.ofOption _ _) fun neighbor => ?_
  refine Py.Keeps.bind (Py.Keeps.ofOption _ _) fun _ => ?_
  exact Py.Keeps.modify fun s h => StoredTable.Whole.delAllVirtualLink h

theorem keeps_switchLeaveHandler : Py.Keeps Sound (switchLeaveHandler dpid) := by
  refine Py.Keeps.bind Py.Keeps.get fun s => ?_
  refine Py.Keeps.bind (Py.Keeps.ofOption _ _) fun switch => ?_
  refine Py.Keeps.bind (Py.Keeps.forM fun _ _ => keeps_cleanNeighbor) fun _ => ?_
  exact Py.Keeps.modify fun _ h => h

theorem keeps_portAddHandler : Py.Keeps Sound (portAddHandler port) :=
  Py.Keeps.bind Py.Keeps.get fun _ => Py.Keeps.bind (Py.Keeps.ofOption _ _) fun _ =>
    Py.Keeps.modify fun _ h => h

theorem keeps_portDeleteHandler : Py.Keeps Sound (portDeleteHandler port) :=
  Py.Keeps.bind Py.Keeps.get fun _ => Py.Keeps.bind (Py.Keeps.ofOption _ _) fun _ =>
    Py.Keeps.modify fun _ h => h

theorem keeps_linkAddHandler : Py.Keeps Sound (linkAddHandler src dst) := by
  intro s hs
  rw [linkAddHandler, Py.exec_bind_of_ok (Py.exec_get s)]
  refine Py.Keeps.bind (Py.Keeps.ofOption _ _) (fun _ => ?_) s hs
  refine Py.Keeps.bind (Py.Keeps.ofOption _ _) fun _ => ?_
  refine Py.Keeps.afterReads (Q := fun links => links.Whole)
    (Py.Reads.ofExcept fun links hadd => StoredTable.Whole.addLink hs hadd) fun links hlinks => ?_
  refine Py.Keeps.bind (Py.Keeps.modify fun _ _ => hlinks) fun _ => ?_
  refine Py.Keeps.bind (keeps_setNeighbor (I := StoredTable.Whole)) fun _ => ?_
  exact Py.Keeps.bind (Py.Keeps.ofExcept _) fun _ => Py.Keeps.pure _

theorem keeps_linkDeleteHandler : Py.Keeps Sound (linkDeleteHandler src dst) := by
  refine Py.Keeps.bind (Py.Keeps.modify fun s h => StoredTable.Whole.delLink h) fun _ => ?_
  refine Py.Keeps.bind Py.Keeps.get fun s => ?_
  exact Py.Keeps.bind (Py.Keeps.ofExcept _) fun _ => Py.Keeps.pure _

theorem keeps_delVirtualLinkByDpid : Py.Keeps Sound (delVirtualLinkByDpid a p b q) := by
  intro s hs
  rw [delVirtualLinkByDpid, Py.exec_bind_of_ok (Py.exec_get s)]
  split
  · refine Py.Keeps.afterReads (Q := fun found => found.1.Whole)
      (Py.Reads.ofExcept fun found hdel => StoredTable.Whole.delVirtualLink hs hdel)
      (fun found hfound => ?_) s hs
    refine Py.Keeps.bind (Py.Keeps.modify fun _ _ => hfound) fun _ => Py.Keeps.ite ?_ ?_
    · exact Py.Keeps.bind keeps_delNeighbor fun _ =>
        Py.Keeps.bind keeps_delNeighbor fun _ => Py.Keeps.pure _
    · exact Py.Keeps.pure _
  · exact hs

/-! The request for a virtual link. -/

theorem lookupPort_of_mem (h : dpid ∈ s.switches) :
    s.lookupPort dpid portNo = .ok (s.ports.getAt dpid portNo) := by
  obtain ⟨sw, hsw⟩ := Dict.mem_iff_get?.mp h
  simp [lookupPort, SwitchTable.getSwitch, hsw]

theorem lookupPort_of_notMem (h : dpid ∉ s.switches) :
    s.lookupPort dpid portNo = .error .attributeError := by
  simp [lookupPort, SwitchTable.getSwitch, Dict.get?_eq_none.mpr h]

/-- A switch that is not known is noticed. -/
theorem exec_updateVirtualLinkByDpid_unknown (h : ¬ (a ∈ s.switches ∧ b ∈ s.switches)) :
    (updateVirtualLinkByDpid a p b q).exec s = (.ok .none, s) := by
  rw [updateVirtualLinkByDpid, Py.exec_bind_of_ok (Py.exec_get s)]
  split
  · rename_i srcPort dstPort hsrc hdst
    refine absurd ⟨?_, ?_⟩ h
    · by_contra hnone
      rw [lookupPort_of_notMem hnone] at hsrc
      cases hsrc
    · by_contra hnone
      rw [lookupPort_of_notMem hnone] at hdst
      cases hdst
  · rfl

/-- A port that is not known is stored. -/
theorem links_step_addVirtual (ha : a ∈ s.switches) (hb : b ∈ s.switches) :
    (step s (.addVirtual a p b q)).links =
      (s.links.addVirtualLink a (s.ports.getAt a p) b (s.ports.getAt b q)).1 := by
  rw [step, handle, Py.exec_discard, updateVirtualLinkByDpid, Py.exec_bind_of_ok (Py.exec_get s),
    lookupPort_of_mem ha, lookupPort_of_mem hb]
  refine Py.Keeps.after (I := fun t : PortTopology => t.links =
    (s.links.addVirtualLink a (s.ports.getAt a p) b (s.ports.getAt b q)).1) rfl fun _ => ?_
  refine Py.Keeps.ite ?_ (Py.Keeps.pure _)
  exact Py.Keeps.bind (keeps_setNeighbor (I := (· = _))) fun _ =>
    Py.Keeps.bind (keeps_setNeighbor (I := (· = _))) fun _ => Py.Keeps.pure _

theorem sound_step (h : Sound s) (hnot : ¬ s.Dangling e) : Sound (step s e) := by
  cases e with
  | switchStateChange dpid portNos => exact h
  | switchLeave dpid => exact keeps_switchLeaveHandler s h
  | portAdd port => exact keeps_portAddHandler s h
  | portDelete port => exact keeps_portDeleteHandler s h
  | linkAdd src dst => exact keeps_linkAddHandler s h
  | linkDelete src dst => exact keeps_linkDeleteHandler s h
  | delVirtual a p b q =>
    rw [step, handle, Py.exec_discard]
    exact keeps_delVirtualLinkByDpid s h
  | addVirtual a p b q =>
    by_cases hswitches : a ∈ s.switches ∧ b ∈ s.switches
    · have hknown : s.Known a p ∧ s.Known b q := by
        by_contra hunknown
        exact hnot ⟨hswitches.1, hswitches.2, hunknown⟩
      rw [Sound, links_step_addVirtual hswitches.1 hswitches.2]
      exact (StoredTable.Whole.addVirtualLink_iff h).mpr ⟨hknown.1.2, hknown.2.2⟩
    · rw [step, handle, Py.exec_discard, exec_updateVirtualLinkByDpid_unknown hswitches]
      exact h

theorem handled_iff (h : Sound s) : Handled s e ↔ ¬ s.Dangling e := by
  constructor
  · intro hhandled hdangling
    cases e with
    | addVirtual a p b q =>
      obtain ⟨ha, hb, hunknown⟩ := hdangling
      have hwhole := hhandled.whole
      rw [links_step_addVirtual ha hb, StoredTable.Whole.addVirtualLink_iff h] at hwhole
      exact hunknown ⟨⟨ha, hwhole.1⟩, hb, hwhole.2⟩
    | _ => exact hdangling
  · intro hnot
    have hwhole := sound_step h hnot
    refine ⟨?_, ?_, hwhole, (StoredTable.init_isOk_iff _).mpr hwhole,
      (StoredTable.toDict_isOk_iff _).mpr hwhole⟩
    · rintro a p b q rfl hunknown
      have hswitches : ¬ (a ∈ s.switches ∧ b ∈ s.switches) :=
        fun hmem => hnot ⟨hmem.1, hmem.2, hunknown⟩
      rw [step, handle, Py.exec_discard, exec_updateVirtualLinkByDpid_unknown hswitches]
      exact ⟨rfl, rfl, rfl⟩
    · rintro a p b q rfl ⟨ha, hb⟩ l hl
      rw [links_step_addVirtual ha.1 hb.1, StoredTable.addVirtualLink] at hl
      split at hl
      · refine (StoredTable.filed_fileVirtual hl).imp_right ?_
        rintro rfl
        exact Or.inr ⟨rfl, rfl⟩
      · refine (StoredTable.filed_fileVirtual hl).imp_right ?_
        rintro rfl
        exact Or.inl ⟨rfl, rfl⟩

/-- Requests for virtual links are refused or join two ports, and the table can be read after every
event, exactly if no request names a port that a known switch does not have: the lookup of such a
port raises nothing. -/
theorem virtual_requests_iff (h : s.links.Whole) (es : List Event) :
    (∀ fs e, fs ++ [e] <+: es → Handled (Machine.run step s fs) e) ↔
      Machine.Admits step (fun t e => ¬ t.Dangling e) s es :=
  Machine.forall_steps_iff_admits (I := Sound) h (fun _ _ hs hnot => sound_step hs hnot)
    fun _ _ hs => handled_iff hs

/-- Two switches with a port each, and requests for links between them. -/
def joinedTwice : List Event :=
  [.switchStateChange 1 [1], .switchStateChange 2 [1], .addVirtual 1 1 2 1, .addVirtual 3 1 2 1,
    .linkAdd ⟨1, 2⟩ ⟨2, 2⟩]

theorem virtual_requests_joinedTwice :
    Machine.Admits step (fun t e => ¬ t.Dangling e) {} joinedTwice ∧
      ∀ fs e, fs ++ [e] <+: joinedTwice → Handled (Machine.run step {} fs) e := by
  have hadmits : Machine.Admits step (fun t e => ¬ t.Dangling e) {} joinedTwice := by
    decide +kernel
  exact ⟨hadmits, (virtual_requests_iff StoredTable.whole_empty joinedTwice).mpr hadmits⟩

/-- A port that the second switch does not have is joined to the first one. -/
theorem unknown_port_stored : ¬ ∀ es fs e, fs ++ [e] <+: es →
    Handled (Machine.run step {} fs) e := by
  intro hall
  have hwhole := (hall _ [.switchStateChange 1 [1], .switchStateChange 2 [1]]
    (.addVirtual 1 1 2 7) (List.prefix_refl _)).whole
  revert hwhole
  decide +kernel

end PortTopology
end SDRoute
