import SDRoute.Multicast.GroupTable

/-! The virtual querier: all edge switches work as one router for the multicast groups. Each
handler is one atomic step, as are the two halves of a query round and the end of a leave
timer. -/
namespace SDRoute

structure Datapath where
  id : ℕ
  /-- The hardware address of each port. -/
  ports : Dict ℕ String
deriving DecidableEq

/-- The groups that were reported to an edge switch, with the switch of the report. -/
structure Querier where
  groups : Dict String Datapath := ∅
  datapath : Datapath
  queryPkt : String
deriving DecidableEq

inductive ChangeReason
  | groupAdded
  | memberChanged
  | groupRemoved
deriving DecidableEq, Repr

structure EventMulticastGroupChanged where
  reason : ChangeReason
  address : String
  dst : Option String := none
deriving DecidableEq, Repr

/-- What is sent to the switches. -/
inductive QuerierMessage
  | setFlowEntry (dpid inPort : ℕ) (dst : String)
  | delFlowEntry (dpid inPort : ℕ) (dst : String)
  | generalQuery (dpid : ℕ) (ethSrc : String)
  | specificQuery (dpid outPort : ℕ) (ethSrc group : String)
deriving DecidableEq, Repr

/-- A timer that a LEAVE has started: switch, group and port. -/
abbrev LeaveTimer := ℕ × String × ℕ

structure IgmpVirtualQuerier where
  queriers : Dict ℕ Querier := ∅
  groups : GroupTable := ∅
  events : List EventMulticastGroupChanged := []
  sent : List QuerierMessage := []
  timers : List LeaveTimer := []
deriving DecidableEq

inductive IgmpType
  | query
  | reportV1
  | reportV2
  | leave
  | reportV3
  | other
deriving DecidableEq, Repr

namespace IgmpVirtualQuerier

def OFPP_LOCAL : ℕ := 0xfffffffe

def sendEvent (event : EventMulticastGroupChanged) : Py IgmpVirtualQuerier Unit :=
  modify fun s => { s with events := s.events ++ [event] }

def send (message : QuerierMessage) : Py IgmpVirtualQuerier Unit :=
  modify fun s => { s with sent := s.sent ++ [message] }

/-- A switch that works as querier already stays as it is. -/
def addQuerier (sw : SwitchAttribute × Datapath) : Py IgmpVirtualQuerier Unit := do
  if sw.1 = .edge then
    let hwAddr ← Py.ofOption .keyError (sw.2.ports.get? OFPP_LOCAL)
    let s ← get
    if sw.2.id ∉ s.queriers then
      let querier : Querier := { datapath := sw.2, queryPkt := hwAddr }
      set { s with queriers := s.queriers.set sw.2.id querier }

def setQuerierMode (switches : List (SwitchAttribute × Datapath)) : Py IgmpVirtualQuerier Unit :=
  switches.forM addQuerier

/-- The querier after it was set up for some switches. -/
def init (switches : List (SwitchAttribute × Datapath)) : IgmpVirtualQuerier :=
  ((setQuerierMode switches).exec {}).2

/-- The record of a group at a switch is never empty. -/
def reportQuerier (datapath : Datapath) (address : String) : Py IgmpVirtualQuerier Unit := do
  let s ← get
  let querier ← Py.ofOption .keyError (s.queriers.get? datapath.id)
  if address ∉ querier.groups then
    let querier := { querier with groups := querier.groups.set address datapath }
    modify fun s => { s with queriers := s.queriers.set datapath.id querier }

/-- An empty table counts as none. -/
def reportGroup (address : String) : Py IgmpVirtualQuerier Unit := do
  let s ← get
  if (s.groups.switches address).isEmpty then
    modify fun s => { s with groups := s.groups.set address ∅ }
    sendEvent { reason := .groupAdded, address }

def reportSwitch (dpid : ℕ) (address : String) : Py IgmpVirtualQuerier Unit := do
  let s ← get
  if (s.groups.ports address dpid).isEmpty then
    modify fun s => { s with groups := s.groups.setPorts address dpid ∅ }

def reportPort (dpid inPort : ℕ) (address ipSrc : String) : Py IgmpVirtualQuerier Unit := do
  let s ← get
  if s.groups.port? address dpid inPort = none then
    modify fun s => { s with groups := s.groups.setPort address dpid inPort {} }
    sendEvent { reason := .memberChanged, address, dst := some ipSrc }
    send (.setFlowEntry dpid inPort address)

/-- Writes a flag of a member port where it is not set. -/
def updatePort (flag : GroupPort → Bool) (write : GroupPort → GroupPort) (dpid inPort : ℕ)
    (address : String) : Py IgmpVirtualQuerier Unit := do
  let s ← get
  let state ← Py.ofOption .keyError (s.groups.port? address dpid inPort)
  if ¬ flag state then
    modify fun s => { s with groups := s.groups.setPort address dpid inPort (write state) }

def updateReplied : ℕ → ℕ → String → Py IgmpVirtualQuerier Unit :=
  updatePort GroupPort.replied fun state => { state with replied := true }

/-- The flag of a LEAVE is lowered only where it is down. -/
def updateLeave : ℕ → ℕ → String → Py IgmpVirtualQuerier Unit :=
  updatePort GroupPort.leave fun state => { state with leave := false }

def doReport (datapath : Datapath) (inPort : ℕ) (address ipSrc : String) :
    Py IgmpVirtualQuerier Unit := do
  reportQuerier datapath address
  reportGroup address
  reportSwitch datapath.id address
  reportPort datapath.id inPort address ipSrc
  updateReplied datapath.id inPort address
  updateLeave datapath.id inPort address

/-- A LEAVE of a port that is no member is ignored, whatever part of the table is missing. -/
def doLeave (dpid inPort : ℕ) (address : String) : Py IgmpVirtualQuerier Unit := do
  let s ← get
  match s.groups.port? address dpid inPort with
  | none => return
  | some state => do
    modify fun s => { s with
      groups := s.groups.setPort address dpid inPort { state with leave := true } }
    let querier ← Py.ofOption .keyError (s.queriers.get? dpid)
    let hwAddr ← Py.ofOption .keyError (querier.datapath.ports.get? inPort)
    send (.specificQuery querier.datapath.id inPort hwAddr address)
    modify fun s => { s with timers := s.timers ++ [(querier.datapath.id, address, inPort)] }

def packetInHandler (datapath : Datapath) (inPort : ℕ) (msgtype : IgmpType)
    (address ipSrc : String) : Py IgmpVirtualQuerier Unit := do
  let s ← get
  if datapath.id ∈ s.queriers then
    match msgtype with
    | .reportV1 | .reportV2 => doReport datapath inPort address ipSrc
    | .leave => doLeave datapath.id inPort address
    | .query | .reportV3 | .other => return

def delQuerierGroup (group : String) (dpid : ℕ) : Py IgmpVirtualQuerier Unit := do
  let s ← get
  let querier ← Py.ofOption .keyError (s.queriers.get? dpid)
  if group ∈ querier.groups then
    modify fun s => { s with
      queriers := s.queriers.set dpid { querier with groups := querier.groups.del group } }
  else
    throw .keyError

def doTimeoutForLeave (timer : LeaveTimer) : Py IgmpVirtualQuerier Unit := do
  let (dpid, group, inPort) := timer
  let s ← get
  let state ← Py.ofOption .keyError (s.groups.port? group dpid inPort)
  if state.leave then
    send (.delFlowEntry dpid inPort group)
    sendEvent { reason := .memberChanged, address := group, dst := some "leave" }
    modify fun s => { s with groups := s.groups.dropPort group dpid inPort }
    let s ← get
    if (s.groups.switches group).isEmpty then
      modify fun s => { s with groups := s.groups.del group }
      delQuerierGroup group dpid
      sendEvent { reason := .groupRemoved, address := group }

/-- No member has replied yet. -/
def resetReplied (t : GroupTable) : GroupTable :=
  t.mapValues fun switches => switches.mapValues fun ports => ports.mapValues fun state =>
    { state with replied := false }

/-- Start of a query round. -/
def sendGeneralQuery : Py IgmpVirtualQuerier Unit := do
  modify fun s => { s with groups := resetReplied s.groups }
  let s ← get
  s.queriers.values.forM fun querier =>
    send (.generalQuery querier.datapath.id querier.queryPkt)

/-- The ports that replied. -/
def expirePorts (ports : Dict ℕ GroupPort) : Dict ℕ GroupPort :=
  ports.delAll ((ports.items.filter fun port => !port.2.replied).map Prod.fst)

/-- The switches that are left without a port. -/
def delSwitches (switches : Dict ℕ (Dict ℕ GroupPort)) : List ℕ :=
  (switches.items.filter fun sw => (expirePorts sw.2).isEmpty).map Prod.fst

def expireSwitches (switches : Dict ℕ (Dict ℕ GroupPort)) : Dict ℕ (Dict ℕ GroupPort) :=
  (switches.mapValues expirePorts).delAll (delSwitches switches)

/-- The switches of the group that this round has deleted forget the group. -/
def removeGroup (group : String × Dict ℕ (Dict ℕ GroupPort)) : Py IgmpVirtualQuerier Unit := do
  modify fun s => { s with groups := s.groups.del group.1 }
  (delSwitches group.2).forM (delQuerierGroup group.1)
  sendEvent { reason := .groupRemoved, address := group.1 }

/-- End of a query round. -/
def expireQuery : Py IgmpVirtualQuerier Unit := do
  let s ← get
  modify fun s => { s with groups := s.groups.mapValues expireSwitches }
  (s.groups.items.filter fun group => (expireSwitches group.2).isEmpty).forM removeGroup

inductive Event
  | packetIn (datapath : Datapath) (inPort : ℕ) (msgtype : IgmpType) (address ipSrc : String)
  | leaveTimeout (timer : LeaveTimer)
  | sendGeneralQuery
  | expireQuery
deriving DecidableEq

/-- A leave timer that is not pending does not end. -/
def handle : Event → Py IgmpVirtualQuerier Unit
  | .packetIn datapath inPort msgtype address ipSrc =>
    packetInHandler datapath inPort msgtype address ipSrc
  | .leaveTimeout timer => do
    let s ← get
    if timer ∈ s.timers then
      modify fun s => { s with timers := s.timers.erase timer }
      doTimeoutForLeave timer
  | .sendGeneralQuery => sendGeneralQuery
  | .expireQuery => expireQuery

def step (s : IgmpVirtualQuerier) (e : Event) : IgmpVirtualQuerier := ((handle e).exec s).2

end IgmpVirtualQuerier
end SDRoute
