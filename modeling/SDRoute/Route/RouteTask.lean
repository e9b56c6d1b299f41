import SDRoute.Lib.Py
import SDRoute.Route.Flow
import SDRoute.Topology.Switch

/-! The tasks of the route task queue: how each kind of task deploys its path. -/
namespace SDRoute

inductive AlgorithmType
  | ga
  | dij
deriving DecidableEq, Repr

/-- The record that the group table keeps for a member port. -/
structure GroupPort where
  replied : Bool := true
  leave : Bool := false
  member : ℕ := 1
  out : Bool := false
  in' : Bool := false
deriving DecidableEq, Repr

/-- Members of the multicast groups: group, switch, port. -/
abbrev GroupTable := Dict String (Dict ℕ (Dict ℕ GroupPort))

/-- What a task reads of the route manager. The fault classifier, here the ports from the
access switches to the users, is not set unless fault recovery is. -/
structure RouteManageView where
  switches : SwitchTable
  algorithmType : AlgorithmType := .dij
  accessSwitchToUserPorts : Option (List (ℕ × ℕ)) := none
  multicastGroup : GroupTable := ∅

/-- A row of the table that is drawn: both ends of a link of the path. -/
abbrev LinkRow := (ℕ × ℕ) × (ℕ × ℕ)

inductive WebEvent
  | routeSet (links : List LinkRow)
  | routeSetDij (links : List LinkRow)
deriving DecidableEq, Repr

/-- What a deployment sends: flow messages to the switches and events to the observers. -/
structure Outbox where
  mods : List (ℕ × FlowMod) := []
  events : List WebEvent := []
deriving DecidableEq

structure TaskEntryBase where
  srcDpid : ℕ
  srcIp : String
  srcPortNo : ℕ
  dstIp : String
  timestamp : ℚ
deriving DecidableEq

structure RouteTaskEntry extends TaskEntryBase where
  dstDpid : ℕ
  dstPortNo : ℕ
deriving DecidableEq

structure NATRouteTaskEntry extends RouteTaskEntry where
  gatewayIp : String
  gatewayMac : String
  serverMac : String
  userMac : String
deriving DecidableEq

/-- The destination address is that of the group. -/
structure MulticastTaskEntry extends TaskEntryBase where
  dstDpid : List ℕ
deriving DecidableEq

namespace TaskEntryBase

def send (dp : ℕ) (mod : FlowMod) : Py Outbox Unit :=
  modify fun box => { box with mods := box.mods ++ [(dp, mod)] }

def flowEntry (srcIp dstIp : String) (inport outport : ℕ) : FlowMod where
  criteria := .exact inport srcIp dstIp
  actions := [.output outport]

def flowMod (dp : ℕ) (srcIp dstIp : String) (inport outport : ℕ) : Py Outbox Unit :=
  send dp (flowEntry srcIp dstIp inport outport)

/-- The attribute of a switch that was looked up. -/
def getSwitch (view : RouteManageView) (dpid : ℕ) : Py Outbox Switch :=
  Py.ofOption .attributeError (view.switches.getSwitch dpid)

/-- `sw.neighbors[dpid][0]`. -/
def firstPort (sw : Switch) (dpid : ℕ) : Py Outbox ℕ := do
  let ports ← Py.ofOption .keyError (sw.neighbors.get? dpid)
  Py.ofOption .indexError ports.head?

/-- The switch at an index of a path. -/
def hopAt (linkList : List ℕ) (i : ℕ) : Py Outbox ℕ :=
  Py.ofOption .indexError linkList[i]?

/-- The row for the link from `sw`, which `dpid` names, to the next switch of the path. -/
def linkRow (view : RouteManageView) (sw : Switch) (dpid nextDpid : ℕ) : Py Outbox LinkRow := do
  let portNo ← firstPort sw nextDpid
  let nextSw ← getSwitch view nextDpid
  let nextPortNo ← firstPort nextSw dpid
  return ((sw.dp, portNo), (nextSw.dp, nextPortNo))

def sendRouteSet (view : RouteManageView) (links : List LinkRow) : Py Outbox Unit :=
  modify fun box => { box with events := box.events ++ [match view.algorithmType with
    | .ga => .routeSet links
    | .dij => .routeSetDij links] }

end TaskEntryBase

namespace RouteTaskEntry
open TaskEntryBase

/-- One round of the loop over a path of three or more switches. -/
def deployRound (entry : RouteTaskEntry) (view : RouteManageView) (linkList : List ℕ)
    (links : List LinkRow) (hop : ℕ × ℕ) : Py Outbox (List LinkRow) := do
  let (dpid, num) := hop
  let sw ← getSwitch view dpid
  if num = 0 then
    let next ← hopAt linkList (num + 1)
    flowMod sw.dp entry.srcIp entry.dstIp entry.srcPortNo (← firstPort sw next)
    return links ++ [← linkRow view sw dpid next]
  else if num = linkList.length - 1 then
    let former ← hopAt linkList (num - 1)
    flowMod sw.dp entry.dstIp entry.srcIp entry.dstPortNo (← firstPort sw former)
    return links
  else
    let former ← hopAt linkList (num - 1)
    let next ← hopAt linkList (num + 1)
    flowMod sw.dp entry.srcIp entry.dstIp (← firstPort sw former) (← firstPort sw next)
    flowMod sw.dp entry.dstIp entry.srcIp (← firstPort sw next) (← firstPort sw former)
    return links ++ [← linkRow view sw dpid next]

/-- A path of three or more switches: the loop leaves out one entry of either end. -/
def deployLong (entry : RouteTaskEntry) (view : RouteManageView) (linkList : List ℕ) :
    Py Outbox Bool := do
  let links ← linkList.zipIdx.foldlM (entry.deployRound view linkList) []
  sendRouteSet view links
  let sw2 ← getSwitch view (← hopAt linkList (linkList.length - 1))
  flowMod sw2.dp entry.srcIp entry.dstIp
    (← firstPort sw2 (← hopAt linkList (linkList.length - 2))) entry.dstPortNo
  let sw1 ← getSwitch view (← hopAt linkList 0)
  flowMod sw1.dp entry.dstIp entry.srcIp
    (← firstPort sw1 (← hopAt linkList 1)) entry.srcPortNo
  return true

def deployFlowTable (entry : RouteTaskEntry) (view : RouteManageView) (linkList : List ℕ) :
    Py Outbox Bool :=
  match linkList with
  | [] => return false
  | [dpid] => do
    let sw ← getSwitch view dpid
    flowMod sw.dp entry.dstIp entry.srcIp entry.dstPortNo entry.srcPortNo
    flowMod sw.dp entry.srcIp entry.dstIp entry.srcPortNo entry.dstPortNo
    return true
  | [dpid1, dpid2] => do
    let sw2 ← getSwitch view dpid2
    let sw1 ← getSwitch view dpid1
    flowMod sw2.dp entry.dstIp entry.srcIp entry.dstPortNo (← firstPort sw2 sw1.dp)
    flowMod sw2.dp entry.srcIp entry.dstIp (← firstPort sw2 sw1.dp) entry.dstPortNo
    flowMod sw1.dp entry.dstIp entry.srcIp (← firstPort sw1 sw2.dp) entry.srcPortNo
    flowMod sw1.dp entry.srcIp entry.dstIp entry.srcPortNo (← firstPort sw1 sw2.dp)
    return true
  | linkList => entry.deployLong view linkList

end RouteTaskEntry

namespace NATRouteTaskEntry
open TaskEntryBase

/-- From the user to the gateway: the packet is redirected to the server. -/
def userToServerFlowMod (entry : NATRouteTaskEntry) (dp outport : ℕ) : Py Outbox Unit :=
  send dp {
    flags := 1
    criteria := { nwProto := some 6, ipv4Src := entry.srcIp, ipv4Dst := entry.gatewayIp }
    actions := [.decNwTtl, .setTcpDst Parameters.serverTcpPort, .setIpv4Dst entry.dstIp,
      .setEthDst entry.serverMac, .output outport] }

/-- From the server to the user: the packet seems to come from the gateway. -/
def serverToUserFlowMod (entry : NATRouteTaskEntry) (dp outport : ℕ) : Py Outbox Unit :=
  send dp {
    flags := 1
    criteria := { nwProto := some 6, ipv4Src := entry.dstIp, ipv4Dst := entry.srcIp }
    actions := [.decNwTtl, .setTcpSrc 80, .setIpv4Src entry.gatewayIp,
      .setEthSrc entry.gatewayMac, .setEthDst entry.userMac, .output outport] }

/-- The switch is an access switch with the users behind the source port of the task. -/
def facesUser (entry : NATRouteTaskEntry) (view : RouteManageView) (sw : Switch) (dpid : ℕ) :
    Py Outbox Bool := do
  if sw.attr = .access then
    let ports ← Py.ofOption .attributeError view.accessSwitchToUserPorts
    return (dpid, entry.srcPortNo) ∈ ports
  else
    return false

/-- One round of the loop over the reversed path: the first switch is the destination's. -/
def deployRound (entry : NATRouteTaskEntry) (view : RouteManageView) (reverseLinkList : List ℕ)
    (links : List LinkRow) (hop : ℕ × ℕ) : Py Outbox (List LinkRow) := do
  let (dpid, num) := hop
  let sw ← getSwitch view dpid
  if num = 0 then
    let next ← hopAt reverseLinkList (num + 1)
    if ← entry.facesUser view sw dpid then
      entry.userToServerFlowMod sw.dp (← firstPort sw next)
      entry.serverToUserFlowMod sw.dp entry.dstPortNo
    else
      flowMod sw.dp entry.srcIp entry.dstIp (← firstPort sw next) entry.dstPortNo
      flowMod sw.dp entry.dstIp entry.srcIp entry.dstPortNo (← firstPort sw next)
    return links ++ [← linkRow view sw dpid next]
  else if num = reverseLinkList.length - 1 then
    let former ← hopAt reverseLinkList (num - 1)
    if ← entry.facesUser view sw dpid then
      entry.userToServerFlowMod sw.dp (← firstPort sw former)
      entry.serverToUserFlowMod sw.dp entry.srcPortNo
    else
      flowMod sw.dp entry.srcIp entry.dstIp entry.srcPortNo (← firstPort sw former)
      flowMod sw.dp entry.dstIp entry.srcIp (← firstPort sw former) entry.srcPortNo
    return links
  else
    let former ← hopAt reverseLinkList (num - 1)
    let next ← hopAt reverseLinkList (num + 1)
    flowMod sw.dp entry.srcIp entry.dstIp (← firstPort sw next) (← firstPort sw former)
    flowMod sw.dp entry.dstIp entry.srcIp (← firstPort sw former) (← firstPort sw next)
    return links ++ [← linkRow view sw dpid next]

def deployFlowTable (entry : NATRouteTaskEntry) (view : RouteManageView) (linkList : List ℕ) :
    Py Outbox Bool :=
  match linkList with
  | [] | [_] => return false
  | [dpid1, dpid2] => do
    let sw2 ← getSwitch view dpid2
    let sw1 ← getSwitch view dpid1
    flowMod sw2.dp entry.dstIp entry.srcIp entry.dstPortNo (← firstPort sw2 sw1.dp)
    flowMod sw2.dp entry.srcIp entry.dstIp (← firstPort sw2 sw1.dp) entry.dstPortNo
    flowMod sw1.dp entry.dstIp entry.srcIp (← firstPort sw1 sw2.dp) entry.srcPortNo
    flowMod sw1.dp entry.srcIp entry.dstIp entry.srcPortNo (← firstPort sw1 sw2.dp)
    return true
  | linkList => do
    let links ← linkList.reverse.zipIdx.foldlM (entry.deployRound view linkList.reverse) []
    sendRouteSet view links
    return true

end NATRouteTaskEntry

/-- What is gathered about a switch of a multicast tree. -/
structure LinkInfo where
  former : Option ℕ := none
  next : List ℕ := []
  root : Bool := false
  shared : Bool := false
  isEnd : Bool := false
deriving DecidableEq, Repr

/-- One record for each switch, in the order of the first visits. -/
abbrev FormatLinkList := List (ℕ × LinkInfo)

namespace FormatLinkList

/-- Writes to the record of a switch. -/
def update (recs : FormatLinkList) (dpid : ℕ) (f : LinkInfo → LinkInfo) : FormatLinkList :=
  recs.map fun r => if r.1 = dpid then (r.1, f r.2) else r

/-- Adds the record of a switch, or marks the one that is there as shared. -/
def touch (recs : FormatLinkList) (dpid : ℕ) : FormatLinkList :=
  if dpid ∈ recs.map Prod.fst then recs.update dpid fun info => { info with shared := true }
  else recs ++ [(dpid, { former := none })]

end FormatLinkList

def LinkInfo.addNext (info : LinkInfo) (dpid : ℕ) : LinkInfo :=
  if dpid ∈ info.next then info else { info with next := info.next ++ [dpid] }

namespace MulticastTaskEntry
open TaskEntryBase

/-- The body of the double loop: a branch at a depth, nothing if the branch is shorter. -/
def visit (recs : FormatLinkList) (depth : ℕ) (branch : List ℕ) : Except Exc FormatLinkList :=
  match branch[depth]? with
  | none => .ok recs
  | some dpid =>
    let recs := recs.touch dpid
    if depth > 0 then
      let recs := recs.update dpid fun info => { info with former := branch[depth - 1]? }
      match branch[depth + 1]? with
      | some next => .ok (recs.update dpid (·.addNext next))
      | none => .ok (recs.update dpid fun info => { info with isEnd := true })
    else
      let recs := recs.update dpid fun info => { info with root := true }
      match branch[depth + 1]? with
      | some next => .ok (recs.update dpid (·.addNext next))
      | none => .error .indexError

def formatLinkList (linkList : List (List ℕ)) : Except Exc FormatLinkList :=
  match (linkList.map List.length).max? with
  | none => .error .valueError
  | some maxDepth => (List.range maxDepth).foldlM
      (fun recs depth => linkList.foldlM (visit · depth ·) recs) []

/-- The entry has one output action for each port. -/
def flowEntry (srcIp dstIp : String) (inport : ℕ) (outports : List ℕ) : FlowMod where
  idleTimeout := Parameters.MULTICAST_FLOW_IDLE_TIMEOUT
  hardTimeout := Parameters.MULTICAST_FLOW_HARD_TIMEOUT
  criteria := .exact inport srcIp dstIp
  actions := outports.map .output

def getInPort (entry : MulticastTaskEntry) (sw : Switch) (info : LinkInfo) : Py Outbox ℕ :=
  if info.root then pure entry.srcPortNo
  else do firstPort sw (← Py.ofOption .keyError info.former)

/-- The ports of the group members, if the switch ends a branch. -/
def getGroupOutports (groupInfo : Dict ℕ (Dict ℕ GroupPort)) (dpid : ℕ) (info : LinkInfo) :
    Py Outbox (List ℕ) :=
  if info.isEnd then (·.keys) <$> Py.ofOption .keyError (groupInfo.get? dpid) else pure []

/-- Deploys the entry of one switch of the tree. -/
def deploySwitch (entry : MulticastTaskEntry) (view : RouteManageView)
    (groupInfo : Dict ℕ (Dict ℕ GroupPort)) (link : ℕ × LinkInfo) : Py Outbox Unit := do
  let (dpid, info) := link
  let sw ← Py.ofOption .keyError (view.switches.get? dpid)
  let inPort ← getInPort entry sw info
  let groupOutports ← getGroupOutports groupInfo dpid info
  let nextPorts ← info.next.mapM (firstPort sw)
  send sw.dp (flowEntry entry.srcIp entry.dstIp inPort (groupOutports ++ nextPorts))

def deployFlowTable (entry : MulticastTaskEntry) (view : RouteManageView)
    (linkList : List (List ℕ)) : Py Outbox Unit := do
  let recs ← Py.ofExcept (formatLinkList linkList)
  let groupInfo ← Py.ofOption .keyError (view.multicastGroup.get? entry.dstIp)
  recs.reverse.forM (entry.deploySwitch view groupInfo)

end MulticastTaskEntry
end SDRoute
