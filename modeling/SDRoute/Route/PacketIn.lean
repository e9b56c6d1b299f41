import SDRoute.Route.MulticastManage

/-! The packets that the route manager is handed: a packet between known hosts asks for a route
task, unless the same request was made a short time ago. -/
namespace SDRoute

namespace Parameters

def GATEWAY_MAC_DICT : List (String × String) :=
  [("10.0.0.201", "c9:c9:c9:c9:c9:c9"), ("10.0.0.202", "ca:ca:ca:ca:ca:ca"),
    ("10.0.0.203", "cb:cb:cb:cb:cb:cb")]

def ROUTE_TYPE_INTRA_TOPO : ℕ := 3

def BROADCAST_STR : String := "ff:ff:ff:ff:ff:ff"

end Parameters

/-- What the manager keeps of a host: an entry of the host tracker, or one of a gateway. -/
structure HostEntry where
  dpid : Option ℕ
  port : Option ℕ
  macaddr : String
  /-- The addresses, with whether the record of an address counts as true. -/
  ipaddrs : Dict String Bool := ∅
deriving DecidableEq

structure IpPacket where
  srcMac : String
  dstMac : String
  srcIp : String
  dstIp : String
deriving DecidableEq

def IpPacket.pair (packet : IpPacket) : String × String := (packet.srcIp, packet.dstIp)

/-- A packet by its headers. -/
inductive ReceivedPacket
  | igmp
  | ipv4 (packet : IpPacket)
  | other
deriving DecidableEq

/-- Where a task leads: to the switch of a host, or to the switches of a group. -/
inductive TaskTarget
  | host (dpid : ℕ)
  | group (dpids : List ℕ)
deriving DecidableEq

/-- A task that passed the checks of its construction. -/
structure QueuedTask where
  routeType : ℕ
  srcDpid : ℕ
  srcIp : String
  srcPortNo : Option ℕ
  dstDpid : TaskTarget
  dstIp : String
  dstPortNo : Option ℕ
  timestamp : ℚ
deriving DecidableEq

namespace QueuedTask

def pair (task : QueuedTask) : String × String := (task.srcIp, task.dstIp)

/-- `TaskEntryBase.__init__`: the ends are checked, the ports are not. -/
def taskEntryBase (routeType : ℕ) (srcDpid : Option ℕ) (srcIp : String) (srcPortNo : Option ℕ)
    (dstDpid : Option TaskTarget) (dstIp : String) (dstPortNo : Option ℕ) (nowTime : ℚ) :
    Except Exc QueuedTask :=
  match srcDpid, dstDpid with
  | some srcDpid, some dstDpid => .ok
    { routeType, srcDpid, srcIp, srcPortNo, dstDpid, dstIp, dstPortNo, timestamp := nowTime }
  | _, _ => .error .assertionError

def routeTaskEntry (src dst : HostEntry) (packet : IpPacket) (nowTime : ℚ) :
    Except Exc QueuedTask :=
  taskEntryBase Parameters.ROUTE_TYPE_INTRA_TOPO src.dpid packet.srcIp src.port
    (dst.dpid.map .host) packet.dstIp dst.port nowTime

def multicastTaskEntry (src : HostEntry) (dstDpidSet : List ℕ) (packet : IpPacket)
    (nowTime : ℚ) : Except Exc QueuedTask :=
  taskEntryBase Parameters.ROUTE_TYPE_INTRA_TOPO src.dpid packet.srcIp src.port
    (some (.group dstDpidSet)) packet.dstIp none nowTime

end QueuedTask

/-- The end of a packet whose host is missing. -/
inductive MissingHost
  | src
  | dst
deriving DecidableEq

structure PacketManage where
  entry : Dict String HostEntry := ∅
  multicastGroup : GroupTable := ∅
  algorithmState : Bool := false
  multicastAlgorithmState : Bool := false
  requestCache : Dict (String × String) (ℚ × ℕ) := ∅
  queue : List QueuedTask := []
  routeTaskHandler : List QueuedTask := []
  hostMissing : List (IpPacket × MissingHost) := []
deriving DecidableEq

namespace PacketManage

def updateEntry (dpid port : Option ℕ) (macaddr ipAddr : String) (s : PacketManage) :
    PacketManage :=
  let macEntry : HostEntry :=
    { dpid, port, macaddr, ipaddrs := (∅ : Dict String Bool).set ipAddr false }
  { s with entry := s.entry.set macaddr macEntry }

/-- A gateway sits at no switch. -/
def updateGatewayEntry (s : PacketManage) : PacketManage :=
  Parameters.GATEWAY_MAC_DICT.foldl (fun s gateway => updateEntry none none gateway.2 gateway.1 s) s

def init : PacketManage := updateGatewayEntry {}

def sendHostMissing (packet : IpPacket) (flag : MissingHost) : Py PacketManage Unit :=
  modify fun s => { s with hostMissing := s.hostMissing ++ [(packet, flag)] }

/-- A host whose address is not recorded is reported missing, but used. -/
def lookupHost (packet : IpPacket) (flag : MissingHost) (mac ip : String) :
    Py PacketManage (Option HostEntry) := do
  let s ← get
  match s.entry.get? mac with
  | none => do
    sendHostMissing packet flag
    return none
  | some host => do
    if (host.ipaddrs.get? ip).getD false = false then
      sendHostMissing packet flag
    return some host

/-- The same request is in the cache and not timed out. -/
def cached (s : PacketManage) (pair : String × String) (nowTime : ℚ) : Bool :=
  (s.requestCache.get? pair).any fun entry =>
    nowTime - entry.1 < Parameters.REQUEST_CACHE_TIMEOUT

/-- Sets the time of a request; a new one gets a count of zero. -/
def stamp (s : PacketManage) (pair : String × String) (nowTime : ℚ) : PacketManage :=
  let count := ((s.requestCache.get? pair).map Prod.snd).getD 0
  { s with requestCache := s.requestCache.set pair (nowTime, count) }

/-- A request that is not cached is stamped first, then its task is constructed. -/
def requestTask (pair : String × String) (nowTime : ℚ) (task : Except Exc QueuedTask) :
    Py PacketManage Unit := do
  let s ← get
  if s.cached pair nowTime then
    return
  modify fun s => s.stamp pair nowTime
  let taskEntry ← Py.ofExcept task
  modify fun s => { s with queue := s.queue ++ [taskEntry] }

def handleMulticastUdp (packet : IpPacket) (nowTime : ℚ) : Py PacketManage Unit := do
  match ← lookupHost packet .src packet.srcMac packet.srcIp with
  | none => return
  | some src => do
    let s ← get
    match s.multicastGroup.get? packet.dstIp with
    | none => return
    | some group => do
      if s.multicastAlgorithmState ≠ true then
        return
      requestTask packet.pair nowTime
        (QueuedTask.multicastTaskEntry src group.keys packet nowTime)

/-- Which addresses are those of groups is the address library's answer. -/
def handleIp (isMulticast : String → Bool) (packet : IpPacket) (nowTime : ℚ) :
    Py PacketManage Unit := do
  if packet.dstMac = Parameters.BROADCAST_STR ∨ packet.dstIp = "255.255.255.0" then
    return
  if isMulticast packet.dstIp then
    handleMulticastUdp packet nowTime
  else
    match ← lookupHost packet .src packet.srcMac packet.srcIp with
    | none => return
    | some src => do
      match ← lookupHost packet .dst packet.dstMac packet.dstIp with
      | none => return
      | some dst => do
        let s ← get
        if s.algorithmState ≠ true then
          return
        requestTask packet.pair nowTime
          (QueuedTask.routeTaskEntry src dst packet nowTime)

def packetInHandler (isMulticast : String → Bool) (nowTime : ℚ) :
    ReceivedPacket → Py PacketManage Unit
  | .ipv4 packet => handleIp isMulticast packet nowTime
  | .igmp | .other => return

inductive HostEvent
  | join (entry : HostEntry)
  | move (entry : HostEntry)
  | leave (entry : HostEntry)
deriving DecidableEq

/-- A host that moves or leaves must be known. -/
def hostStateHandler : HostEvent → Py PacketManage Unit
  | .join entry => modify fun s => { s with entry := s.entry.set entry.macaddr entry }
  | .move entry => do
    let s ← get
    let _ ← Py.ofOption .keyError (s.entry.get? entry.macaddr)
    modify fun s => { s with entry := s.entry.set entry.macaddr entry }
  | .leave entry => do
    let s ← get
    let _ ← Py.ofOption .keyError (s.entry.get? entry.macaddr)
    modify fun s => { s with entry := s.entry.del entry.macaddr }

def processQueuedMsg : Py PacketManage Unit :=
  modify fun s => { s with queue := [], routeTaskHandler := s.routeTaskHandler ++ s.queue }

inductive Event
  | packetIn (packet : ReceivedPacket) (nowTime : ℚ)
  | hostState (event : HostEvent)
  | multicastGroupChanged (group : GroupTable)
  | algorithmInit
  | multicastAlgorithmInit
  | processQueuedMsg
deriving DecidableEq

def handle (isMulticast : String → Bool) : Event → Py PacketManage Unit
  | .packetIn packet nowTime => packetInHandler isMulticast nowTime packet
  | .hostState event => hostStateHandler event
  | .multicastGroupChanged group => modify fun s => { s with multicastGroup := group }
  | .algorithmInit => modify fun s => { s with algorithmState := true }
  | .multicastAlgorithmInit => modify fun s => { s with multicastAlgorithmState := true }
  | .processQueuedMsg => processQueuedMsg

def step (isMulticast : String → Bool) (s : PacketManage) (e : Event) : PacketManage :=
  ((handle isMulticast e).exec s).2

end PacketManage
end SDRoute
