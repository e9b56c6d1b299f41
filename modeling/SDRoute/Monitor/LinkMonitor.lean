import Mathlib.Algebra.Order.Field.Rat
import Mathlib.Data.List.Sort
import SDRoute.Lib.Triple
import SDRoute.Topology.Link

/-! The link monitor: the counters of the ports that the switches report, and the rates and the
free bands of the links that it takes from them. -/
namespace SDRoute

structure Counters where
  rxPackets : ℕ := 0
  txPackets : ℕ := 0
  rxBytes : ℕ := 0
  txBytes : ℕ := 0
  rxDropped : ℕ := 0
  txDropped : ℕ := 0
  rxErrors : ℕ := 0
  txErrors : ℕ := 0
  rxFrameErr : ℕ := 0
  rxOverErr : ℕ := 0
  rxCrcErr : ℕ := 0
  collisions : ℕ := 0
  durationSec : ℕ := 0
  durationNsec : ℕ := 0
deriving DecidableEq, Repr

/-- The entry of a reply for a port. -/
structure PortStats extends Counters where
  portNo : ℕ
deriving DecidableEq, Repr

/-- The counters of a port at the time that they were stored. -/
structure PortState extends Counters where
  time : ℚ := 0
deriving DecidableEq

/-- The rates of a port, unset before its first reply. -/
structure LinkState where
  errorPacketRate : Option ℚ := none
  speed : Option ℚ := none
deriving DecidableEq

structure EventWebLinkBandChange where
  currentDpid : ℕ
  currentPortNo : ℕ
  nextDpid : ℕ
  nextPortNo : ℕ
  availableBand : ℚ
deriving DecidableEq

structure LinkMonitor where
  portState : Dict ℕ (Dict ℕ PortState) := ∅
  linkState : Dict ℕ (Dict ℕ LinkState) := ∅
  globalLinkTable : LinkTableApi := ∅
  events : List EventWebLinkBandChange := []

namespace LinkMonitor

/-- Eight bits. -/
def Bytes : ℚ := 8

/-- A port that has not been reported before starts with zero counters at time zero. -/
def addPort (dpid : ℕ) (stats : PortStats) : Py LinkMonitor Unit :=
  modify fun s =>
    if (s.portState.getAt dpid stats.portNo).isNone then
      { s with portState := s.portState.setAt dpid stats.portNo {} }
    else s

/-- The division is one of integers. -/
def errorPacketRate (errorPacket totlePacket : ℤ) : Except Exc ℚ :=
  if errorPacket ≠ 0 then
    if totlePacket = 0 then .error .zeroDivisionError
    else .ok ((errorPacket.fdiv totlePacket * 100 : ℤ))
  else .ok 0

def usedBand (receiveBytes : ℤ) (timeInterval : ℚ) : ℚ :=
  if receiveBytes ≠ 0 ∧ timeInterval ≠ 0 then receiveBytes / timeInterval * Bytes else 0

def errorPacket (stats : PortStats) (old : PortState) : ℤ :=
  ((stats.txErrors + stats.rxErrors : ℕ) : ℤ) - ((old.txErrors + old.rxErrors : ℕ) : ℤ)

def totlePacket (stats : PortStats) (old : PortState) : ℤ :=
  ((stats.txPackets + stats.rxPackets : ℕ) : ℤ) - ((old.rxPackets + old.txPackets : ℕ) : ℤ)

def receiveBytes (stats : PortStats) (old : PortState) : ℤ :=
  ((stats.txBytes + stats.rxBytes : ℕ) : ℤ) - ((old.txBytes + old.rxBytes : ℕ) : ℤ)

def updateLinkState (dpid portNo : ℕ) (f : LinkState → LinkState) : Py LinkMonitor Unit :=
  modify fun s => { s with
    linkState := s.linkState.setAt dpid portNo (f ((s.linkState.getAt dpid portNo).getD {})) }

/-- An unset total band cannot be subtracted from. -/
def updateBand (usedBand : ℚ) (dpidIndex portNoIndex : ℕ × ℕ) : Py LinkMonitor Unit := do
  let s ← get
  let link ← Py.ofOption .keyError (s.globalLinkTable.getAt dpidIndex portNoIndex)
  let totalBand ← Py.ofOption .typeError link.totalBand
  let availableBand := totalBand - usedBand
  modify fun s => { s with
    globalLinkTable := s.globalLinkTable.setAt dpidIndex portNoIndex
      { link with availableBand := some availableBand }
    events := s.events ++
      [⟨dpidIndex.1, portNoIndex.1, dpidIndex.2, portNoIndex.2, availableBand⟩] }

/-- `x in pair` -/
def Among (x : ℕ) (pair : ℕ × ℕ) : Prop := x = pair.1 ∨ x = pair.2

instance (x : ℕ) (pair : ℕ × ℕ) : Decidable (Among x pair) :=
  inferInstanceAs (Decidable (_ ∨ _))

/-- The links that name the switch and the port number get their free band. -/
def selectLinks (dpid portNo : ℕ) (usedBand : ℚ) : Py LinkMonitor Unit := do
  let s ← get
  s.globalLinkTable.items.forM fun item => do
    if Among dpid item.1 then
      item.2.keys.forM fun portNoIndex => do
        if Among portNo portNoIndex then updateBand usedBand item.1 portNoIndex

/-- The rates of a port of the reply. Its counters are stored under the number `port`. -/
def measurePort (currentTime : ℚ) (dpid port : ℕ) (stats : PortStats) : Py LinkMonitor Unit := do
  let s ← get
  let old ← Py.ofOption .keyError (s.portState.getAt dpid stats.portNo)
  let rate ← Py.ofExcept (errorPacketRate (errorPacket stats old) (totlePacket stats old))
  updateLinkState dpid stats.portNo fun state => { state with errorPacketRate := some rate }
  let used := usedBand (receiveBytes stats old) (currentTime - old.time)
  updateLinkState dpid stats.portNo fun state => { state with speed := some used }
  selectLinks dpid stats.portNo used
  modify fun s => { s with
    portState := s.portState.setAt dpid port { stats.toCounters with time := currentTime } }

/-- `sorted(body, key=attrgetter('port_no'))` -/
def byPortNo (body : List PortStats) : List PortStats :=
  body.insertionSort (·.portNo ≤ ·.portNo)

/-- The number that the first loop ends with is the one that the second loop stores all counters
under. -/
def parsePortStatsReply (currentTime : ℚ) (dpid : ℕ) (body : List PortStats) :
    Py LinkMonitor Unit := do
  (byPortNo body).forM (addPort dpid)
  match (byPortNo body).getLast? with
  | none => return
  | some last => (byPortNo body).forM (measurePort currentTime dpid last.portNo)

/-- What reaches the monitor: a snapshot of the links, with the bands that they have by then, or
a reply of a switch. -/
inductive StatsEvent
  | topoInitializeEnd (linkTable : LinkTableApi)
  | portStatsReply (currentTime : ℚ) (dpid : ℕ) (body : List PortStats)

def handle : StatsEvent → Py LinkMonitor Unit
  | .topoInitializeEnd linkTable => modify fun s => { s with globalLinkTable := linkTable }
  | .portStatsReply currentTime dpid body => parsePortStatsReply currentTime dpid body

/-- A handler that raises leaves what it has written. -/
def step (s : LinkMonitor) (e : StatsEvent) : LinkMonitor := ((handle e).exec s).2

end LinkMonitor
end SDRoute
