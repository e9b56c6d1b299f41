import Mathlib.Data.Rat.Defs
import Mathlib.Algebra.Order.Ring.Rat
import SDRoute.Lib.Dict
import SDRoute.Lib.Py
import SDRoute.Topology.Link

/-! The host tracker: it learns hosts from packets, pings silent addresses and forgets
the hosts that stay silent. Each handler reads the clock as often as it likes. -/
namespace SDRoute

namespace Timeout

def arpAware : ℚ := 10 * 2
def arpSilent : ℚ := 10 * 20
def arpReply : ℚ := 4
def entryMove : ℚ := 60

end Timeout

/-- Port numbers above this one are reserved. -/
def OFPP_MAX : ℕ := 0xffffff00

structure Alive where
  lastTimeSeen : ℚ
  interval : ℚ := Timeout.arpSilent
deriving DecidableEq

def Alive.expired (a : Alive) (now : ℚ) : Bool := now > a.lastTimeSeen + a.interval

structure PingCtrl extends Alive where
  pending : ℕ := 0
deriving DecidableEq

namespace PingCtrl

def pingLim : ℕ := 3

def new (now : ℚ) : PingCtrl := { lastTimeSeen := now, interval := Timeout.arpReply }

def sent (p : PingCtrl) (now : ℚ) : PingCtrl :=
  { p with lastTimeSeen := now, pending := p.pending + 1 }

def failed (p : PingCtrl) : Bool := p.pending > pingLim

def received (p : PingCtrl) : PingCtrl := { p with pending := 0 }

end PingCtrl

structure IpEntry extends Alive where
  hasArp : Bool
  pings : PingCtrl
deriving DecidableEq

/-- The two readings are those of the entry itself and of its ping control. -/
def IpEntry.new (hasArp : Bool) (now now' : ℚ) : IpEntry where
  lastTimeSeen := now
  interval := if hasArp then Timeout.arpAware else Timeout.arpSilent
  hasArp
  pings := .new now'

/-- `inport` is written when the host moves and read by nobody. -/
structure MacEntry extends Alive where
  dpid : ℕ
  port : ℕ
  macaddr : String
  inport : Option ℕ := none
  ipaddrs : Dict String IpEntry := ∅
deriving DecidableEq

/-- What the handler reads of a packet: the source addresses of its headers. -/
structure Packet where
  dpid : ℕ
  inPort : ℕ
  srcMac : String
  lldp : Bool := false
  ip : Option String := none
  arp : Option String := none
deriving DecidableEq

inductive EventHostState
  | join (macaddr : String)
  | leave (macaddr : String)
  | move (macaddr : String) (newDpid newPort : ℕ)
deriving DecidableEq

/-- An ARP request that is sent out of a port. -/
structure ArpPing where
  dpid : ℕ
  port : ℕ
  macaddr : String
  ipaddr : String
deriving DecidableEq

/-- The tables, the datapaths that have registered, what was sent to the observers and to
the switches, and the clock readings still to come. -/
structure HostTrack where
  macToPort : Dict ℕ (Dict String ℕ) := ∅
  entryByMac : Dict String MacEntry := ∅
  datapaths : Dict ℕ ℕ := ∅
  events : List EventHostState := []
  pings : List ArpPing := []
  clock : ℕ → ℚ := fun _ => 0

namespace HostTrack

/-- Reads the clock. -/
def time : Py HostTrack ℚ := do
  let s ← get
  modify fun s => { s with clock := fun n => s.clock (n + 1) }
  return s.clock 0

/-- Writes to the entry object of a host. -/
def updateEntry (mac : String) (f : MacEntry → MacEntry) : Py HostTrack Unit :=
  modify fun s => match s.entryByMac.get? mac with
    | none => s
    | some entry => { s with entryByMac := s.entryByMac.set mac (f entry) }

def sendEvent (e : EventHostState) : Py HostTrack Unit :=
  modify fun s => { s with events := s.events ++ [e] }

def setMacToPort (dpid : ℕ) (mac : String) (port : ℕ) : Py HostTrack Unit :=
  modify fun s => { s with
    macToPort := s.macToPort.set dpid (((s.macToPort.get? dpid).getD ∅).set mac port) }

/-- Looking a switch up in the table of tables creates an empty table for it. -/
def delMacToPort (dpid : ℕ) (mac : String) : Py HostTrack Unit := do
  let s ← get
  let ports := (s.macToPort.get? dpid).getD ∅
  modify fun s => { s with macToPort := s.macToPort.set dpid ports }
  let _ ← Py.ofOption .keyError (ports.get? mac)
  modify fun s => { s with macToPort := s.macToPort.set dpid (ports.del mac) }

def getMacEntry (s : HostTrack) (mac : String) : Option MacEntry := s.entryByMac.get? mac

def sendPing (entry : MacEntry) (ipaddr : String) : Py HostTrack Unit := do
  let s ← get
  let datapath ← Py.ofOption .keyError (s.datapaths.get? entry.dpid)
  modify fun s => { s with pings := s.pings ++
    [{ dpid := datapath, port := entry.port, macaddr := entry.macaddr, ipaddr }] }

def getSrcIpAndArp (pkt : Packet) : Option (String × Bool) :=
  match pkt.ip with
  | some src => some (src, false)
  | none => pkt.arp.map (·, true)

/-- Writes to the entry object of an address of a host. -/
def updateIpEntry (mac ipaddr : String) (f : IpEntry → IpEntry) : Py HostTrack Unit :=
  updateEntry mac fun entry => match entry.ipaddrs.get? ipaddr with
    | none => entry
    | some ipEntry => { entry with ipaddrs := entry.ipaddrs.set ipaddr (f ipEntry) }

/-- Refreshes the address if the host has it, learns it otherwise. -/
def learnIp (pktIpSrc mac : String) (hasArp : Bool) : Py HostTrack Unit := do
  let s ← get
  let now ← time
  match (s.getMacEntry mac).bind fun entry => entry.ipaddrs.get? pktIpSrc with
  | some _ => updateIpEntry mac pktIpSrc fun ipEntry => { ipEntry with lastTimeSeen := now }
  | none =>
    let now' ← time
    updateEntry mac fun entry =>
      { entry with ipaddrs := entry.ipaddrs.set pktIpSrc (.new hasArp now now') }

def updateIpInfo (pktIpSrc mac : String) (hasArp : Bool) : Py HostTrack Unit := do
  learnIp pktIpSrc mac hasArp
  if hasArp then
    updateIpEntry mac pktIpSrc fun ipEntry => { ipEntry with pings := ipEntry.pings.received }

/-- Registers the datapath of a switch; its table of hosts is created empty. -/
def arpResponseFlowEntry (dpid : ℕ) : Py HostTrack Unit :=
  modify fun s => { s with
    datapaths := s.datapaths.set dpid dpid
    macToPort := s.macToPort.set dpid ((s.macToPort.get? dpid).getD ∅) }

/-- The port lies between switches. Only the first switch of a link on its own switch is
compared, as the second comparison is an `elif` of the first. -/
def isLinkPort (links : List Link) (dpid inPort : ℕ) : Bool :=
  links.any fun link =>
    if dpid = link.src.dpid then inPort = link.src.portNo
    else if dpid = link.dst.dpid then inPort = link.dst.portNo
    else false

/-- The packet passes the guards of the handler; `links` are the links of the moment. -/
def accepts (links : List Link) (pkt : Packet) : Bool :=
  pkt.inPort ≤ OFPP_MAX && !isLinkPort links pkt.dpid pkt.inPort && !pkt.lldp

def join (pkt : Packet) : Py HostTrack Unit := do
  let now ← time
  let entry : MacEntry :=
    { lastTimeSeen := now, dpid := pkt.dpid, port := pkt.inPort, macaddr := pkt.srcMac }
  setMacToPort pkt.dpid pkt.srcMac pkt.inPort
  modify fun s => { s with entryByMac := s.entryByMac.set pkt.srcMac entry }
  sendEvent (.join pkt.srcMac)

/-- Reads the clock once more for the text of the warning. -/
def warnDuplicate (entry : MacEntry) : Py HostTrack Unit := do
  let now ← time
  if now - entry.lastTimeSeen < Timeout.entryMove then
    let _ ← time

/-- The new port is written to a field of its own, not to the one that was compared. -/
def move (entry : MacEntry) (pkt : Packet) : Py HostTrack Unit := do
  warnDuplicate entry
  delMacToPort entry.dpid pkt.srcMac
  setMacToPort pkt.dpid pkt.srcMac pkt.inPort
  sendEvent (.move pkt.srcMac pkt.dpid pkt.inPort)
  updateEntry pkt.srcMac fun entry =>
    { entry with dpid := pkt.dpid, inport := some pkt.inPort }

def learn (pkt : Packet) : Py HostTrack Unit := do
  let s ← get
  match s.getMacEntry pkt.srcMac with
  | none => join pkt
  | some entry =>
    if (entry.dpid, entry.port, entry.macaddr) ≠ (pkt.dpid, pkt.inPort, pkt.srcMac) then
      move entry pkt

def packetInHandler (links : List Link) (pkt : Packet) : Py HostTrack Unit := do
  if accepts links pkt then
    learn pkt
    let now ← time
    updateEntry pkt.srcMac fun entry => { entry with lastTimeSeen := now }
    match getSrcIpAndArp pkt with
    | some (ip, hasArp) => updateIpInfo ip pkt.srcMac hasArp
    | none => pure ()

/-- One round of the inner loop over the addresses of a host. Returns whether the host
has been pinged so far. -/
def checkIp (entry : MacEntry) (pinged : Bool) (item : String × IpEntry) :
    Py HostTrack Bool := do
  let (ipaddr, ipEntry) := item
  let now ← time
  if ipEntry.expired now then
    if ipEntry.pings.failed then
      updateEntry entry.macaddr fun entry => { entry with ipaddrs := entry.ipaddrs.del ipaddr }
      return pinged
    else
      sendPing entry ipaddr
      let now ← time
      updateIpEntry entry.macaddr ipaddr fun ipEntry =>
        { ipEntry with pings := ipEntry.pings.sent now }
      return true
  else
    return pinged

/-- The loop over the left addresses deletes, each time, the one that the loop before it
ended with. -/
def dropLeftIps (mac : String) (lastIp : Option String) (entry : MacEntry) :
    Py HostTrack Unit :=
  entry.ipaddrs.keys.forM fun _ => do
    let s ← get
    let ipaddr ← Py.ofOption .keyError lastIp
    let _ ← Py.ofOption .keyError
      ((s.getMacEntry mac).bind fun entry => entry.ipaddrs.get? ipaddr)
    updateEntry mac fun entry => { entry with ipaddrs := entry.ipaddrs.del ipaddr }

/-- One round of the outer loop. The entry object of the round is the one that the table
holds, so it is read again after the inner loop has written to it. -/
def checkEntry (entry : MacEntry) : Py HostTrack Unit := do
  let pinged ← entry.ipaddrs.items.foldlM (checkIp entry) false
  let now ← time
  if entry.expired now ∧ ¬ pinged then
    let s ← get
    let left := (s.getMacEntry entry.macaddr).getD entry
    dropLeftIps entry.macaddr (entry.ipaddrs.items.getLast?.map Prod.fst) left
    delMacToPort entry.dpid entry.macaddr
    sendEvent (.leave entry.macaddr)
    modify fun s => { s with entryByMac := s.entryByMac.del entry.macaddr }

def checkTimeouts : Py HostTrack Unit := do
  let s ← get
  s.entryByMac.values.forM checkEntry

/-- An event comes with the readings of the clock during its handler. -/
inductive Event
  | switchFeatures (dpid : ℕ)
  | packetIn (links : List Link) (pkt : Packet) (clock : ℕ → ℚ)
  | checkTimeouts (clock : ℕ → ℚ)

def step (s : HostTrack) : Event → HostTrack
  | .switchFeatures dpid => ((arpResponseFlowEntry dpid).exec s).2
  | .packetIn links pkt clock => ((packetInHandler links pkt).exec { s with clock }).2
  | .checkTimeouts clock => (checkTimeouts.exec { s with clock }).2

end HostTrack
end SDRoute
