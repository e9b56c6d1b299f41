import Mathlib.Tactic.Linarith
import SDRoute.Lib.Dict
import SDRoute.Lib.Machine
import SDRoute.Lib.Py

/-! Flooding of ARP requests that could not be resolved: one port is chosen for each request,
for some time and a few floods. -/
namespace SDRoute

namespace Parameters

def ARP_FLOOD_TIMES_CONTROL : ℕ := 5

def ARP_FLOOD_CONTROL_TIMEOUT : ℚ := 10

end Parameters

/-- An unresolved request and the time at which the controller handles it. -/
structure ArpRequest where
  dpid : ℕ
  ethSrc : String
  ipDst : String
  inPort : ℕ
  time : ℚ
deriving DecidableEq

abbrev BlockKey := ℕ × String × String

def ArpRequest.key (r : ArpRequest) : BlockKey := (r.dpid, r.ethSrc, r.ipDst)

structure PortBlock where
  inPort : ℕ
  floodTimes : ℕ
  timestamp : ℚ
deriving DecidableEq

/-- What becomes of a request at its switch. -/
inductive PacketOut
  | flood (r : ArpRequest)
  | drop (r : ArpRequest)
deriving DecidableEq

structure ProxyArp where
  portBlockList : Dict BlockKey PortBlock := ∅
  sent : List PacketOut := []
deriving DecidableEq

namespace ProxyArp

def send (s : ProxyArp) (packet : PacketOut) : ProxyArp := { s with sent := s.sent ++ [packet] }

/-- A request that finds an expired entry deletes it, and is not flooded itself. -/
def floodingStrategy (s : ProxyArp) (r : ArpRequest) : ProxyArp :=
  match s.portBlockList.get? r.key with
  | some block =>
    if r.time - block.timestamp > Parameters.ARP_FLOOD_CONTROL_TIMEOUT then
      { s with portBlockList := s.portBlockList.del r.key }
    else if block.inPort ≠ r.inPort then s.send (.drop r)
    else if block.floodTimes < Parameters.ARP_FLOOD_TIMES_CONTROL then
      let block := { block with floodTimes := block.floodTimes + 1 }
      { s.send (.flood r) with portBlockList := s.portBlockList.set r.key block }
    else s
  | none =>
    let block := { inPort := r.inPort, floodTimes := 1, timestamp := r.time }
    { s.send (.flood r) with portBlockList := s.portBlockList.set r.key block }

end ProxyArp
end SDRoute
