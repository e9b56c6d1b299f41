import Mathlib.Data.Rat.Defs
import SDRoute.Lib.Dict

/-! The link table of the topology manager and the snapshot that other modules read. -/
namespace SDRoute

/-- A switch port. Ports compare by switch and number only. -/
structure Port where
  dpid : ℕ
  portNo : ℕ
deriving DecidableEq, Repr

inductive LinkAttribute
  | direct
  | virtual
deriving DecidableEq, Repr

/-- A link with its configured and measured properties, unset at creation. -/
structure Link where
  src : Port
  dst : Port
  attr : Option LinkAttribute := none
  pktLoss : Option ℚ := none
  totalBand : Option ℚ := none
  availableBand : Option ℚ := none
  delay : Option ℚ := none
  cost : Option ℚ := none
deriving DecidableEq

/-- `Link.__eq__`: the ends decide, the properties do not. -/
def Link.eq (l m : Link) : Bool := l.src == m.src && l.dst == m.dst

def Link.reverse (l : Link) : Link := { l with src := l.dst, dst := l.src }

/-- The pair of port numbers under which a snapshot files the link. -/
def Link.portNos (l : Link) : ℕ × ℕ := (l.src.portNo, l.dst.portNo)

def serialize (src dst : Port) : Port × Port :=
  if src.dpid > dst.dpid then (dst, src) else (src, dst)

abbrev LinkTable := Dict (ℕ × ℕ) (List Link)

namespace LinkTable

/-- Returns the link that was filed, `none` if an equal one was there. -/
def addLink (t : LinkTable) (link : Link) : LinkTable × Option ((ℕ × ℕ) × Link) :=
  let (src, dst) := serialize link.src link.dst
  let newLink : Link := { src, dst, attr := some .direct }
  match t.get? (src.dpid, dst.dpid) with
  | none => (t.set (src.dpid, dst.dpid) [newLink], some ((src.dpid, dst.dpid), newLink))
  | some links =>
    if links.any (·.eq newLink) then (t, none)
    else (t.set (src.dpid, dst.dpid) (links ++ [newLink]),
      some ((src.dpid, dst.dpid), newLink))

/-- Stores a list of links again after a removal; an empty one takes its key along. -/
def putBack (t : LinkTable) (key : ℕ × ℕ) (links : List Link) : LinkTable :=
  if links.isEmpty then t.del key else t.set key links

/-- `list.remove`: drops the first link that is equal to `link`. -/
def remove (link : Link) (links : List Link) : List Link := links.eraseP (·.eq link)

def delLink (t : LinkTable) (link : Link) : LinkTable × Option (ℕ × ℕ) :=
  let (src, dst) := serialize link.src link.dst
  match t.get? (src.dpid, dst.dpid) with
  | none => (t, none)
  | some links =>
    if links.any (·.eq { src, dst }) then
      (t.putBack (src.dpid, dst.dpid) (remove { src, dst } links), some (src.dpid, dst.dpid))
    else (t, none)

def getLink (t : LinkTable) (link : Link) : Option (List Link) :=
  let (src, dst) := serialize link.src link.dst
  t.get? (src.dpid, dst.dpid)

def addVirtualLink (t : LinkTable) (srcDpid : ℕ) (srcPort : Port) (dstDpid : ℕ)
    (dstPort : Port) : LinkTable × Option Bool :=
  let (srcDpid, srcPort, dstDpid, dstPort) :=
    if srcDpid > dstDpid then (dstDpid, dstPort, srcDpid, srcPort)
    else (srcDpid, srcPort, dstDpid, dstPort)
  let newVirtualLink : Link := { src := srcPort, dst := dstPort, attr := some .virtual }
  match t.get? (srcDpid, dstDpid) with
  | none => (t.set (srcDpid, dstDpid) [newVirtualLink], some true)
  | some links =>
    match links.find? (·.eq newVirtualLink) with
    | none => (t.set (srcDpid, dstDpid) (links ++ [newVirtualLink]), some true)
    | some l => if l.attr ≠ some .virtual then (t, some false) else (t, none)

def delVirtualLink (t : LinkTable) (srcDpid : ℕ) (srcPort : Port) (dstDpid : ℕ)
    (dstPort : Port) : LinkTable × Option Bool :=
  let (srcDpid, srcPort, dstDpid, dstPort) :=
    if srcDpid > dstDpid then (dstDpid, dstPort, srcDpid, srcPort)
    else (srcDpid, srcPort, dstDpid, dstPort)
  let link : Link := { src := srcPort, dst := dstPort }
  match t.get? (srcDpid, dstDpid) with
  | none => (t, none)
  | some links =>
    match links.find? (·.eq link) with
    | none => (t, none)
    | some l =>
      if l.attr = some .virtual then
        (t.putBack (srcDpid, dstDpid) (remove link links), some true)
      else (t, none)

/-- The loop of `delAllVirtualLink` deletes from the list that it walks by index, so the
link after a deleted one moves into its place and is passed over. -/
def sweepVirtual : List Link → List Link
  | [] => []
  | [l] => if l.attr = some .virtual then [] else [l]
  | l :: m :: links =>
    if l.attr = some .virtual then m :: sweepVirtual links
    else l :: sweepVirtual (m :: links)

def delAllVirtualLink (t : LinkTable) (srcDpid dstDpid : ℕ) : LinkTable :=
  let key := if srcDpid > dstDpid then (dstDpid, srcDpid) else (srcDpid, dstDpid)
  match t.get? key with
  | none => t
  | some links => t.putBack key (sweepVirtual links)

end LinkTable

abbrev LinkTableApi := Dict (ℕ × ℕ) (Dict (ℕ × ℕ) Link)

namespace LinkTableApi

def put (key : ℕ × ℕ) (api : LinkTableApi) (link : Link) : LinkTableApi :=
  api.set key (((api.get? key).getD ∅).set link.portNos link)

/-- `LinkTableApi.init` on a fresh snapshot. -/
def init (t : LinkTable) : LinkTableApi :=
  t.items.foldl (fun api item => item.2.foldl (put item.1) api) ∅

end LinkTableApi
end SDRoute
