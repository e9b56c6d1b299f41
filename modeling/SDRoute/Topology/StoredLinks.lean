import Mathlib.Data.List.InsertIdx
import SDRoute.Lib.Py
import SDRoute.Topology.Link

/-! The link table with whatever was passed as the ends of its links: a lookup that finds no port
gives `None`, which can be stored but not read. -/
namespace SDRoute

/-- A link whose ends may be missing. -/
structure StoredLink where
  src : Option Port
  dst : Option Port
  attr : Option LinkAttribute := none
  pktLoss : Option ℚ := none
  totalBand : Option ℚ := none
  availableBand : Option ℚ := none
  delay : Option ℚ := none
  cost : Option ℚ := none
deriving DecidableEq

/-- What is shown of a link. -/
structure LinkDict where
  srcPort : ℕ
  dstPort : ℕ
  attr : Option LinkAttribute
  pktLoss : Option ℚ
  delay : Option ℚ
  cost : Option ℚ
  availableBand : Option ℚ
  totalBand : Option ℚ
deriving DecidableEq

namespace StoredLink
variable {l m link : StoredLink} {links : List StoredLink}

/-- Two ports are compared by their fields, which a missing one does not have. -/
def endEq : Option Port → Option Port → Except Exc Bool
  | none, none => .ok true
  | some p, some q => .ok (p = q)
  | _, _ => .error .attributeError

/-- `Link.__eq__`: the other ends are compared only if the first ones are equal. -/
def eq (l m : StoredLink) : Except Exc Bool := do
  if ← endEq l.src m.src then endEq l.dst m.dst else return false

/-- `list.index` -/
def index (link : StoredLink) : List StoredLink → Except Exc ℕ
  | [] => .error .valueError
  | l :: links => do
    if ← l.eq link then return 0 else return (← index link links) + 1

def portNo (port : Option Port) : Except Exc ℕ :=
  match port with
  | some port => .ok port.portNo
  | none => .error .attributeError

def toDict (l : StoredLink) : Except Exc LinkDict := do
  return {
    srcPort := ← portNo l.src
    dstPort := ← portNo l.dst
    attr := l.attr
    pktLoss := l.pktLoss
    delay := l.delay
    cost := l.cost
    availableBand := l.availableBand
    totalBand := l.totalBand }

/-- Both ends are ports. -/
def Whole (l : StoredLink) : Prop := l.src ≠ none ∧ l.dst ≠ none

instance (l : StoredLink) : Decidable l.Whole := inferInstanceAs (Decidable (_ ∧ _))

theorem toDict_isOk_iff : (∃ d, l.toDict = .ok d) ↔ l.Whole := by
  obtain ⟨_ | p, _ | q⟩ := l <;> simp [toDict, portNo, Whole, bind, Except.bind, pure, Except.pure]

/-- A link with both ends is not equal to one without. -/
theorem eq_ne_true (hl : l.Whole) (hm : ¬ m.Whole) : l.eq m ≠ .ok true := by
  obtain ⟨_ | p, _ | q⟩ := l <;> obtain ⟨_ | p', _ | q'⟩ := m <;>
    simp_all [Whole, eq, endEq, bind, Except.bind, pure, Except.pure]
  split <;> simp

theorem index_error (hlinks : ∀ l ∈ links, l.Whole) (hlink : ¬ link.Whole) :
    ∃ e, index link links = .error e := by
  induction links with
  | nil => exact ⟨.valueError, rfl⟩
  | cons l links ih =>
    obtain ⟨hl, hlinks⟩ := List.forall_mem_cons.mp hlinks
    obtain ⟨e, he⟩ := ih hlinks
    have hne := eq_ne_true hl hlink
    rcases heq : l.eq link with e' | _ | _
    · exact ⟨e', by simp [index, heq, bind, Except.bind]⟩
    · exact ⟨e, by simp [index, heq, he, bind, Except.bind]⟩
    · exact absurd heq hne

end StoredLink

abbrev StoredTable := Dict (ℕ × ℕ) (List StoredLink)

namespace StoredTable
open StoredLink

def putBack (t : StoredTable) (key : ℕ × ℕ) (links : List StoredLink) : StoredTable :=
  if links.isEmpty then t.del key else t.set key links

def addLink (t : StoredTable) (src dst : Port) : Except Exc StoredTable :=
  let (src, dst) := serialize src dst
  let newLink : StoredLink := { src := some src, dst := some dst, attr := some .direct }
  match t.get? (src.dpid, dst.dpid) with
  | none => .ok (t.set (src.dpid, dst.dpid) [newLink])
  | some links =>
    match index newLink links with
    | .ok _ => .ok t
    | .error .valueError => .ok (t.set (src.dpid, dst.dpid) (links ++ [newLink]))
    | .error e => .error e

/-- Whatever the comparison raises, nothing is deleted then. -/
def delLink (t : StoredTable) (src dst : Port) : StoredTable :=
  let (src, dst) := serialize src dst
  match t.get? (src.dpid, dst.dpid) with
  | none => t
  | some links =>
    match index { src := some src, dst := some dst } links with
    | .error _ => t
    | .ok i => t.putBack (src.dpid, dst.dpid) (links.eraseIdx i)

/-- Whatever the comparison raises, the link is taken for a new one. -/
def fileVirtual (t : StoredTable) (key : ℕ × ℕ) (newVirtualLink : StoredLink) :
    StoredTable × Option Bool :=
  match t.get? key with
  | none => (t.set key [newVirtualLink], some true)
  | some links =>
    match index newVirtualLink links with
    | .error _ => (t.set key (links ++ [newVirtualLink]), some true)
    | .ok i => if links[i]?.bind (·.attr) ≠ some .virtual then (t, some false) else (t, none)

def addVirtualLink (t : StoredTable) (srcDpid : ℕ) (srcPort : Option Port) (dstDpid : ℕ)
    (dstPort : Option Port) : StoredTable × Option Bool :=
  if srcDpid > dstDpid then
    t.fileVirtual (dstDpid, srcDpid) { src := dstPort, dst := srcPort, attr := some .virtual }
  else
    t.fileVirtual (srcDpid, dstDpid) { src := srcPort, dst := dstPort, attr := some .virtual }

/-- Only a link that is not found is caught. -/
def delVirtualLink (t : StoredTable) (srcDpid : ℕ) (srcPort : Option Port) (dstDpid : ℕ)
    (dstPort : Option Port) : Except Exc (StoredTable × Option Bool) :=
  let (srcDpid, srcPort, dstDpid, dstPort) :=
    if srcDpid > dstDpid then (dstDpid, dstPort, srcDpid, srcPort)
    else (srcDpid, srcPort, dstDpid, dstPort)
  match t.get? (srcDpid, dstDpid) with
  | none => .ok (t, none)
  | some links =>
    match index { src := srcPort, dst := dstPort } links with
    | .error .valueError => .ok (t, none)
    | .error e => .error e
    | .ok i =>
      if links[i]?.bind (·.attr) = some .virtual then
        .ok (t.putBack (srcDpid, dstDpid) (links.eraseIdx i), some true)
      else .ok (t, none)

/-- The link after a deleted one moves into its place and is passed over. -/
def sweepVirtual : List StoredLink → List StoredLink
  | [] => []
  | [l] => if l.attr = some .virtual then [] else [l]
  | l :: m :: links =>
    if l.attr = some .virtual then m :: sweepVirtual links
    else l :: sweepVirtual (m :: links)

def delAllVirtualLink (t : StoredTable) (srcDpid dstDpid : ℕ) : StoredTable :=
  let key := if srcDpid > dstDpid then (dstDpid, srcDpid) else (srcDpid, dstDpid)
  match t.get? key with
  | none => t
  | some links => t.putBack key (sweepVirtual links)

/-- Files a link in the snapshot, under the numbers of its ports. -/
def fileLink (key : ℕ × ℕ) (api : Dict (ℕ × ℕ) (Dict (ℕ × ℕ) StoredLink)) (link : StoredLink) :
    Except Exc (Dict (ℕ × ℕ) (Dict (ℕ × ℕ) StoredLink)) := do
  let srcPortNo ← portNo link.src
  let dstPortNo ← portNo link.dst
  return api.setAt key (srcPortNo, dstPortNo) link

/-- `LinkTableApi.init` -/
def init (t : StoredTable) : Except Exc (Dict (ℕ × ℕ) (Dict (ℕ × ℕ) StoredLink)) :=
  t.items.foldlM (fun api item => item.2.foldlM (fileLink item.1) api) ∅

def toDict (t : StoredTable) : Except Exc (List ((ℕ × ℕ) × List LinkDict)) :=
  t.items.mapM fun item => do
    let links ← item.2.mapM StoredLink.toDict
    return (item.1, links)

end StoredTable

/-! A table whose links all have both ends is a link table, and is handled like one. -/

namespace StoredLink

def ofLink (l : Link) : StoredLink where
  src := some l.src
  dst := some l.dst
  attr := l.attr
  pktLoss := l.pktLoss
  totalBand := l.totalBand
  availableBand := l.availableBand
  delay := l.delay
  cost := l.cost

theorem eq_ofLink (l m : Link) : (ofLink l).eq (ofLink m) = .ok (l.eq m) := by
  by_cases hsrc : l.src = m.src <;> by_cases hdst : l.dst = m.dst <;>
    simp [StoredLink.eq, Link.eq, ofLink, endEq, hsrc, hdst, bind, Except.bind, pure, Except.pure]

/-- Both ends given, a lookup finds the place of the first equal link or raises `ValueError`. -/
theorem index_ofLink (m : Link) (links : List Link) :
    index (ofLink m) (links.map ofLink) = match links.findIdx? (·.eq m) with
      | some i => .ok i
      | none => .error .valueError := by
  induction links with
  | nil => rfl
  | cons l links ih =>
    rw [List.map_cons, index, eq_ofLink, List.findIdx?_cons]
    cases l.eq m with
    | true => rfl
    | false =>
      simp only [bind, Except.bind, ih, pure, Except.pure]
      cases links.findIdx? (·.eq m) <;> rfl

theorem exists_ofLink {l : StoredLink} (h : l.Whole) : ∃ m, ofLink m = l := by
  obtain ⟨_ | p, _ | q, attr, pktLoss, totalBand, availableBand, delay, cost⟩ := l
  · exact absurd rfl h.1
  · exact absurd rfl h.1
  · exact absurd rfl h.2
  · exact ⟨⟨p, q, attr, pktLoss, totalBand, availableBand, delay, cost⟩, rfl⟩

theorem sweepVirtual_ofLink (links : List Link) :
    StoredTable.sweepVirtual (links.map ofLink) = (LinkTable.sweepVirtual links).map ofLink := by
  fun_induction LinkTable.sweepVirtual links with
  | case1 => rfl
  | case2 l hl => simp [StoredTable.sweepVirtual, ofLink, hl]
  | case3 l hl => simp [StoredTable.sweepVirtual, ofLink, hl]
  | case4 l m links hl ih => simp [StoredTable.sweepVirtual, ofLink, hl, ← ih]
  | case5 l m links hl ih => simp [StoredTable.sweepVirtual, ofLink, hl, ← ih]

end StoredLink

namespace StoredTable
open StoredLink

variable {t : LinkTable} {k : ℕ × ℕ} {links : List Link}

def ofTable (t : LinkTable) : StoredTable := t.mapValues fun links => links.map ofLink

theorem get?_ofTable : (ofTable t).get? k = (t.get? k).map fun links => links.map ofLink :=
  Dict.get?_mapValues

theorem ofTable_set : ofTable (t.set k links) = (ofTable t).set k (links.map ofLink) :=
  Dict.mapValues_set _

theorem ofTable_putBack :
    ofTable (t.putBack k links) = (ofTable t).putBack k (links.map ofLink) := by
  rw [putBack, LinkTable.putBack, List.isEmpty_map]
  split
  · exact Dict.mapValues_del _
  · exact ofTable_set

/-- What is taken out of a list by its place is what is removed from it. -/
theorem eraseIdx_ofLink {m : Link} {i : ℕ} (h : links.findIdx? (·.eq m) = some i) :
    (links.map ofLink).eraseIdx i = (LinkTable.remove m links).map ofLink := by
  rw [List.eraseIdx_map, LinkTable.remove, List.eraseP_eq_eraseIdx, h]

theorem attr_ofLink {m : Link} {i : ℕ} (h : links.findIdx? (·.eq m) = some i) :
    ∃ l, links.find? (·.eq m) = some l ∧ (links.map ofLink)[i]?.bind (·.attr) = l.attr := by
  obtain ⟨hi, -⟩ := List.findIdx?_eq_some_iff_getElem.mp h
  refine ⟨links[i], ?_, ?_⟩
  · rw [List.find?_eq_bind_findIdx?_getElem?, h]
    exact List.getElem?_eq_getElem hi
  · rw [List.getElem?_map, List.getElem?_eq_getElem hi]
    rfl

theorem addLink_ofTable (t : LinkTable) (link : Link) :
    (ofTable t).addLink link.src link.dst = .ok (ofTable (t.addLink link).1) := by
  rcases hends : serialize link.src link.dst with ⟨src, dst⟩
  simp only [addLink, LinkTable.addLink, hends, get?_ofTable, ← List.findIdx?_isSome]
  cases t.get? (src.dpid, dst.dpid) with
  | none => simp [ofTable_set, ofLink]
  | some links =>
    have hindex := index_ofLink { src, dst, attr := some .direct } links
    rw [ofLink] at hindex
    simp only [Option.map_some, hindex]
    cases links.findIdx? (·.eq { src, dst, attr := some .direct }) with
    | none => simp [ofTable_set, ofLink]
    | some i => simp

theorem delLink_ofTable (t : LinkTable) (link : Link) :
    (ofTable t).delLink link.src link.dst = ofTable (t.delLink link).1 := by
  rcases hends : serialize link.src link.dst with ⟨src, dst⟩
  simp only [delLink, LinkTable.delLink, hends, get?_ofTable, ← List.findIdx?_isSome]
  cases t.get? (src.dpid, dst.dpid) with
  | none => rfl
  | some links =>
    have hindex := index_ofLink { src, dst } links
    rw [ofLink] at hindex
    simp only [Option.map_some, hindex]
    cases hi : links.findIdx? (·.eq { src, dst }) with
    | none => simp
    | some i => simp [ofTable_putBack, eraseIdx_ofLink hi]

theorem fileVirtual_ofTable (t : LinkTable) (k : ℕ × ℕ) (m : Link) :
    (ofTable t).fileVirtual k (ofLink m) = Prod.map ofTable id (match t.get? k with
      | none => (t.set k [m], some true)
      | some links => match links.find? (·.eq m) with
        | none => (t.set k (links ++ [m]), some true)
        | some l => if l.attr ≠ some .virtual then (t, some false) else (t, none)) := by
  rw [fileVirtual, get?_ofTable]
  cases t.get? k with
  | none => simp [ofTable_set]
  | some links =>
    simp only [Option.map_some, index_ofLink]
    cases hi : links.findIdx? (·.eq m) with
    | none => simp [ofTable_set, List.find?_eq_bind_findIdx?_getElem?, hi]
    | some i =>
      obtain ⟨l, hl, hattr⟩ := attr_ofLink hi
      simp only [hl, hattr]
      split <;> rfl

theorem addVirtualLink_ofTable (t : LinkTable) (a b : ℕ) (p q : Port) :
    (ofTable t).addVirtualLink a (some p) b (some q) =
      Prod.map ofTable id (t.addVirtualLink a p b q) := by
  unfold addVirtualLink LinkTable.addVirtualLink
  split
  · exact fileVirtual_ofTable t (b, a) { src := q, dst := p, attr := some .virtual }
  · exact fileVirtual_ofTable t (a, b) { src := p, dst := q, attr := some .virtual }

theorem delVirtualLink_ofTable (t : LinkTable) (a b : ℕ) (p q : Port) :
    (ofTable t).delVirtualLink a (some p) b (some q) =
      .ok (Prod.map ofTable id (t.delVirtualLink a p b q)) := by
  have hends : ∃ c r d u, (if a > b then (b, q, a, p) else (a, p, b, q)) = (c, r, d, u) ∧
      (if a > b then (b, some q, a, some p) else (a, some p, b, some q)) =
        (c, some r, d, some u) := by
    split <;> exact ⟨_, _, _, _, rfl, rfl⟩
  obtain ⟨c, r, d, u, hlink, hstored⟩ := hends
  simp only [delVirtualLink, LinkTable.delVirtualLink, hlink, hstored, get?_ofTable]
  cases t.get? (c, d) with
  | none => rfl
  | some links =>
    have hindex := index_ofLink { src := r, dst := u } links
    rw [ofLink] at hindex
    simp only [Option.map_some, hindex]
    cases hi : links.findIdx? (·.eq { src := r, dst := u }) with
    | none => simp [List.find?_eq_bind_findIdx?_getElem?, hi]
    | some i =>
      obtain ⟨l, hl, hattr⟩ := attr_ofLink hi
      simp only [hl, hattr, eraseIdx_ofLink hi, ← ofTable_putBack]
      split <;> rfl

theorem delAllVirtualLink_ofTable (t : LinkTable) (a b : ℕ) :
    (ofTable t).delAllVirtualLink a b = ofTable (t.delAllVirtualLink a b) := by
  simp only [delAllVirtualLink, LinkTable.delAllVirtualLink, get?_ofTable]
  cases t.get? (if a > b then (b, a) else (a, b)) with
  | none => rfl
  | some links => simp [ofTable_putBack, sweepVirtual_ofLink]

end StoredTable
end SDRoute
