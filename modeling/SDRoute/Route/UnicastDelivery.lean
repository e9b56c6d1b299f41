import Mathlib.Data.List.Count
import Mathlib.Tactic.Ring
import SDRoute.Route.Deployment

/-! The flow entries of a unicast route carry its packets along the path, both ways. -/
namespace SDRoute

open Forwarding

/-- What a path needs of the switches: they are known, and neighbors on the path list each
other first by the ports of one link. -/
structure PairedPath (switches : SwitchTable) (w : Wiring ℕ ℕ) (linkList : List ℕ) : Prop where
  keyed : switches.Keyed
  known : ∀ d ∈ linkList, d ∈ switches
  paired : linkList.IsChain (switches.PortsPair w)

namespace PairedPath
variable {switches : SwitchTable} {w : Wiring ℕ ℕ} {linkList : List ℕ} {i : ℕ}

theorem exists_switch (h : PairedPath switches w linkList) (hi : i < linkList.length) :
    ∃ sw, switches.get? linkList[i] = some sw ∧ sw.dp = linkList[i] := by
  obtain ⟨sw, hsw⟩ := Dict.mem_iff_get?.mp (h.known linkList[i] (List.getElem_mem hi))
  exact ⟨sw, hsw, h.keyed _ _ hsw⟩

theorem next (h : PairedPath switches w linkList) (hi : i + 1 < linkList.length) :
    switches.PortsPair w linkList[i] linkList[i + 1] :=
  List.isChain_iff_getElem.mp h.paired i hi

theorem former (h : PairedPath switches w linkList) (hi : i + 1 < linkList.length) :
    switches.PortsPair w linkList[i + 1] linkList[i] := (h.next hi).symm

end PairedPath

namespace RouteTaskEntry
open TaskEntryBase
variable {entry : RouteTaskEntry} {view : RouteManageView} {w : Wiring ℕ ℕ}
  {linkList : List ℕ} {box : Outbox} {a b : ℕ}

/-- The hop of a packet to the destination at an index of the path. -/
def hopOf (entry : RouteTaskEntry) (switches : SwitchTable) (linkList : List ℕ) (i : ℕ) :
    Hop ℕ ℕ where
  node := linkList.getD i 0
  inPort := if i = 0 then entry.srcPortNo
    else switches.portTo (linkList.getD i 0) (linkList.getD (i - 1) 0)
  outPort := if i + 1 = linkList.length then entry.dstPortNo
    else switches.portTo (linkList.getD i 0) (linkList.getD (i + 1) 0)

def pathHops (entry : RouteTaskEntry) (switches : SwitchTable) (linkList : List ℕ) :
    List (Hop ℕ ℕ) :=
  (List.range linkList.length).map (entry.hopOf switches linkList)

/-- The entry for packets to the destination. -/
def fwd (entry : RouteTaskEntry) (h : Hop ℕ ℕ) : ℕ × FlowMod :=
  (h.node, flowEntry entry.srcIp entry.dstIp h.inPort h.outPort)

/-- The entry for packets to the source. -/
def bwd (entry : RouteTaskEntry) (h : Hop ℕ ℕ) : ℕ × FlowMod :=
  (h.node, flowEntry entry.dstIp entry.srcIp h.outPort h.inPort)

theorem map_node_pathHops (entry : RouteTaskEntry) (switches : SwitchTable) (linkList : List ℕ) :
    (entry.pathHops switches linkList).map Hop.node = linkList := by
  apply List.ext_getElem
  · simp [pathHops]
  · intro i _ hi
    simp [pathHops, hopOf, hi]

/-! What a deployment sends. -/

/-- The messages of a round for the switch at an index of the path. -/
def roundMods (entry : RouteTaskEntry) (switches : SwitchTable) (linkList : List ℕ) (i : ℕ) :
    List (ℕ × FlowMod) :=
  let h := entry.hopOf switches linkList i
  if i = 0 then [entry.fwd h]
  else if i = linkList.length - 1 then [entry.bwd h]
  else [entry.fwd h, entry.bwd h]

/-- The row of a round, none for the last switch. -/
def roundRow (switches : SwitchTable) (linkList : List ℕ) (i : ℕ) : List LinkRow :=
  let dpid := linkList.getD i 0
  let next := linkList.getD (i + 1) 0
  if i + 1 < linkList.length then
    [((dpid, switches.portTo dpid next), (next, switches.portTo next dpid))]
  else []

theorem zipIdx_eq_map : linkList.zipIdx = (List.range linkList.length).map
    fun i => (linkList.getD i 0, i) := by
  apply List.ext_getElem
  · simp
  · intro i hi _
    have hi' : i < linkList.length := by simpa using hi
    simp [hi']

theorem exec_linkRow (hp : PairedPath view.switches w linkList) {i : ℕ} {sw : Switch}
    (hi : i + 1 < linkList.length) (hsw : view.switches.get? linkList[i] = some sw) :
    (linkRow view sw linkList[i] linkList[i + 1]).exec box =
      (.ok ((sw.dp, view.switches.portTo linkList[i] linkList[i + 1]),
        (linkList[i + 1], view.switches.portTo linkList[i + 1] linkList[i])), box) := by
  obtain ⟨next, hnext, hdp⟩ := hp.exists_switch hi
  unfold linkRow
  rw [Py.exec_bind_of_ok (exec_firstPort hsw (hp.next hi).head?),
    Py.exec_bind_of_ok (exec_getSwitch hnext),
    Py.exec_bind_of_ok (exec_firstPort hnext (hp.former hi).head?), hdp]
  rfl

theorem exec_deployRound (hp : PairedPath view.switches w linkList) {i : ℕ}
    (hi : i < linkList.length) (hlen : 2 < linkList.length) (links : List LinkRow)
    (box : Outbox) :
    (entry.deployRound view linkList links (linkList[i], i)).exec box =
      (.ok (links ++ roundRow view.switches linkList i),
        box.push (entry.roundMods view.switches linkList i)) := by
  obtain ⟨sw, hsw, hdp⟩ := hp.exists_switch hi
  have hat : ∀ j, (hj : j < linkList.length) → linkList[j]? = some linkList[j] :=
    fun j hj => List.getElem?_eq_getElem hj
  cases i with
  | zero =>
    have hnext := hp.next (i := 0) (by omega)
    have h0 := hat 0 hi
    have h1 := hat 1 (by omega)
    simp [deployRound, Py.exec_bind, exec_getSwitch hsw, exec_flowMod, exec_hopAt h1,
      exec_firstPort hsw hnext.head?, exec_linkRow hp (i := 0) (by omega) hsw, roundRow,
      roundMods, hopOf, fwd, hdp, Except.map, h0, show 1 < linkList.length by omega,
      show 1 ≠ linkList.length by omega]
  | succ j =>
    have hformer := hp.former hi
    have hj := hat j (by omega)
    have hself := hat (j + 1) hi
    by_cases hlast : linkList.length = j + 2
    · simp [deployRound, Py.exec_bind, exec_getSwitch hsw, exec_flowMod, exec_hopAt hj,
        exec_firstPort hsw hformer.head?, roundRow, roundMods, hopOf, bwd, hdp, hlast, Except.map]
    · have hnext := hp.next (i := j + 1) (by omega)
      have hj2 := hat (j + 1 + 1) (by omega)
      simp [deployRound, Py.exec_bind, exec_getSwitch hsw, exec_flowMod, exec_hopAt hj,
        exec_hopAt hj2, exec_firstPort hsw hformer.head?, exec_firstPort hsw hnext.head?,
        exec_linkRow hp (i := j + 1) (by omega) hsw, roundRow, roundMods, hopOf, fwd, bwd, hdp,
        Except.map, hj, hself, show j + 1 + 1 < linkList.length by omega,
        show j + 1 ≠ linkList.length - 1 by omega, show j + 1 + 1 ≠ linkList.length by omega]

/-- What the deployment of a path sends, in order. -/
def sentMods (entry : RouteTaskEntry) (switches : SwitchTable) (linkList : List ℕ) :
    List (ℕ × FlowMod) :=
  let hop := entry.hopOf switches linkList
  match linkList.length with
  | 0 => []
  | 1 => [entry.bwd (hop 0), entry.fwd (hop 0)]
  | 2 => [entry.bwd (hop 1), entry.fwd (hop 1), entry.bwd (hop 0), entry.fwd (hop 0)]
  | n + 3 => (List.range (n + 3)).flatMap (entry.roundMods switches linkList) ++
      [entry.fwd (hop (n + 2)), entry.bwd (hop 0)]

theorem exec_deployFlowTable_one (hp : PairedPath view.switches w [a]) :
    ((entry.deployFlowTable view [a]).exec box) =
      (.ok true, box.push (entry.sentMods view.switches [a])) := by
  obtain ⟨sw, hsw, hdp⟩ := hp.exists_switch (i := 0) (by simp)
  simp only [List.getElem_cons_zero] at hsw hdp
  simp [deployFlowTable, Py.exec_bind, exec_getSwitch hsw, exec_flowMod, hdp, sentMods, hopOf,
    fwd, bwd, Except.map]

theorem exec_deployFlowTable_two (hp : PairedPath view.switches w [a, b]) :
    ((entry.deployFlowTable view [a, b]).exec box) =
      (.ok true, box.push (entry.sentMods view.switches [a, b])) := by
  obtain ⟨sw1, hsw1, hdp1⟩ := hp.exists_switch (i := 0) (by simp)
  obtain ⟨sw2, hsw2, hdp2⟩ := hp.exists_switch (i := 1) (by simp)
  have h12 := (hp.next (i := 0) (by simp)).head?
  have h21 := (hp.former (i := 0) (by simp)).head?
  simp only [List.getElem_cons_zero, List.getElem_cons_succ] at hsw1 hsw2 hdp1 hdp2
  simp only [List.getElem_cons_zero, List.getElem_cons_succ, Nat.zero_add] at h12 h21
  simp [deployFlowTable, Py.exec_bind, exec_getSwitch hsw1, exec_getSwitch hsw2, exec_flowMod,
    exec_firstPort hsw1 h12, exec_firstPort hsw2 h21, hdp1, hdp2, sentMods, hopOf, fwd, bwd,
    Except.map]

theorem exec_deployLoop (hp : PairedPath view.switches w linkList) (hlen : 2 < linkList.length) :
    (linkList.zipIdx.foldlM (entry.deployRound view linkList) []).exec box =
      (.ok ((List.range linkList.length).flatMap (roundRow view.switches linkList)),
        box.push ((List.range linkList.length).flatMap
          (entry.roundMods view.switches linkList))) := by
  have hrounds : ∀ x ∈ linkList.zipIdx, ∀ links box,
      (entry.deployRound view linkList links x).exec box =
        (.ok (links ++ roundRow view.switches linkList x.2),
          box.push (entry.roundMods view.switches linkList x.2)) := by
    rintro ⟨d, i⟩ hx links box
    obtain ⟨hi, hd⟩ := List.mem_zipIdx' hx
    rw [hd]
    exact exec_deployRound hp hi hlen links box
  rw [exec_foldlM_push _ _ hrounds, List.nil_append]
  simp only [zipIdx_eq_map, List.flatMap_map]

theorem exec_deployLong (hp : PairedPath view.switches w linkList) (hlen : 2 < linkList.length) :
    ∃ box', (entry.deployLong view linkList).exec box = (.ok true, box') ∧
      box'.mods = box.mods ++ entry.sentMods view.switches linkList := by
  obtain ⟨n, hn⟩ : ∃ n, linkList.length = n + 3 := ⟨linkList.length - 3, by omega⟩
  have hat : ∀ j, (hj : j < linkList.length) → linkList[j]? = some linkList[j] :=
    fun j hj => List.getElem?_eq_getElem hj
  obtain ⟨sw1, hsw1, hdp1⟩ := hp.exists_switch (i := 0) (by omega)
  obtain ⟨sw2, hsw2, hdp2⟩ := hp.exists_switch (i := n + 2) (by omega)
  have h12 := (hp.next (i := 0) (by omega)).head?
  have h21 := (hp.former (i := n + 1) (by omega)).head?
  have hlast : linkList.length - 1 = n + 2 := by omega
  have hprev : linkList.length - 2 = n + 1 := by omega
  unfold deployLong
  rw [Py.exec_bind_of_ok (exec_deployLoop hp hlen)]
  generalize (List.range linkList.length).flatMap (roundRow view.switches linkList) = links
  obtain ⟨events, hevents⟩ := exec_sendRouteSet  links
  rw [Py.exec_bind_of_ok hevents, hlast, hprev]
  simp [Py.exec_bind, exec_hopAt (hat 0 (by omega)), exec_hopAt (hat 1 (by omega)),
    exec_hopAt (hat (n + 1) (by omega)), exec_hopAt (hat (n + 2) (by omega)),
    exec_getSwitch hsw1, exec_getSwitch hsw2, exec_flowMod, exec_firstPort hsw1 h12,
    exec_firstPort hsw2 h21, hdp1, hdp2, sentMods, hn, hopOf, fwd, bwd, Except.map]

theorem exec_deployFlowTable (entry : RouteTaskEntry) (box : Outbox)
    (hp : PairedPath view.switches w linkList) (hne : linkList ≠ []) :
    ∃ box', (entry.deployFlowTable view linkList).exec box = (.ok true, box') ∧
      box'.mods = box.mods ++ entry.sentMods view.switches linkList := by
  match linkList, hp, hne with
  | [_], hp, _ => exact ⟨_, exec_deployFlowTable_one hp, rfl⟩
  | [_, _], hp, _ => exact ⟨_, exec_deployFlowTable_two hp, rfl⟩
  | _ :: _ :: _ :: _, hp, _ => exact exec_deployLong hp (by simp)

/-- Each switch of the path gets its entry for either direction. -/
theorem sentMods_perm (entry : RouteTaskEntry) (switches : SwitchTable) (hne : linkList ≠ []) :
    (entry.sentMods switches linkList).Perm
      ((entry.pathHops switches linkList).map entry.fwd ++
        (entry.pathHops switches linkList).map entry.bwd) := by
  have hpos := List.length_pos_iff.mpr hne
  rw [pathHops, sentMods]
  rcases hn : linkList.length with _ | _ | _ | n
  · omega
  · exact List.Perm.swap _ _ _
  · rw [List.perm_iff_count]
    intro a
    simp only [List.range_succ, List.range_zero, List.map_append, List.map_cons, List.map_nil,
      List.count_append, List.count_cons, List.count_nil]
    ring
  · have hfirst : entry.roundMods switches linkList 0 =
        [entry.fwd (entry.hopOf switches linkList 0)] := rfl
    have hlast : entry.roundMods switches linkList (n + 2) =
        [entry.bwd (entry.hopOf switches linkList (n + 2))] := by
      simp [roundMods, hn]
    have hmiddle : ∀ i ∈ List.range (n + 1), entry.roundMods switches linkList (i + 1) =
        [entry.fwd (entry.hopOf switches linkList (i + 1))] ++
          [entry.bwd (entry.hopOf switches linkList (i + 1))] := by
      intro i hi
      have hi' := List.mem_range.mp hi
      simp [roundMods, hn, show i ≠ n + 1 by omega]
    have hpairs := List.flatMap_append_perm (List.range (n + 1))
      (fun i => [entry.fwd (entry.hopOf switches linkList (i + 1))])
      (fun i => [entry.bwd (entry.hopOf switches linkList (i + 1))])
    simp only [← List.map_eq_flatMap] at hpairs
    rw [List.perm_iff_count] at hpairs ⊢
    intro a
    have ha := hpairs a
    simp only [List.count_append] at ha ⊢
    rw [List.range_succ, List.range_succ_eq_map]
    simp only [List.flatMap_append, List.flatMap_cons, List.flatMap_nil, List.append_nil,
      List.flatMap_map, Nat.succ_eq_add_one, List.flatMap_congr hmiddle, hfirst, hlast]
    simp only [List.map_append, List.map_cons, List.map_nil, List.map_map, List.count_append,
      List.count_cons, List.count_nil, Function.comp_def, Nat.succ_eq_add_one] at ha ⊢
    omega

/-! What the entries do. -/

section
variable {tables : FlowTables} {switches : SwitchTable}

theorem mem_sentMods (hne : linkList ≠ []) {x : ℕ × FlowMod} :
    x ∈ entry.sentMods switches linkList ↔
      ∃ h ∈ entry.pathHops switches linkList, x = entry.fwd h ∨ x = entry.bwd h := by
  rw [(sentMods_perm entry switches hne).mem_iff, List.mem_append, List.mem_map, List.mem_map]
  grind

theorem sentMods_nodup (switches : SwitchTable) (hne : linkList ≠ []) (hnodup : linkList.Nodup)
    (hips : entry.srcIp ≠ entry.dstIp) :
    ((entry.sentMods switches linkList).map fun x => (x.1, x.2.criteria)).Nodup := by
  have hnodes : ∀ f : Hop ℕ ℕ → ℕ × FlowMod, (∀ h, (f h).1 = h.node) →
      (((entry.pathHops switches linkList).map f).map fun x => (x.1, x.2.criteria)).Nodup := by
    intro f hf
    apply List.Nodup.of_map Prod.fst
    simpa [List.map_map, Function.comp_def, hf, map_node_pathHops] using hnodup
  refine ((sentMods_perm entry switches hne).map _).nodup_iff.mpr ?_
  rw [List.map_append]
  refine (hnodes _ fun _ => rfl).append (hnodes _ fun _ => rfl) ?_
  intro x hfwd hbwd
  simp only [List.map_map, List.mem_map, Function.comp_apply, fwd, bwd, flowEntry] at hfwd hbwd
  obtain ⟨h, -, rfl⟩ := hfwd
  obtain ⟨g, -, heq⟩ := hbwd
  exact hips (congrArg (fun x => x.2.ipv4Dst) heq)

theorem sentMods_fresh (switches : SwitchTable) (hne : linkList ≠ [])
    (hfwd : ∀ d, FlowTables.NoneFor entry.srcIp entry.dstIp (tables d))
    (hbwd : ∀ d, FlowTables.NoneFor entry.dstIp entry.srcIp (tables d)) :
    ∀ x ∈ entry.sentMods switches linkList,
      FlowTables.NoneFor x.2.criteria.ipv4Src x.2.criteria.ipv4Dst (tables x.1) := by
  intro x hx
  obtain ⟨h, -, rfl | rfl⟩ := (mem_sentMods hne).mp hx
  · exact hfwd _
  · exact hbwd _

/-- Consecutive hops of the path are the two ends of a link. -/
theorem isChain_pathHops (entry : RouteTaskEntry) (hp : PairedPath switches w linkList) :
    (entry.pathHops switches linkList).IsChain (Wired w) := by
  rw [List.isChain_iff_getElem]
  intro i hi
  have hi' : i + 1 < linkList.length := by simpa [pathHops] using hi
  have hpair := (hp.next hi').peer
  simp [Wired, pathHops, hopOf, show i < linkList.length by omega, hi',
    show i + 1 ≠ linkList.length by omega, hpair]

/-- Every switch of the path counts one entry of either direction, and no other switch. -/
theorem countP_sentMods (switches : SwitchTable) (hne : linkList ≠ [])
    (hips : entry.srcIp ≠ entry.dstIp) (d : ℕ) :
    (FlowTables.modsAt (entry.sentMods switches linkList) d).countP
        (FlowTables.isFor entry.srcIp entry.dstIp) = linkList.count d ∧
      (FlowTables.modsAt (entry.sentMods switches linkList) d).countP
        (FlowTables.isFor entry.dstIp entry.srcIp) = linkList.count d := by
  have hcount : linkList.count d =
      (entry.pathHops switches linkList).countP fun h => h.node = d := by
    conv_lhs => rw [← map_node_pathHops entry switches linkList]
    rw [List.count_eq_countP, List.countP_map]
    congr 1
  have hperm := sentMods_perm entry switches hne
  rw [hcount, FlowTables.countP_modsAt, FlowTables.countP_modsAt, hperm.countP_eq,
    hperm.countP_eq]
  simp only [List.countP_append, List.countP_map]
  constructor
  · have hbwd : (entry.pathHops switches linkList).countP ((fun x : ℕ × FlowMod => x.1 = d &&
        FlowTables.isFor entry.srcIp entry.dstIp x.2) ∘ entry.bwd) = 0 := by
      rw [List.countP_eq_zero]
      intro h _
      simp [FlowTables.isFor, bwd, flowEntry, Match.exact, hips.symm]
    rw [hbwd, Nat.add_zero]
    refine List.countP_congr fun h _ => ?_
    simp [FlowTables.isFor, fwd, flowEntry, Match.exact]
    exact decide_eq_true_iff
  · have hfwd : (entry.pathHops switches linkList).countP ((fun x : ℕ × FlowMod => x.1 = d &&
        FlowTables.isFor entry.dstIp entry.srcIp x.2) ∘ entry.fwd) = 0 := by
      rw [List.countP_eq_zero]
      intro h _
      simp [FlowTables.isFor, fwd, flowEntry, Match.exact, hips]
    rw [hfwd, Nat.zero_add]
    refine List.countP_congr fun h _ => ?_
    simp [FlowTables.isFor, bwd, flowEntry, Match.exact]
    exact decide_eq_true_iff

theorem modsAt_sentMods (hne : linkList ≠ []) {d : ℕ} (hd : d ∉ linkList) :
    FlowTables.modsAt (entry.sentMods switches linkList) d = [] := by
  rw [FlowTables.modsAt, List.map_eq_nil_iff, List.filter_eq_nil_iff]
  intro x hx heq
  obtain ⟨h, hh, hx'⟩ := (mem_sentMods hne).mp hx
  have hnode : h.node ∈ linkList := by
    rw [← map_node_pathHops entry switches linkList]
    exact List.mem_map_of_mem hh
  rcases hx' with rfl | rfl <;> exact hd (by simpa [fwd, bwd] using of_decide_eq_true heq ▸ hnode)

/-- The path starts and ends at the ports of the two hosts. -/
theorem pathHops_ends (entry : RouteTaskEntry) (switches : SwitchTable) (hne : linkList ≠ []) :
    ∃ h g, (entry.pathHops switches linkList).head? = some h ∧
      (entry.pathHops switches linkList).getLast? = some g ∧
      (h.node, h.inPort) = (linkList.head hne, entry.srcPortNo) ∧
      (g.node, g.outPort) = (linkList.getLast hne, entry.dstPortNo) := by
  obtain ⟨n, hn⟩ := Nat.exists_eq_add_one.mpr (List.length_pos_iff.mpr hne)
  refine ⟨entry.hopOf switches linkList 0, entry.hopOf switches linkList n, ?_, ?_, ?_, ?_⟩
  · simp [pathHops, hn, List.range_succ_eq_map]
  · simp [pathHops, hn, List.range_succ]
  · simp [hopOf, List.head_eq_getElem, hn]
  · simp [hopOf, List.getLast_eq_getElem, hn]

/-- A unicast deployment delivers: packets between the two hosts take exactly the path, in
order, and leave on the port of the host, in both directions; every switch of the path gets
one entry for each direction, the others none. -/
theorem deployFlowTable_delivers (hne : linkList ≠ []) (hnodup : linkList.Nodup)
    (hp : PairedPath view.switches w linkList) (hips : entry.srcIp ≠ entry.dstIp)
    (hfwd : ∀ d, FlowTables.NoneFor entry.srcIp entry.dstIp (tables d))
    (hbwd : ∀ d, FlowTables.NoneFor entry.dstIp entry.srcIp (tables d)) :
    ∃ box path, (entry.deployFlowTable view linkList).exec {} = (.ok true, box) ∧
      path.map Hop.node = linkList ∧
      let after := tables.install box.mods
      (∀ k, hops w (after.outs entry.srcIp entry.dstIp) (linkList.length + k)
          (linkList.head hne, entry.srcPortNo) =
        path ++ leave w (after.outs entry.srcIp entry.dstIp) k
          (linkList.getLast hne, entry.dstPortNo)) ∧
      (∀ k, hops w (after.outs entry.dstIp entry.srcIp) (linkList.length + k)
          (linkList.getLast hne, entry.dstPortNo) =
        (path.map Hop.flip).reverse ++ leave w (after.outs entry.dstIp entry.srcIp) k
          (linkList.head hne, entry.srcPortNo)) ∧
      (∀ d ∈ linkList, (after d).countP (FlowTables.isFor entry.srcIp entry.dstIp) = 1 ∧
        (after d).countP (FlowTables.isFor entry.dstIp entry.srcIp) = 1) ∧
      ∀ d, d ∉ linkList → after d = tables d := by
  obtain ⟨box, hexec, hmods⟩ := exec_deployFlowTable entry {} hp hne
  rw [List.nil_append] at hmods
  obtain ⟨h, g, hfirst, hlast, hstart, hend⟩ :=
    pathHops_ends entry view.switches hne
  have hchain := isChain_pathHops entry hp
  have hnodes := map_node_pathHops entry view.switches linkList
  have hlen : (entry.pathHops view.switches linkList).length = linkList.length := by
    simp [pathHops]
  have hkeys := sentMods_nodup view.switches hne hnodup hips
  have hfresh := sentMods_fresh view.switches hne hfwd hbwd
  have hnew : ∀ x ∈ entry.sentMods view.switches linkList, ∀ n ∈ tables x.1,
      n.criteria ≠ x.2.criteria :=
    fun x hx n hn heq => hfresh x hx n hn ⟨by rw [heq], by rw [heq]⟩
  have houts : ∀ f ∈ entry.pathHops view.switches linkList,
      (tables.install box.mods).outs entry.srcIp entry.dstIp f.node f.inPort = [f.outPort] ∧
      (tables.install box.mods).outs entry.dstIp entry.srcIp f.node f.outPort = [f.inPort] := by
    intro f hf
    rw [hmods]
    have hthere := (mem_sentMods hne).mpr ⟨f, hf, .inl rfl⟩
    have hback := (mem_sentMods hne).mpr ⟨f, hf, .inr rfl⟩
    exact ⟨FlowTables.outs_install hkeys (fun n hn hc => absurd hc (hnew _ hthere n hn)) hthere rfl,
      FlowTables.outs_install hkeys (fun n hn hc => absurd hc (hnew _ hback n hn)) hback rfl⟩
  refine ⟨box, entry.pathHops view.switches linkList, hexec, hnodes, fun k => ?_, fun k => ?_,
    fun d hd => ?_, fun d hd => ?_⟩
  · rw [← hstart, ← hend, ← hlen]
    exact hops_chain hchain (fun f hf => (houts f hf).1) hfirst hlast k
  · have hback : hops w ((tables.install box.mods).outs entry.dstIp entry.srcIp)
        (((entry.pathHops view.switches linkList).map Hop.flip).reverse.length + k)
        (g.flip.node, g.flip.inPort) = _ :=
      hops_chain (isChain_flip hchain) (fun f' hf' => by
        obtain ⟨f, hf, rfl⟩ := List.mem_map.mp (List.mem_reverse.mp hf')
        exact (houts f hf).2) (by simp [hlast]) (by simp [hfirst]; rfl) k
    rw [← hstart, ← hend, ← hlen]
    simpa using hback
  · have hcount := countP_sentMods view.switches hne hips d
    have hone : linkList.count d = 1 := List.count_eq_one_of_mem hnodup hd
    rw [hmods, FlowTables.install_of_fresh hkeys hnew, List.countP_append, List.countP_append,
      (hfwd d).countP, (hbwd d).countP, hcount.1, hcount.2, hone]
    exact ⟨rfl, rfl⟩
  · rw [hmods, FlowTables.install_of_fresh hkeys hnew, modsAt_sentMods hne hd, List.append_nil]

end

/-- Port 10 * a + b of switch a is wired to port 10 * b + a of switch b. -/
def decimalWiring : Wiring ℕ ℕ where
  peer := fun (a, p) => if p / 10 = a ∧ a < 10 then some (p % 10, 10 * (p % 10) + a) else none
  symm := by
    rintro ⟨a, p⟩ ⟨b, q⟩ h
    simp only [Option.ite_none_right_eq_some, Option.some.injEq, Prod.mk.injEq] at h ⊢
    omega

def lineSwitches : SwitchTable :=
  ((Dict.set ∅ 1 { dp := 1, neighbors := Dict.set ∅ 2 [12] }).set 2
    { dp := 2, neighbors := (Dict.set ∅ 1 [21]).set 3 [23] }).set 3
    { dp := 3, neighbors := Dict.set ∅ 2 [32, 99] }

theorem pairedPath_line : PairedPath lineSwitches decimalWiring [1, 2, 3] where
  keyed d sw h := by
    simp only [lineSwitches, Dict.get?_set] at h
    grind [Dict.get?_empty]
  known := by decide
  paired := by
    refine .cons_cons ?_ (.cons_cons ?_ (.singleton 3))
    · exact ⟨12, 21, by decide, by decide, by decide⟩
    · exact ⟨23, 32, by decide, by decide, by decide⟩

theorem deployFlowTable_delivers_line :
    let entry : RouteTaskEntry := {
      srcDpid := 1, srcIp := "10.0.0.1", srcPortNo := 100, dstIp := "10.0.0.2", timestamp := 0
      dstDpid := 3, dstPortNo := 101 }
    ∃ box path, (entry.deployFlowTable { switches := lineSwitches } [1, 2, 3]).exec {} =
      (.ok true, box) ∧ path.map Hop.node = [1, 2, 3] ∧
      hops decimalWiring (FlowTables.outs (FlowTables.install (fun _ => []) box.mods)
        "10.0.0.1" "10.0.0.2") 3 (1, 100) = path := by
  intro entry
  obtain ⟨box, path, hexec, hnodes, hthere, -⟩ :=
    @deployFlowTable_delivers entry { switches := lineSwitches } decimalWiring [1, 2, 3]
      (fun _ => []) (by simp) (by decide) pairedPath_line (by decide)
      (fun _ _ h => by cases h) (fun _ _ h => by cases h)
  refine ⟨box, path, hexec, hnodes, ?_⟩
  refine (hthere 0).trans ?_
  change path ++ leave decimalWiring _ 0 (3, 101) = path
  rw [leave, show decimalWiring.peer (3, 101) = none by decide, List.append_nil]

end RouteTaskEntry
end SDRoute
