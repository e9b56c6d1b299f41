import SDRoute.Route.MulticastFormat
import SDRoute.Route.UnicastDelivery

/-! The flow entries of a multicast tree copy a packet to each member port exactly once. -/
namespace SDRoute.MulticastTaskEntry

open Forwarding TaskEntryBase

variable {branches : List (List ℕ)} {b c' : List ℕ} {s d i j : ℕ} {recs : FormatLinkList}

/-! Depths of switches, and the record of a switch. -/

/-- A switch stands at the same position in every branch that holds it. -/
theorem BranchTree.position_unique (h : BranchTree s branches) (hb : b ∈ branches)
    (hc : c' ∈ branches) (hi : b[i]? = some d) (hj : c'[j]? = some d) : i = j := by
  induction i generalizing j d with
  | zero =>
    obtain rfl : d = s := Option.some.inj (hi.symm.trans (h.source b hb))
    cases j with
    | zero => rfl
    | succ j => exact absurd hj (h.not_source hc)
  | succ i ih =>
    cases j with
    | zero =>
      obtain rfl : d = s := Option.some.inj (hj.symm.trans (h.source c' hc))
      exact absurd hi (h.not_source hb)
    | succ j =>
      have hlt := (List.getElem?_eq_some_iff.mp hi).1
      have hformer : b[i]? = some b[i] := List.getElem?_eq_getElem (by omega)
      have hagree := h.agree b hb c' hc i j d hi hj
      rw [ih hformer (hagree ▸ hformer)]

def depthOf (branches : List (List ℕ)) (d : ℕ) : ℕ :=
  match branches.find? (d ∈ ·) with
  | none => 0
  | some b => b.idxOf d

theorem BranchTree.depthOf_eq (h : BranchTree s branches) (hb : b ∈ branches)
    (hi : b[i]? = some d) : depthOf branches d = i := by
  unfold depthOf
  cases hfind : branches.find? (d ∈ ·) with
  | none =>
    rw [List.find?_eq_none] at hfind
    exact absurd (List.mem_of_getElem? hi) (by simpa using hfind b hb)
  | some c =>
    have hmem : d ∈ c := by simpa using List.find?_some hfind
    exact h.position_unique (List.mem_of_find?_eq_some hfind) hb (List.getElem?_idxOf hmem) hi

/-- The record of a switch, an empty one if there is none. -/
def infoOf (recs : FormatLinkList) (d : ℕ) : LinkInfo :=
  match recs.find? (·.1 = d) with
  | none => { former := none }
  | some r => r.2

theorem infoOf_of_mem (hnodup : (recs.map Prod.fst).Nodup) {r : ℕ × LinkInfo} (hr : r ∈ recs) :
    infoOf recs r.1 = r.2 := by
  unfold infoOf
  cases hfind : recs.find? (·.1 = r.1) with
  | none =>
    rw [List.find?_eq_none] at hfind
    simpa using hfind r hr
  | some q =>
    have hq : q.1 = r.1 := by simpa using List.find?_some hfind
    rw [List.inj_on_of_nodup_map hnodup (List.mem_of_find?_eq_some hfind) hr hq]

theorem infoOf_of_notMem (h : d ∉ recs.map Prod.fst) : infoOf recs d = { former := none } := by
  unfold infoOf
  rw [List.find?_eq_none.mpr]
  intro r hr heq
  exact h (List.mem_map.mpr ⟨r, hr, by simpa using heq⟩)

theorem Formatted.mem_next_infoOf (hf : Formatted s branches recs) {e : ℕ} :
    e ∈ (infoOf recs d).next ↔ ∃ b ∈ branches, ∃ i, b[i]? = some d ∧ b[i + 1]? = some e := by
  by_cases hd : d ∈ recs.map Prod.fst
  · obtain ⟨r, hr, rfl⟩ := List.mem_map.mp hd
    rw [infoOf_of_mem hf.keys_nodup hr, hf.mem_next r hr]
  · rw [infoOf_of_notMem hd]
    simp only [List.not_mem_nil, false_iff]
    rintro ⟨b, hb, i, hi, -⟩
    exact hd ((hf.mem_keys d).mpr ⟨b, hb, List.mem_of_getElem? hi⟩)

/-! The tree along which the packet is copied. -/

variable {entry : MulticastTaskEntry} {view : RouteManageView} {w : Wiring ℕ ℕ}
  {groupInfo : Dict ℕ (Dict ℕ GroupPort)} {tables : FlowTables}

/-- The ports of the members on a switch that ends a branch. -/
def membersAt (groupInfo : Dict ℕ (Dict ℕ GroupPort)) (recs : FormatLinkList) (d : ℕ) : List ℕ :=
  if (infoOf recs d).isEnd then ((groupInfo.get? d).map (·.keys)).getD [] else []

def inPortAt (entry : MulticastTaskEntry) (switches : SwitchTable) (recs : FormatLinkList)
    (d : ℕ) : ℕ :=
  if (infoOf recs d).root then entry.srcPortNo
  else switches.portTo d ((infoOf recs d).former.getD 0)

def treeOf (entry : MulticastTaskEntry) (switches : SwitchTable)
    (groupInfo : Dict ℕ (Dict ℕ GroupPort)) (h : BranchTree s branches)
    (hf : Formatted s branches recs) : Tree ℕ ℕ where
  children d := (infoOf recs d).next
  members := membersAt groupInfo recs
  inPort := inPortAt entry switches recs
  portTo := switches.portTo
  depth := depthOf branches
  depth_child := by
    intro d c hc
    obtain ⟨b, hb, i, hd, hc⟩ := hf.mem_next_infoOf.mp hc
    rw [h.depthOf_eq hb hd, h.depthOf_eq hb hc]
  parent_unique := by
    intro d e c hd he
    obtain ⟨b, hb, i, hbd, hbc⟩ := hf.mem_next_infoOf.mp hd
    obtain ⟨b', hb', j, hbe, hbc'⟩ := hf.mem_next_infoOf.mp he
    have hagree := h.agree b hb b' hb' i j c hbc hbc'
    rw [hbd, hbe] at hagree
    exact Option.some.inj hagree
  children_nodup := by
    intro d
    by_cases hd : d ∈ recs.map Prod.fst
    · obtain ⟨r, hr, rfl⟩ := List.mem_map.mp hd
      rw [infoOf_of_mem hf.keys_nodup hr]
      exact hf.next_nodup r hr
    · rw [infoOf_of_notMem hd]
      exact List.nodup_nil
  members_nodup := by
    intro d
    unfold membersAt
    split
    · cases groupInfo.get? d with
      | none => exact List.nodup_nil
      | some ports => exact ports.keys_nodup
    · exact List.nodup_nil

/-- What a multicast deployment needs: neighbors on a branch list each other first by the
ports of one link, and the group has its members, on ports that face hosts, at exactly the
ends of the branches. -/
structure Deployable (view : RouteManageView) (w : Wiring ℕ ℕ) (branches : List (List ℕ))
    (groupInfo : Dict ℕ (Dict ℕ GroupPort)) : Prop where
  path : ∀ b ∈ branches, PairedPath view.switches w b
  ends : ∀ d, d ∈ groupInfo ↔ ∃ b ∈ branches, b.getLast? = some d
  facing : ∀ d ports, groupInfo.get? d = some ports → ∀ p ∈ ports, w.peer (d, p) = none

/-- The entry that a switch of the tree gets. -/
def modAt (entry : MulticastTaskEntry) (switches : SwitchTable)
    (groupInfo : Dict ℕ (Dict ℕ GroupPort)) (recs : FormatLinkList) (d : ℕ) : ℕ × FlowMod :=
  (d, flowEntry entry.srcIp entry.dstIp (inPortAt entry switches recs d)
    (membersAt groupInfo recs d ++ (infoOf recs d).next.map (switches.portTo d)))

theorem Deployable.pair (hp : Deployable view w branches groupInfo) (hb : b ∈ branches) {e : ℕ}
    (hd : b[i]? = some d) (he : b[i + 1]? = some e) : view.switches.PortsPair w d e := by
  obtain ⟨hi, rfl⟩ := List.getElem?_eq_some_iff.mp hd
  obtain ⟨hi', rfl⟩ := List.getElem?_eq_some_iff.mp he
  exact (hp.path b hb).next hi'

/-- A record other than that of the source has the switch before it in its branches. -/
theorem Formatted.exists_former (h : BranchTree s branches) (hf : Formatted s branches recs)
    {r : ℕ × LinkInfo} (hr : r ∈ recs) (hne : r.1 ≠ s) :
    ∃ b ∈ branches, ∃ i e, b[i]? = some e ∧ b[i + 1]? = some r.1 ∧ r.2.former = some e := by
  obtain ⟨b, hb, hmem⟩ := (hf.mem_keys r.1).mp (List.mem_map_of_mem hr)
  obtain ⟨j, hj⟩ := List.getElem?_of_mem hmem
  cases j with
  | zero => exact absurd (Option.some.inj (hj.symm.trans (h.source b hb))) hne
  | succ i =>
    have hlt := (List.getElem?_eq_some_iff.mp hj).1
    have hi : b[i]? = some b[i] := List.getElem?_eq_getElem (by omega)
    exact ⟨b, hb, i, b[i], hi, hj, (hf.former r hr b hb i hj).trans hi⟩

theorem exec_deploySwitch (h : BranchTree s branches) (hf : Formatted s branches recs)
    (hp : Deployable view w branches groupInfo) {r : ℕ × LinkInfo} (hr : r ∈ recs) (box : Outbox) :
    (entry.deploySwitch view groupInfo r).exec box =
      (.ok (), box.push [modAt entry view.switches groupInfo recs r.1]) := by
  obtain ⟨b, hb, hmem⟩ := (hf.mem_keys r.1).mp (List.mem_map_of_mem hr)
  obtain ⟨sw, hsw⟩ := Dict.mem_iff_get?.mp ((hp.path b hb).known r.1 hmem)
  have hdp := (hp.path b hb).keyed r.1 sw hsw
  have hinfo := infoOf_of_mem hf.keys_nodup hr
  obtain ⟨d, info⟩ := r
  simp only at hsw hdp hinfo hmem
  have hin : (getInPort entry sw info).exec box =
      (.ok (inPortAt entry view.switches recs d), box) := by
    unfold getInPort inPortAt
    rw [hinfo]
    split
    · rfl
    · rename_i hroot
      obtain ⟨b, hb, i, e, he, hd, hformer⟩ := hf.exists_former h hr fun heq =>
        hroot ((hf.root _ hr).mpr heq)
      simp only at hformer hd
      simp [hformer, exec_firstPort hsw (hp.pair hb he hd).symm.head?]
  have hmembers : (getGroupOutports groupInfo d info).exec box =
      (.ok (membersAt groupInfo recs d), box) := by
    unfold getGroupOutports membersAt
    rw [hinfo]
    split
    · rename_i hend
      obtain ⟨ports, hports⟩ := Dict.mem_iff_get?.mp ((hp.ends d).mpr ((hf.isEnd _ hr).mp hend))
      simp [hports]
    · rfl
  have hnext : (info.next.mapM (firstPort sw)).exec box =
      (.ok (info.next.map (view.switches.portTo d)), box) := by
    refine Py.exec_mapM fun e he => ?_
    obtain ⟨b, hb, i, hd, he⟩ := (hf.mem_next _ hr e).mp he
    exact exec_firstPort hsw (hp.pair hb hd he).head?
  unfold deploySwitch
  rw [Py.exec_bind_of_ok (a := sw) (t := box) (by rw [hsw]; rfl), Py.exec_bind_of_ok hin,
    Py.exec_bind_of_ok hmembers, Py.exec_bind_of_ok hnext, exec_send, hdp, modAt, hinfo]

theorem exec_deployFlowTable (h : BranchTree s branches) (hf : Formatted s branches recs)
    (hexec : formatLinkList branches = .ok recs)
    (hgroup : view.multicastGroup.get? entry.dstIp = some groupInfo)
    (hp : Deployable view w branches groupInfo) (box : Outbox) :
    (entry.deployFlowTable view branches).exec box = (.ok (),
      box.push (recs.reverse.map fun r => modAt entry view.switches groupInfo recs r.1)) := by
  unfold deployFlowTable
  have hlookup : (Py.ofOption .keyError (some groupInfo) : Py Outbox _).exec box =
      (.ok groupInfo, box) := rfl
  rw [hexec, hgroup, Py.exec_bind_of_ok (Py.exec_ofExcept _ _), Py.exec_bind_of_ok hlookup,
    exec_forM_push (fun r => [modAt entry view.switches groupInfo recs r.1])
    fun r hr box => exec_deploySwitch h hf hp (List.mem_reverse.mp hr) box, List.map_eq_flatMap]

/-- The entries for packets between the two addresses, if any, were added by routes. -/
def RouteEntriesOnly (entry : MulticastTaskEntry) (tables : FlowTables) : Prop :=
  ∀ d, ∀ m ∈ tables d, m.criteria.ipv4Src = entry.srcIp → m.criteria.ipv4Dst = entry.dstIp →
    m.priority = Parameters.ROUTE_FLOW_PRIORITY

theorem outPorts_flowEntry (src dst : String) (inport : ℕ) (outports : List ℕ) :
    (flowEntry src dst inport outports).outPorts = outports := by
  simp [FlowMod.outPorts, flowEntry, List.filterMap_map]

theorem outs_modAt (hf : Formatted s branches recs) (htables : RouteEntriesOnly entry tables)
    (switches : SwitchTable) (hd : d ∈ recs.map Prod.fst) :
    (tables.install (recs.reverse.map fun r => modAt entry switches groupInfo recs r.1)).outs
        entry.srcIp entry.dstIp d (inPortAt entry switches recs d) =
      membersAt groupInfo recs d ++ (infoOf recs d).next.map (switches.portTo d) := by
  have hkeys : ((recs.reverse.map fun r => modAt entry switches groupInfo recs r.1).map
      fun x => (x.1, x.2.criteria)).Nodup := by
    apply List.Nodup.of_map Prod.fst
    simpa [List.map_map, Function.comp_def, modAt] using hf.keys_nodup
  have hmem : modAt entry switches groupInfo recs d ∈
      recs.reverse.map fun r => modAt entry switches groupInfo recs r.1 := by
    obtain ⟨r, hr, rfl⟩ := List.mem_map.mp hd
    exact List.mem_map.mpr ⟨r, List.mem_reverse.mpr hr, rfl⟩
  rw [FlowTables.outs_install hkeys (fun n hn hc => htables d n hn ?_ ?_) hmem rfl,
    outPorts_flowEntry]
  · rw [hc]
    rfl
  · rw [hc]
    rfl

theorem realized_treeOf (h : BranchTree s branches) (hf : Formatted s branches recs)
    (hp : Deployable view w branches groupInfo) (htables : RouteEntriesOnly entry tables)
    (hd : d ∈ recs.map Prod.fst) :
    (treeOf entry view.switches groupInfo h hf).Realized w
      ((tables.install (recs.reverse.map fun r =>
        modAt entry view.switches groupInfo recs r.1)).outs entry.srcIp entry.dstIp) d where
  outs_eq := outs_modAt hf htables view.switches hd
  wired := by
    intro c hc
    obtain ⟨b, hb, i, hbd, hbc⟩ := hf.mem_next_infoOf.mp hc
    have hmem : c ∈ recs.map Prod.fst :=
      (hf.mem_keys c).mpr ⟨b, hb, List.mem_of_getElem? hbc⟩
    obtain ⟨r, hr, rfl⟩ := List.mem_map.mp hmem
    have hroot : (infoOf recs r.1).root ≠ true := by
      rw [infoOf_of_mem hf.keys_nodup hr, ne_eq, hf.root r hr]
      rintro heq
      exact h.not_source hb (heq ▸ hbc)
    have hformer : (infoOf recs r.1).former = some d := by
      rw [infoOf_of_mem hf.keys_nodup hr, hf.former r hr b hb i hbc, hbd]
    simp only [treeOf, inPortAt, if_neg hroot, hformer, Option.getD_some]
    exact (hp.pair hb hbd hbc).peer
  unwired := by
    intro p hpm
    simp only [treeOf, membersAt] at hpm
    split at hpm
    · cases hports : groupInfo.get? d with
      | none => simp [hports] at hpm
      | some ports =>
        exact hp.facing d ports hports p (AList.mem_keys.mpr (by simpa [hports] using hpm))
    · cases hpm

theorem mem_keys_of_below (h : BranchTree s branches) (hf : Formatted s branches recs) {n x : ℕ}
    (hd : d ∈ recs.map Prod.fst)
    (hx : x ∈ (treeOf entry view.switches groupInfo h hf).below n d) :
    x ∈ recs.map Prod.fst := by
  induction n generalizing d with
  | zero => cases hx
  | succ n ih =>
    rcases Tree.mem_below_succ.mp hx with rfl | ⟨c, hc, hx⟩
    · exact hd
    · obtain ⟨b, hb, i, -, hbc⟩ := hf.mem_next_infoOf.mp hc
      exact ih ((hf.mem_keys c).mpr ⟨b, hb, List.mem_of_getElem? hbc⟩) hx

/-- The switch at a position of a branch is below the source. -/
theorem branch_below (h : BranchTree s branches) (hf : Formatted s branches recs)
    (hb : b ∈ branches) (hi : b[i]? = some d) :
    d ∈ (treeOf entry view.switches groupInfo h hf).below (i + 1) s := by
  induction i generalizing d with
  | zero =>
    obtain rfl : d = s := Option.some.inj (hi.symm.trans (h.source b hb))
    exact Tree.mem_below_succ.mpr (.inl rfl)
  | succ i ih =>
    have hlt := (List.getElem?_eq_some_iff.mp hi).1
    have hformer : b[i]? = some b[i] := List.getElem?_eq_getElem (by omega)
    exact Tree.child_below (ih hformer) (hf.mem_next_infoOf.mpr ⟨b, hb, i, hformer, hi⟩)

/-- A multicast deployment delivers: the branches are merged into one record for each switch,
and a packet from the source is put out exactly once on every member port of the group and on
no other port that leaves the network. -/
theorem deployFlowTable_floods (h : BranchTree entry.srcDpid branches)
    (hgroup : view.multicastGroup.get? entry.dstIp = some groupInfo)
    (hp : Deployable view w branches groupInfo) (htables : RouteEntriesOnly entry tables) :
    ∃ recs box, formatLinkList branches = .ok recs ∧ Formatted entry.srcDpid branches recs ∧
      (entry.deployFlowTable view branches).exec {} = (.ok (), box) ∧
      ∀ n, (∀ b ∈ branches, b.length ≤ n) →
        let outputs := Tree.exits w (hops w
          ((tables.install box.mods).outs entry.srcIp entry.dstIp) n
          (entry.srcDpid, entry.srcPortNo))
        outputs.Nodup ∧ ∀ d p, (d, p) ∈ outputs ↔
          ∃ ports, groupInfo.get? d = some ports ∧ p ∈ ports := by
  obtain ⟨recs, hexec, hf⟩ := formatLinkList_formatted h
  refine ⟨recs, _, hexec, hf, exec_deployFlowTable h hf hexec hgroup hp {}, fun n hn => ?_⟩
  simp only [Outbox.mods_push, List.nil_append]
  obtain ⟨b₀, hb₀⟩ := List.exists_mem_of_ne_nil _ h.nonempty
  have hsource : entry.srcDpid ∈ recs.map Prod.fst :=
    (hf.mem_keys _).mpr ⟨b₀, hb₀, List.mem_of_getElem? (h.source b₀ hb₀)⟩
  have hin : inPortAt entry view.switches recs entry.srcDpid = entry.srcPortNo := by
    obtain ⟨r, hr, heq⟩ := List.mem_map.mp hsource
    rw [inPortAt, ← heq, infoOf_of_mem hf.keys_nodup hr, if_pos ((hf.root r hr).mpr heq)]
  have hexits := Tree.exits_hops (n := n) (d := entry.srcDpid)
    (t := treeOf entry view.switches groupInfo h hf) fun x hx =>
      realized_treeOf h hf hp htables (mem_keys_of_below h hf hsource hx)
  simp only [treeOf, hin] at hexits
  rw [hexits]
  refine ⟨Tree.nodup_memberPorts n _, fun d p => ?_⟩
  rw [Tree.mem_memberPorts]
  constructor
  · rintro ⟨-, hpm⟩
    simp only [membersAt] at hpm
    split at hpm
    · cases hports : groupInfo.get? d with
      | none => simp [hports] at hpm
      | some ports => exact ⟨ports, rfl, AList.mem_keys.mpr (by simpa [hports] using hpm)⟩
    · cases hpm
  · rintro ⟨ports, hports, hmem⟩
    obtain ⟨b, hb, hlast⟩ := (hp.ends d).mp (Dict.mem_iff_get?.mpr ⟨ports, hports⟩)
    obtain ⟨i, hi, -⟩ := (getLast?_iff (h.long b hb)).mp hlast
    have hlt := (List.getElem?_eq_some_iff.mp hi).1
    have hle := hn b hb
    refine ⟨Tree.below_mono (by omega) (branch_below h hf hb hi), ?_⟩
    have hd : d ∈ recs.map Prod.fst := (hf.mem_keys d).mpr ⟨b, hb, List.mem_of_getElem? hi⟩
    obtain ⟨r, hr, rfl⟩ := List.mem_map.mp hd
    simpa [treeOf, membersAt, infoOf_of_mem hf.keys_nodup hr,
      (hf.isEnd r hr).mpr ⟨b, hb, hlast⟩, hports] using AList.mem_keys.mp hmem

/-- A branch that ends on the way of another one: switch 2 serves its member and goes on. -/
theorem deployFlowTable_floods_line :
    let entry : MulticastTaskEntry := {
      srcDpid := 1, srcIp := "10.0.0.1", srcPortNo := 100, dstIp := "225.0.0.1", timestamp := 0
      dstDpid := [2, 3] }
    let groupInfo : Dict ℕ (Dict ℕ GroupPort) :=
      (Dict.set ∅ 2 (Dict.set ∅ 201 {})).set 3 (Dict.set ∅ 301 {})
    let view : RouteManageView := {
      switches := RouteTaskEntry.lineSwitches
      multicastGroup := Dict.set ∅ "225.0.0.1" groupInfo }
    ∃ box, (entry.deployFlowTable view [[1, 2, 3], [1, 2]]).exec {} = (.ok (), box) ∧
      (2, 201) ∈ Tree.exits RouteTaskEntry.decimalWiring (hops RouteTaskEntry.decimalWiring
        (FlowTables.outs (FlowTables.install (fun _ => []) box.mods) "10.0.0.1" "225.0.0.1")
        3 (1, 100)) := by
  intro entry groupInfo view
  have htree : BranchTree entry.srcDpid [[1, 2, 3], [1, 2]] := by
    refine ⟨by simp, by simp [entry], by simp, by simp, ?_⟩
    intro b hb c' hc i j d hi hj
    have hall : ∀ b ∈ [[1, 2, 3], [1, 2]], b.length ≤ 3 ∧ ∀ c' ∈ [[1, 2, 3], [1, 2]], ∀ i < 2,
        ∀ j < 2, b[i + 1]? = c'[j + 1]? → b[i + 1]? ≠ none → b[i]? = c'[j]? := by decide
    have hb3 := (hall b hb).1
    have hc3 := (hall c' hc).1
    have hi' := (List.getElem?_eq_some_iff.mp hi).1
    have hj' := (List.getElem?_eq_some_iff.mp hj).1
    exact (hall b hb).2 c' hc i (by omega) j (by omega) (hi.trans hj.symm) (by simp [hi])
  have hp : Deployable view RouteTaskEntry.decimalWiring [[1, 2, 3], [1, 2]] groupInfo := by
    refine ⟨fun b hb => ?_, fun d => ?_, fun d ports hports p hp => ?_⟩
    · have hline := RouteTaskEntry.pairedPath_line
      simp only [List.mem_cons, List.not_mem_nil, or_false] at hb
      rcases hb with rfl | rfl
      · exact hline
      · exact ⟨hline.keyed, fun d hd => hline.known d (by simp_all; tauto),
          hline.paired.prefix ⟨[3], rfl⟩⟩
    · simp [groupInfo, Dict.mem_set]
      grind
    · have hport : d = 3 ∧ p = 301 ∨ d = 2 ∧ p = 201 := by
        simp only [groupInfo, Dict.get?_set] at hports
        split at hports
        · obtain rfl := Option.some.inj hports
          exact .inl ⟨by assumption, by simpa using hp⟩
        · split at hports
          · obtain rfl := Option.some.inj hports
            exact .inr ⟨by assumption, by simpa using hp⟩
          · simp at hports
      rcases hport with ⟨rfl, rfl⟩ | ⟨rfl, rfl⟩ <;> rfl
  obtain ⟨recs, box, -, -, hexec, hflood⟩ :=
    @deployFlowTable_floods _ entry view RouteTaskEntry.decimalWiring groupInfo (fun _ => [])
      htree rfl hp (fun _ _ h => by cases h)
  refine ⟨box, hexec, ((hflood 3 (by simp)).2 2 201).mpr ⟨Dict.set ∅ 201 {}, rfl, by decide⟩⟩

end SDRoute.MulticastTaskEntry
