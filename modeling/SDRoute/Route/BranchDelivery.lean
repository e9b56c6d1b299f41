import SDRoute.Lib.Arrivals
import SDRoute.Route.BranchRecords
import SDRoute.Route.MulticastRouting

/-! What the entries of a multicast deployment do when the branches do not agree on the way to a
switch: they still forward no packet twice, and they serve the switches whose records lead back to
the source. -/
namespace SDRoute.MulticastTaskEntry

open Forwarding TaskEntryBase Relation

variable {branches : List (List ℕ)} {b : List ℕ} {d e p i n : ℕ} {recs : FormatLinkList}
  {entry : MulticastTaskEntry} {view : RouteManageView} {w : Wiring ℕ ℕ}
  {groupInfo : Dict ℕ (Dict ℕ GroupPort)} {tables : FlowTables}

namespace Traced
variable (hf : Traced entry.srcDpid branches recs)
include hf

theorem infoOf_of_mem_keys (hd : d ∈ recs.map Prod.fst) : (d, infoOf recs d) ∈ recs := by
  obtain ⟨r, hr, rfl⟩ := List.mem_map.mp hd
  rwa [infoOf_of_mem hf.keys_nodup hr]

theorem mem_next_infoOf : e ∈ (infoOf recs d).next ↔
    ∃ b ∈ branches, ∃ i, b[i]? = some d ∧ b[i + 1]? = some e := by
  by_cases hd : d ∈ recs.map Prod.fst
  · exact hf.mem_next _ (hf.infoOf_of_mem_keys hd) e
  · rw [infoOf_of_notMem hd]
    simp only [List.not_mem_nil, false_iff]
    rintro ⟨b, hb, i, hi, -⟩
    exact hd ((hf.mem_keys d).mpr ⟨b, hb, List.mem_of_getElem? hi⟩)

theorem keys_of_next (hnext : e ∈ (infoOf recs d).next) :
    d ∈ recs.map Prod.fst ∧ e ∈ recs.map Prod.fst := by
  obtain ⟨b, hb, i, hd, he⟩ := hf.mem_next_infoOf.mp hnext
  exact ⟨(hf.mem_keys d).mpr ⟨b, hb, List.mem_of_getElem? hd⟩,
    (hf.mem_keys e).mpr ⟨b, hb, List.mem_of_getElem? he⟩⟩

/-- The former switch of a switch puts packets out towards it. -/
theorem next_of_former (hformer : (infoOf recs d).former = some e) :
    d ∈ (infoOf recs e).next := by
  by_cases hd : d ∈ recs.map Prod.fst
  · obtain ⟨b, hb, i, he, hd⟩ := hf.former _ (hf.infoOf_of_mem_keys hd) e hformer
    exact hf.mem_next_infoOf.mpr ⟨b, hb, i, he, hd⟩
  · rw [infoOf_of_notMem hd] at hformer
    cases hformer

theorem not_source_of_next (h : SimpleBranches entry.srcDpid branches)
    (hnext : e ∈ (infoOf recs d).next) : e ≠ entry.srcDpid := by
  rintro rfl
  obtain ⟨b, hb, i, -, hi⟩ := hf.mem_next_infoOf.mp hnext
  exact h.not_source hb hi

theorem inPortAt_source (hd : entry.srcDpid ∈ recs.map Prod.fst) (switches : SwitchTable) :
    inPortAt entry switches recs entry.srcDpid = entry.srcPortNo := by
  have hroot := (hf.root _ (hf.infoOf_of_mem_keys hd)).mpr rfl
  rw [inPortAt, if_pos hroot]

theorem inPortAt_former (hd : d ∈ recs.map Prod.fst) (hne : d ≠ entry.srcDpid)
    (switches : SwitchTable) : ∃ e, (infoOf recs d).former = some e ∧
      inPortAt entry switches recs d = switches.portTo d e := by
  have hmem := hf.infoOf_of_mem_keys hd
  obtain ⟨e, he⟩ := hf.hasFormer _ hmem hne
  refine ⟨e, he, ?_⟩
  rw [inPortAt, if_neg fun hroot => hne ((hf.root _ hmem).mp hroot), show _ = some e from he]
  rfl

theorem pair_of_next (hp : Deployable view w branches groupInfo)
    (hnext : e ∈ (infoOf recs d).next) : view.switches.PortsPair w d e := by
  obtain ⟨b, hb, i, hd, he⟩ := hf.mem_next_infoOf.mp hnext
  exact hp.pair hb hd he

end Traced

/-! The deployment. -/

theorem exec_deploySwitch_of_traced (hf : Traced entry.srcDpid branches recs)
    (hp : Deployable view w branches groupInfo) {r : ℕ × LinkInfo} (hr : r ∈ recs) (box : Outbox) :
    (entry.deploySwitch view groupInfo r).exec box =
      (.ok (), box.push [modAt entry view.switches groupInfo recs r.1]) := by
  have hd : r.1 ∈ recs.map Prod.fst := List.mem_map_of_mem hr
  obtain ⟨b, hb, hmem⟩ := (hf.mem_keys r.1).mp hd
  obtain ⟨sw, hsw⟩ := Dict.mem_iff_get?.mp ((hp.path b hb).known r.1 hmem)
  have hdp := (hp.path b hb).keyed r.1 sw hsw
  have hinfo := infoOf_of_mem hf.keys_nodup hr
  have hin : (getInPort entry sw r.2).exec box =
      (.ok (inPortAt entry view.switches recs r.1), box) := by
    by_cases hs : r.1 = entry.srcDpid
    · rw [hs, hf.inPortAt_source (hs ▸ hd), getInPort, if_pos ((hf.root r hr).mpr hs)]
      rfl
    · obtain ⟨e, hformer, hport⟩ := hf.inPortAt_former hd hs view.switches
      have hpair := (hf.pair_of_next hp (hf.next_of_former hformer)).symm
      rw [hinfo] at hformer
      rw [hport, getInPort, if_neg fun hroot => hs ((hf.root r hr).mp hroot), hformer]
      exact exec_firstPort hsw hpair.head?
  have hmembers : (getGroupOutports groupInfo r.1 r.2).exec box =
      (.ok (membersAt groupInfo recs r.1), box) := by
    rw [getGroupOutports, membersAt, hinfo]
    split
    · rename_i hend
      obtain ⟨ports, hports⟩ := Dict.mem_iff_get?.mp ((hp.ends r.1).mpr ((hf.isEnd r hr).mp hend))
      simp [hports]
    · rfl
  have hnext : (r.2.next.mapM (firstPort sw)).exec box =
      (.ok (r.2.next.map (view.switches.portTo r.1)), box) := by
    apply Py.exec_mapM
    intro e he
    exact exec_firstPort hsw (hf.pair_of_next hp (hinfo ▸ he)).head?
  rw [deploySwitch, Py.exec_bind_of_ok (a := sw) (t := box) (by rw [hsw]; rfl),
    Py.exec_bind_of_ok hin, Py.exec_bind_of_ok hmembers, Py.exec_bind_of_ok hnext, exec_send, hdp,
    modAt, hinfo]

theorem exec_deployFlowTable_of_traced (hf : Traced entry.srcDpid branches recs)
    (hexec : formatLinkList branches = .ok recs)
    (hgroup : view.multicastGroup.get? entry.dstIp = some groupInfo)
    (hp : Deployable view w branches groupInfo) (box : Outbox) :
    (entry.deployFlowTable view branches).exec box = (.ok (),
      box.push (recs.reverse.map fun r => modAt entry view.switches groupInfo recs r.1)) := by
  have hlookup : (Py.ofOption .keyError (some groupInfo) : Py Outbox _).exec box =
      (.ok groupInfo, box) := rfl
  rw [deployFlowTable, hexec, hgroup, Py.exec_bind_of_ok (Py.exec_ofExcept _ _),
    Py.exec_bind_of_ok hlookup,
    exec_forM_push (fun r => [modAt entry view.switches groupInfo recs r.1])
    fun r hr box => exec_deploySwitch_of_traced hf hp (List.mem_reverse.mp hr) box,
    List.map_eq_flatMap]

/-! The entries. -/

/-- The ports that the entry of a switch puts packets out on. -/
def outPortsAt (switches : SwitchTable) (groupInfo : Dict ℕ (Dict ℕ GroupPort))
    (recs : FormatLinkList) (d : ℕ) : List ℕ :=
  membersAt groupInfo recs d ++ (infoOf recs d).next.map (switches.portTo d)

/-- What the switches put out for packets of the source to the group, after the deployment. -/
def deployedOuts (entry : MulticastTaskEntry) (view : RouteManageView)
    (groupInfo : Dict ℕ (Dict ℕ GroupPort)) (recs : FormatLinkList) (tables : FlowTables) :
    ℕ → ℕ → List ℕ :=
  (tables.install (recs.reverse.map fun r =>
    modAt entry view.switches groupInfo recs r.1)).outs entry.srcIp entry.dstIp

/-- A switch without a record has no entry, and the others have one for one port. -/
theorem deployedOuts_eq (hnodup : (recs.map Prod.fst).Nodup)
    (htables : ∀ d, FlowTables.NoneFor entry.srcIp entry.dstIp (tables d)) (d i : ℕ) :
    deployedOuts entry view groupInfo recs tables d i =
      if d ∈ recs.map Prod.fst ∧ i = inPortAt entry view.switches recs d then
        outPortsAt view.switches groupInfo recs d else [] := by
  have hkeys : ((recs.reverse.map fun r => modAt entry view.switches groupInfo recs r.1).map
      fun x => (x.1, x.2.criteria)).Nodup := by
    apply List.Nodup.of_map Prod.fst
    simpa [List.map_map, Function.comp_def, modAt] using hnodup
  have hfresh : ∀ (d : ℕ) (m : FlowMod) (i : ℕ), m ∈ tables d →
      m.criteria ≠ .exact i entry.srcIp entry.dstIp := by
    intro d m i hm hcriteria
    exact htables d m hm (by rw [hcriteria]; exact ⟨rfl, rfl⟩)
  by_cases hd : d ∈ recs.map Prod.fst ∧ i = inPortAt entry view.switches recs d
  · obtain ⟨hd, rfl⟩ := hd
    have hmem : modAt entry view.switches groupInfo recs d ∈
        recs.reverse.map fun r => modAt entry view.switches groupInfo recs r.1 := by
      obtain ⟨r, hr, rfl⟩ := List.mem_map.mp hd
      exact List.mem_map.mpr ⟨r, List.mem_reverse.mpr hr, rfl⟩
    rw [if_pos ⟨hd, rfl⟩, deployedOuts, FlowTables.outs_install hkeys
      (fun m hm hc => absurd hc (hfresh d m _ hm)) hmem rfl, outPorts_flowEntry]
    rfl
  · rw [if_neg hd, deployedOuts, FlowTables.outs]
    have hnone : (tables.install (recs.reverse.map fun r =>
        modAt entry view.switches groupInfo recs r.1) d).find?
          (·.criteria = .exact i entry.srcIp entry.dstIp) = none := by
      rw [List.find?_eq_none, FlowTables.install_of_fresh hkeys]
      · intro m hm hcriteria
        have hexact : m.criteria = .exact i entry.srcIp entry.dstIp := by simpa using hcriteria
        rcases List.mem_append.mp hm with hm | hm
        · exact hfresh d m i hm hexact
        · obtain ⟨x, hx, rfl⟩ := List.mem_map.mp hm
          obtain ⟨hx, hxd⟩ := List.mem_filter.mp hx
          obtain ⟨r, hr, rfl⟩ := List.mem_map.mp hx
          obtain rfl : r.1 = d := of_decide_eq_true hxd
          have hport : some (inPortAt entry view.switches recs r.1) = some i :=
            congrArg Match.inPort hexact
          exact hd ⟨List.mem_map_of_mem (List.mem_reverse.mp hr), (Option.some.inj hport).symm⟩
      · intro x hx m hm hcriteria
        obtain ⟨r, -, rfl⟩ := List.mem_map.mp hx
        exact hfresh _ m _ hm hcriteria
    rw [hnone]

theorem deployedOuts_inPortAt (hnodup : (recs.map Prod.fst).Nodup)
    (htables : ∀ d, FlowTables.NoneFor entry.srcIp entry.dstIp (tables d))
    (hd : d ∈ recs.map Prod.fst) :
    deployedOuts entry view groupInfo recs tables d (inPortAt entry view.switches recs d) =
      outPortsAt view.switches groupInfo recs d := by
  rw [deployedOuts_eq hnodup htables, if_pos ⟨hd, rfl⟩]

theorem mem_keys_of_deployedOuts (hnodup : (recs.map Prod.fst).Nodup)
    (htables : ∀ d, FlowTables.NoneFor entry.srcIp entry.dstIp (tables d))
    (h : deployedOuts entry view groupInfo recs tables d i ≠ []) :
    d ∈ recs.map Prod.fst ∧ i = inPortAt entry view.switches recs d := by
  rw [deployedOuts_eq hnodup htables] at h
  split at h
  · assumption
  · exact absurd rfl h

theorem Deployable.unwired (hp : Deployable view w branches groupInfo)
    (hpm : p ∈ membersAt groupInfo recs d) : w.peer (d, p) = none := by
  rw [membersAt] at hpm
  split at hpm
  · cases hports : groupInfo.get? d with
    | none => simp [hports] at hpm
    | some ports =>
      exact hp.facing d ports hports p (AList.mem_keys.mpr (by simpa [hports] using hpm))
  · cases hpm

/-- The records lead from the switch back to the source. -/
def Leads (recs : FormatLinkList) (s d : ℕ) : Prop :=
  ReflTransGen (fun d e => (infoOf recs d).former = some e) d s

section forwarding
variable (hf : Traced entry.srcDpid branches recs) (hp : Deployable view w branches groupInfo)
include hf hp

/-- The members of the group are on the switches that end a branch. -/
theorem mem_membersAt : p ∈ membersAt groupInfo recs d ∧ d ∈ recs.map Prod.fst ↔
    ∃ ports, groupInfo.get? d = some ports ∧ p ∈ ports := by
  rw [membersAt]
  constructor
  · rintro ⟨hpm, -⟩
    split at hpm
    · cases hports : groupInfo.get? d with
      | none => simp [hports] at hpm
      | some ports => exact ⟨ports, rfl, AList.mem_keys.mpr (by simpa [hports] using hpm)⟩
    · cases hpm
  · rintro ⟨ports, hports, hpm⟩
    obtain ⟨b, hb, hlast⟩ := (hp.ends d).mp (Dict.mem_of_get? hports)
    have hd : d ∈ recs.map Prod.fst := (hf.mem_keys d).mpr ⟨b, hb, List.mem_of_getLast? hlast⟩
    have hend : (infoOf recs d).isEnd = true :=
      (hf.isEnd _ (hf.infoOf_of_mem_keys hd)).mpr ⟨b, hb, hlast⟩
    rw [if_pos hend, hports]
    exact ⟨AList.mem_keys.mp hpm, hd⟩

theorem nodup_outPortsAt (d : ℕ) : (outPortsAt view.switches groupInfo recs d).Nodup := by
  have hmembers : (membersAt groupInfo recs d).Nodup := by
    rw [membersAt]
    split
    · cases groupInfo.get? d with
      | none => exact List.nodup_nil
      | some ports => exact ports.keys_nodup
    · exact List.nodup_nil
  have hnodup : (infoOf recs d).next.Nodup := by
    by_cases hd : d ∈ recs.map Prod.fst
    · exact hf.next_nodup _ (hf.infoOf_of_mem_keys hd)
    · rw [infoOf_of_notMem hd]
      exact List.nodup_nil
  have hpeer : ∀ {e}, e ∈ (infoOf recs d).next → w.peer (d, view.switches.portTo d e) =
      some (e, view.switches.portTo e d) := fun he => (hf.pair_of_next hp he).peer
  apply List.Nodup.append hmembers
  · apply hnodup.map_on
    intro e he e' he' heq
    have hsame := (hpeer he).symm.trans (heq ▸ hpeer he')
    exact congrArg Prod.fst (Option.some.inj hsame)
  · intro q hq hq'
    obtain ⟨e, he, rfl⟩ := List.mem_map.mp hq'
    have hnone := hp.unwired hq
    rw [hpeer he] at hnone
    cases hnone

variable (htables : ∀ d, FlowTables.NoneFor entry.srcIp entry.dstIp (tables d))
include htables

theorem onePort_deployedOuts : OnePort (deployedOuts entry view groupInfo recs tables)
    (inPortAt entry view.switches recs) := by
  constructor
  · intro d i hne
    exact (mem_keys_of_deployedOuts hf.keys_nodup htables hne).2
  · intro d i
    rw [deployedOuts_eq hf.keys_nodup htables]
    split
    · exact nodup_outPortsAt hf hp d
    · exact List.nodup_nil

/-- The switches that the packets come to are those whose records lead back to the source. -/
theorem after_iff (h : SimpleBranches entry.srcDpid branches) (hd : d ∈ recs.map Prod.fst) :
    (∃ k, After w (deployedOuts entry view groupInfo recs tables)
        (entry.srcDpid, entry.srcPortNo) k (d, inPortAt entry view.switches recs d)) ↔
      Leads recs entry.srcDpid d := by
  constructor
  · rintro ⟨k, hk⟩
    induction k generalizing d with
    | zero =>
      obtain rfl : d = entry.srcDpid := congrArg Prod.fst hk
      exact .refl
    | succ k ih =>
      obtain ⟨⟨e, j⟩, hbefore, o, ho, hpeer⟩ := hk
      dsimp only at ho hpeer
      obtain ⟨he, rfl⟩ := mem_keys_of_deployedOuts hf.keys_nodup htables (List.ne_nil_of_mem ho)
      rw [deployedOuts_inPortAt hf.keys_nodup htables he, outPortsAt, List.mem_append] at ho
      rcases ho with ho | ho
      · rw [hp.unwired ho] at hpeer
        cases hpeer
      · obtain ⟨c, hc, rfl⟩ := List.mem_map.mp ho
        obtain ⟨rfl, hport⟩ :=
          Prod.mk.inj (Option.some.inj ((hf.pair_of_next hp hc).peer.symm.trans hpeer))
        obtain ⟨f, hformer, hin⟩ :=
          hf.inPortAt_former hd (hf.not_source_of_next h hc) view.switches
        -- Both former switches are at the other end of the port that the switch listens on.
        have hback := (hf.pair_of_next hp hc).symm.peer
        have hback' := (hf.pair_of_next hp (hf.next_of_former hformer)).symm.peer
        rw [hport, hin, hback'] at hback
        obtain rfl : f = e := congrArg Prod.fst (Option.some.inj hback)
        exact .head hformer (ih he hbefore)
  · intro hleads
    induction hleads using ReflTransGen.head_induction_on with
    | refl => exact ⟨0, by rw [After, hf.inPortAt_source hd]⟩
    | @head d e hformer hrest ih =>
      have hnext := hf.next_of_former hformer
      have he := (hf.keys_of_next hnext).1
      obtain ⟨k, hk⟩ := ih he
      obtain ⟨f, hformer', hin⟩ :=
        hf.inPortAt_former hd (hf.not_source_of_next h hnext) view.switches
      obtain rfl := Option.some.inj (hformer.symm.trans hformer')
      refine ⟨k + 1, _, hk, view.switches.portTo e d, ?_, ?_⟩
      · dsimp only
        rw [deployedOuts_inPortAt hf.keys_nodup htables he, outPortsAt]
        exact List.mem_append_right _ (List.mem_map_of_mem hnext)
      · rw [hin]
        exact (hf.pair_of_next hp hnext).peer

/-- What leaves the network. -/
theorem mem_exits_deployedOuts (h : SimpleBranches entry.srcDpid branches) :
    (d, p) ∈ Tree.exits w (hops w (deployedOuts entry view groupInfo recs tables) n
        (entry.srcDpid, entry.srcPortNo)) →
      (∃ ports, groupInfo.get? d = some ports ∧ p ∈ ports) ∧
        Leads recs entry.srcDpid d := by
  intro hmem
  obtain ⟨⟨k, -, hk⟩, hout, hnone⟩ := (onePort_deployedOuts hf hp htables).mem_exits.mp hmem
  obtain ⟨hd, -⟩ := mem_keys_of_deployedOuts hf.keys_nodup htables (List.ne_nil_of_mem hout)
  refine ⟨?_, (after_iff hf hp htables h hd).mp ⟨k, hk⟩⟩
  rw [deployedOuts_inPortAt hf.keys_nodup htables hd, outPortsAt, List.mem_append] at hout
  rcases hout with hout | hout
  · exact (mem_membersAt hf hp).mp ⟨hout, hd⟩
  · obtain ⟨e, he, rfl⟩ := List.mem_map.mp hout
    rw [(hf.pair_of_next hp he).peer] at hnone
    cases hnone

theorem exits_of_leads (h : SimpleBranches entry.srcDpid branches)
    (hsource : w.peer (entry.srcDpid, entry.srcPortNo) = none) (hn : recs.length ≤ n)
    (hmember : ∃ ports, groupInfo.get? d = some ports ∧ p ∈ ports)
    (hleads : Leads recs entry.srcDpid d) :
    (d, p) ∈ Tree.exits w (hops w (deployedOuts entry view groupInfo recs tables) n
      (entry.srcDpid, entry.srcPortNo)) := by
  have hone := onePort_deployedOuts hf hp htables
  obtain ⟨hpm, hd⟩ := (mem_membersAt hf hp).mpr hmember
  obtain ⟨k, hk⟩ := (after_iff hf hp htables h hd).mpr hleads
  have hout : p ∈ deployedOuts entry view groupInfo recs tables d
      (inPortAt entry view.switches recs d) := by
    rw [deployedOuts_inPortAt hf.keys_nodup htables hd, outPortsAt]
    exact List.mem_append_left _ hpm
  have hlt := hone.lt_length hsource
    (fun d i hne => (mem_keys_of_deployedOuts hf.keys_nodup htables hne).1) hk
    (List.ne_nil_of_mem hout)
  rw [List.length_map] at hlt
  exact hone.mem_exits.mpr ⟨⟨k, by omega, hk⟩, hout, hp.unwired hpm⟩

end forwarding

/-- A packet of the source takes no link twice in the same direction and leaves the network on
member ports only, on each at most once. The members that it reaches are those on the switches whose
records lead back to the source. -/
structure ServedOnce (w : Wiring ℕ ℕ) (entry : MulticastTaskEntry) (tables : FlowTables)
    (groupInfo : Dict ℕ (Dict ℕ GroupPort)) (recs : FormatLinkList) (mods : List (ℕ × FlowMod)) :
    Prop where
  noLoop : ∀ n, ((hops w ((tables.install mods).outs entry.srcIp entry.dstIp) n
    (entry.srcDpid, entry.srcPortNo)).map fun h => (h.node, h.outPort)).Nodup
  once : ∀ n, (outputs w entry tables mods n).Nodup
  members : ∀ n d p, (d, p) ∈ outputs w entry tables mods n →
    ∃ ports, groupInfo.get? d = some ports ∧ p ∈ ports
  served : ∀ n, recs.length ≤ n → ∀ d p, (d, p) ∈ outputs w entry tables mods n ↔
    (∃ ports, groupInfo.get? d = some ports ∧ p ∈ ports) ∧ Leads recs entry.srcDpid d

theorem servedOnce_of_traced (h : SimpleBranches entry.srcDpid branches)
    (hf : Traced entry.srcDpid branches recs) (hp : Deployable view w branches groupInfo)
    (hsource : w.peer (entry.srcDpid, entry.srcPortNo) = none)
    (htables : ∀ d, FlowTables.NoneFor entry.srcIp entry.dstIp (tables d)) :
    ServedOnce w entry tables groupInfo recs
      (recs.reverse.map fun r => modAt entry view.switches groupInfo recs r.1) := by
  have hone : OnePort (deployedOuts entry view groupInfo recs tables)
      (inPortAt entry view.switches recs) := onePort_deployedOuts hf hp htables
  constructor
  · intro n
    exact hone.nodup_outPorts hsource
  · intro n
    exact hone.nodup_exits hsource
  · intro n d p hmem
    exact (mem_exits_deployedOuts hf hp htables h hmem).1
  · intro n hn d p
    constructor
    · intro hmem
      exact mem_exits_deployedOuts hf hp htables h hmem
    · rintro ⟨hmember, hleads⟩
      exact exits_of_leads hf hp htables h hsource hn hmember hleads

/-- Whatever branches are deployed, the packets are served once, or not at all. -/
theorem deployFlowTable_once (h : SimpleBranches entry.srcDpid branches)
    (hgroup : view.multicastGroup.get? entry.dstIp = some groupInfo)
    (hp : Deployable view w branches groupInfo)
    (hsource : w.peer (entry.srcDpid, entry.srcPortNo) = none)
    (htables : ∀ d, FlowTables.NoneFor entry.srcIp entry.dstIp (tables d)) :
    ∃ recs box, formatLinkList branches = .ok recs ∧
      (entry.deployFlowTable view branches).exec {} = (.ok (), box) ∧
        ServedOnce w entry tables groupInfo recs box.mods := by
  obtain ⟨recs, hexec, hf⟩ := formatLinkList_traced h
  refine ⟨recs, _, hexec, exec_deployFlowTable_of_traced hf hexec hgroup hp {}, ?_⟩
  rw [Outbox.mods_push, List.nil_append]
  exact servedOnce_of_traced h hf hp hsource htables

theorem deployable_triangle {branches : List (List ℕ)}
    (hmem : ∀ b ∈ branches, ∀ d ∈ b, d ∈ [1, 2, 3]) (hnodup : ∀ b ∈ branches, b.Nodup)
    (hends : ∀ d, d ∈ [2, 3] ↔ ∃ b ∈ branches, b.getLast? = some d) :
    Deployable triangleView triangleWiring branches triangleGroup := by
  have hlists : ∀ a ∈ [1, 2, 3], ∀ b ∈ [1, 2, 3], a ≠ b → GATables.triangle.Lists a b := by
    decide +kernel
  refine ⟨fun b hb => ⟨hosts_triangle.keyed, fun d hd => ?_, ?_⟩, fun d => ?_,
    hosts_triangle.facing⟩
  · have hknown : ∀ d ∈ [1, 2, 3], d ∈ GATables.triangle := by decide +kernel
    exact hknown d (hmem b hb d hd)
  · apply List.isChain_iff_getElem.mpr
    intro i hi
    have hne : b[i] ≠ b[i + 1] := by
      intro heq
      have hsame := (hnodup b hb).getElem_inj_iff.mp heq
      omega
    exact portsPair_triangle (hlists _ (hmem b hb _ (List.getElem_mem _)) _
      (hmem b hb _ (List.getElem_mem _)) hne)
  · rw [hosts_triangle.members]
    exact hends d

/-- The records of two branches that pass switches 2 and 3 in opposite orders. -/
def crossing : FormatLinkList :=
  [(1, { root := true, shared := true, next := [2, 3] }),
    (2, { shared := true, former := some 3, next := [3], isEnd := true }),
    (3, { shared := true, former := some 2, next := [2], isEnd := true })]

theorem former_crossing (h : (infoOf crossing d).former = some e) : e ≠ 1 := by
  by_cases hd : d ∈ crossing.map Prod.fst
  · have hall : ∀ d ∈ crossing.map Prod.fst, (infoOf crossing d).former ≠ some 1 := by decide
    rintro rfl
    exact hall d hd h
  · rw [infoOf_of_notMem hd] at h
    cases h

/-- Each of the two switches waits for the packet from the other one, and no member gets it. -/
theorem deployFlowTable_once_crossing :
    ∃ box, (triangleEntry.deployFlowTable triangleView [[1, 2, 3], [1, 3, 2]]).exec {} =
      (.ok (), box) ∧ ∀ n, 3 ≤ n →
        outputs triangleWiring triangleEntry (fun _ => []) box.mods n = [] := by
  obtain ⟨recs, box, hformat, hexec, hserved⟩ := @deployFlowTable_once [[1, 2, 3], [1, 3, 2]]
    triangleEntry triangleView triangleWiring triangleGroup (fun _ => [])
    ⟨by decide, by decide, by decide, by decide⟩ rfl
    (deployable_triangle (by decide) (by decide) (by simp [or_comm, eq_comm])) (by decide)
    (fun d m hm => by cases hm)
  obtain rfl : recs = crossing := Except.ok.inj (hformat.symm.trans rfl)
  refine ⟨box, hexec, fun n hn => List.eq_nil_iff_forall_not_mem.mpr ?_⟩
  rintro ⟨d, p⟩ hmem
  obtain ⟨⟨ports, hports, -⟩, hleads⟩ := (hserved.served n hn d p).mp hmem
  have hmember : d ∈ [2, 3] := (hosts_triangle.members d).mp (Dict.mem_of_get? hports)
  rcases hleads.cases_tail with heq | ⟨e, -, hformer⟩
  · have hsource : 1 = d := heq
    exact absurd (hsource ▸ hmember) (by decide)
  · exact former_crossing hformer rfl

end SDRoute.MulticastTaskEntry
