import SDRoute.Lib.Triple
import SDRoute.Multicast.IgmpVirtualQuerier

/-! What each handler of the virtual querier does to the group table, to the queriers and to
its observers. -/
namespace SDRoute.IgmpVirtualQuerier
open Py

variable {s t : IgmpVirtualQuerier} {g g' : String} {d d' p p' : ℕ} {dp : Datapath}
  {ipSrc : String}

/-- The querier of the switch keeps the group. -/
def Recorded (queriers : Dict ℕ Querier) (d : ℕ) (g : String) : Prop :=
  ∃ querier, queriers.get? d = some querier ∧ g ∈ querier.groups

def datapathOf (queriers : Dict ℕ Querier) (d : ℕ) : Option Datapath :=
  (queriers.get? d).map Querier.datapath

/-- Whether the group came or went, event by event. -/
def groupEvents (g : String) (events : List EventMulticastGroupChanged) : List ChangeReason :=
  (events.filter fun e => e.address = g ∧ e.reason ≠ .memberChanged).map (·.reason)

/-- Whether the flow entry of a port was set or deleted, message by message. -/
def flowMods (d p : ℕ) (g : String) (sent : List QuerierMessage) : List Bool :=
  sent.filterMap fun
    | .setFlowEntry d' p' g' => if d' = d ∧ p' = p ∧ g' = g then some true else none
    | .delFlowEntry d' p' g' => if d' = d ∧ p' = p ∧ g' = g then some false else none
    | .generalQuery .. | .specificQuery .. => none

structure Sound (s : IgmpVirtualQuerier) : Prop where
  keyed : ∀ d dp, datapathOf s.queriers d = some dp → dp.id = d
  pruned : s.groups.Pruned
  recorded : ∀ g d, d ∈ s.groups.switches g → Recorded s.queriers d g

/-- Neither the members nor what the observers see of them changes. -/
structure Quiet (s t : IgmpVirtualQuerier) : Prop where
  queriers : t.queriers = s.queriers
  pruned : t.groups.Pruned
  member : ∀ g d p, t.groups.Member g d p ↔ s.groups.Member g d p
  events : t.events = s.events
  sent : ∀ d p g, flowMods d p g t.sent = flowMods d p g s.sent

/-- Effect of a REPORT. -/
structure Reported (s t : IgmpVirtualQuerier) (d p : ℕ) (g ipSrc : String) : Prop where
  datapaths : ∀ d', datapathOf t.queriers d' = datapathOf s.queriers d'
  recorded : ∀ d' g', Recorded t.queriers d' g' ↔ Recorded s.queriers d' g' ∨ d' = d ∧ g' = g
  pruned : t.groups.Pruned
  member : ∀ g' d' p', t.groups.Member g' d' p' ↔
    s.groups.Member g' d' p' ∨ g' = g ∧ d' = d ∧ p' = p
  events : t.events = s.events ++
    (if g ∈ s.groups then [] else [{ reason := .groupAdded, address := g }]) ++
    if s.groups.port? g d p = none then
      [{ reason := .memberChanged, address := g, dst := some ipSrc }] else []
  sent : t.sent = s.sent ++
    if s.groups.port? g d p = none then [.setFlowEntry d p g] else []

/-- Effect of a leave timer on a member that left. -/
structure Removed (s t : IgmpVirtualQuerier) (d p : ℕ) (g : String) : Prop where
  datapaths : ∀ d', datapathOf t.queriers d' = datapathOf s.queriers d'
  recorded : ∀ d' g', g' ∈ t.groups → Recorded s.queriers d' g' → Recorded t.queriers d' g'
  pruned : t.groups.Pruned
  member : ∀ g' d' p', t.groups.Member g' d' p' ↔
    s.groups.Member g' d' p' ∧ ¬ (g' = g ∧ d' = d ∧ p' = p)
  events : t.events = s.events ++
    [{ reason := .memberChanged, address := g, dst := some "leave" }] ++
    if g ∈ t.groups then [] else [{ reason := .groupRemoved, address := g }]
  sent : t.sent = s.sent ++ [.delFlowEntry d p g]

/-- The records only get fewer, and those of the switches of a group that goes are gone. -/
def Forgets (s t : IgmpVirtualQuerier) : Prop :=
  ∀ d g, Recorded t.queriers d g →
    Recorded s.queriers d g ∧ (d ∈ s.groups.switches g → g ∈ t.groups)

/-- Effect of the end of a query round. -/
structure Expired (s t : IgmpVirtualQuerier) : Prop where
  datapaths : ∀ d, datapathOf t.queriers d = datapathOf s.queriers d
  recorded : ∀ d g, g ∈ t.groups → Recorded s.queriers d g → Recorded t.queriers d g
  pruned : t.groups.Pruned
  member : ∀ g d p, t.groups.Member g d p ↔
    ∃ state, s.groups.port? g d p = some state ∧ state.replied = true
  events : ∀ g, groupEvents g t.events = groupEvents g s.events ++
    if g ∈ s.groups ∧ g ∉ t.groups then [.groupRemoved] else []
  sent : t.sent = s.sent

theorem groupEvents_append {events later : List EventMulticastGroupChanged} :
    groupEvents g (events ++ later) = groupEvents g events ++ groupEvents g later := by
  simp [groupEvents]

theorem groupEvents_singleton {event : EventMulticastGroupChanged} : groupEvents g [event] =
    if event.address = g ∧ event.reason ≠ .memberChanged then [event.reason] else [] := by
  by_cases h : event.address = g ∧ event.reason ≠ .memberChanged <;> simp [groupEvents, h]

theorem datapathOf_set {queriers : Dict ℕ Querier} {querier : Querier}
    (h : queriers.get? d = some querier) (groups : Dict String Datapath) :
    datapathOf (queriers.set d { querier with groups }) d' = datapathOf queriers d' := by
  rw [datapathOf, Dict.get?_set]
  split
  · subst d'
    simp [datapathOf, h]
  · rfl

theorem recorded_set {queriers : Dict ℕ Querier} {querier : Querier}
    {groups : Dict String Datapath} :
    Recorded (queriers.set d { querier with groups }) d' g' ↔
      if d' = d then g' ∈ groups else Recorded queriers d' g' := by
  rw [Recorded, Dict.get?_set]
  split
  · simp
  · rfl

/-- The set-up of a switch adds a querier without groups at most. -/
theorem keeps_addQuerier {I : IgmpVirtualQuerier → Prop} (sw : SwitchAttribute × Datapath)
    (hadd : ∀ s hwAddr, I s → I { s with
      queriers := s.queriers.set sw.2.id { datapath := sw.2, queryPkt := hwAddr } }) :
    Keeps I (addQuerier sw) := by
  unfold addQuerier
  refine Keeps.ite ?_ (Keeps.pure _)
  refine Keeps.bind (Keeps.ofOption _ _) fun hwAddr => ?_
  intro s hs
  rw [exec_bind_of_ok (exec_get s)]
  split
  · exact hadd s hwAddr hs
  · exact hs

/-- A packet for a querier reports or leaves, any other one changes nothing. -/
theorem step_packetIn_cases (dp : Datapath) (p : ℕ) (msgtype : IgmpType) (g ipSrc : String) :
    step s (.packetIn dp p msgtype g ipSrc) = s ∨ dp.id ∈ s.queriers ∧
      (step s (.packetIn dp p msgtype g ipSrc) = ((doReport dp p g ipSrc).exec s).2 ∨
        step s (.packetIn dp p msgtype g ipSrc) = ((doLeave dp.id p g).exec s).2) := by
  rw [step, handle]
  unfold packetInHandler
  rw [exec_bind_of_ok (exec_get s)]
  by_cases hd : dp.id ∈ s.queriers
  · rw [if_pos hd]
    cases msgtype with
    | reportV1 | reportV2 => exact Or.inr ⟨hd, Or.inl rfl⟩
    | leave => exact Or.inr ⟨hd, Or.inr rfl⟩
    | query | reportV3 | other => exact Or.inl rfl
  · rw [if_neg hd]
    exact Or.inl rfl

theorem triple_reportQuerier (hd : dp.id ∈ s.queriers) :
    Triple (· = s) (reportQuerier dp g)
      (fun _ t => ∃ queriers, t = { s with queriers } ∧
        (∀ d', datapathOf queriers d' = datapathOf s.queriers d') ∧
        ∀ d' g', Recorded queriers d' g' ↔
          Recorded s.queriers d' g' ∨ d' = dp.id ∧ g' = g) fun _ => False := by
  obtain ⟨querier, hquerier⟩ := Dict.mem_iff_get?.mp hd
  rintro s rfl
  rw [reportQuerier, exec_bind_of_ok (exec_get s), hquerier, ofOption_some,
    exec_bind_of_ok (exec_pure _ _)]
  by_cases hg : g ∈ querier.groups
  · rw [if_neg (not_not.mpr hg)]
    refine ⟨s.queriers, rfl, fun d' => rfl, fun d' g' => ?_⟩
    constructor
    · exact .inl
    · rintro (h | ⟨rfl, rfl⟩)
      · exact h
      · exact ⟨querier, hquerier, hg⟩
  · rw [if_pos hg]
    refine ⟨_, rfl, fun d' => datapathOf_set hquerier _, fun d' g' => ?_⟩
    rw [recorded_set]
    split
    · subst d'
      simp [Recorded, hquerier, or_comm]
    · rename_i hne
      simp [hne]

/-- The group table while a REPORT is worked in: the members are still those of `t`. -/
structure Opened (t u : GroupTable) (g : String) (d : ℕ) : Prop where
  port? : ∀ g' d' p', u.port? g' d' p' = t.port? g' d' p'
  pruned : u.PrunedBut g d

theorem triple_reportGroup (hs : s.groups.Pruned) :
    Triple (· = s) (reportGroup g)
      (fun _ t => ∃ groups, Opened s.groups groups g d ∧ t = { s with
        groups
        events := s.events ++ if g ∈ s.groups then [] else
          [{ reason := .groupAdded, address := g }] }) fun _ => False := by
  rintro s rfl
  rw [reportGroup, exec_bind_of_ok (exec_get s)]
  by_cases hg : g ∈ s.groups
  · have hnonempty := Dict.isEmpty_eq_false.mpr (hs.switches g hg)
    rw [if_neg (by simp [hnonempty])]
    exact ⟨s.groups, ⟨fun _ _ _ => rfl, hs.but⟩, by simp [hg]⟩
  · have hempty : (s.groups.switches g).isEmpty = true := by
      rw [GroupTable.switches, Dict.get?_eq_none.mpr hg]
      rfl
    rw [if_pos hempty]
    refine ⟨s.groups.set g ∅, ⟨fun g' d' p' => ?_, hs.but.open hempty⟩, by simp [hg]⟩
    rw [GroupTable.port?, GroupTable.ports, GroupTable.switches_open hempty]
    rfl

theorem triple_reportSwitch {u : GroupTable} (hu : Opened u s.groups g d) :
    Triple (· = s) (reportSwitch d g)
      (fun _ t => ∃ groups, Opened u groups g d ∧ t = { s with groups }) fun _ => False := by
  rintro s rfl
  rw [reportSwitch, exec_bind_of_ok (exec_get s)]
  by_cases hempty : (s.groups.ports g d).isEmpty = true
  · rw [if_pos hempty]
    refine ⟨_, ⟨fun g' d' p' => ?_, hu.pruned.openPorts hempty⟩, rfl⟩
    rw [GroupTable.port?, GroupTable.ports_openPorts hempty]
    exact hu.port? g' d' p'
  · rw [if_neg hempty]
    exact ⟨s.groups, hu, rfl⟩

/-- The port is a member in the end, the other members are as before. -/
structure Joined (t u : GroupTable) (g : String) (d p : ℕ) : Prop where
  member : ∀ g' d' p', u.Member g' d' p' ↔ t.Member g' d' p' ∨ g' = g ∧ d' = d ∧ p' = p
  pruned : u.Pruned

theorem triple_reportPort {u : GroupTable} (hu : Opened u s.groups g d) :
    Triple (· = s) (reportPort d p g ipSrc)
      (fun _ t => ∃ groups, Joined u groups g d p ∧ t = { s with
        groups
        events := s.events ++ if u.port? g d p = none then
          [{ reason := .memberChanged, address := g, dst := some ipSrc }] else []
        sent := s.sent ++ if u.port? g d p = none then [.setFlowEntry d p g] else [] })
      fun _ => False := by
  rintro s rfl
  rw [reportPort, exec_bind_of_ok (exec_get s), hu.port?]
  cases hp : u.port? g d p with
  | none =>
    rw [if_pos rfl, if_pos rfl, if_pos rfl]
    refine ⟨_, ⟨fun g' d' p' => ?_, hu.pruned.setPort⟩, rfl⟩
    rw [GroupTable.member_setPort, GroupTable.Member, hu.port?]
    rfl
  | some state =>
    rw [if_neg (by simp), if_neg (by simp), if_neg (by simp)]
    have hmember : s.groups.Member g d p := ⟨state, (hu.port? g d p).trans hp⟩
    refine ⟨s.groups, ⟨fun g' d' p' => ?_, hu.pruned.of_member hmember⟩, by simp⟩
    rw [GroupTable.Member, hu.port?]
    constructor
    · exact .inl
    · rintro (h | ⟨rfl, rfl, rfl⟩)
      · exact h
      · exact ⟨state, hp⟩

theorem Joined.setPort {t u : GroupTable} (h : Joined t u g d p) (state : GroupPort) :
    Joined t (u.setPort g d p state) g d p := by
  refine ⟨fun g' d' p' => ?_, h.pruned.but.setPort⟩
  rw [GroupTable.member_setPort, h.member, or_assoc, or_self]

theorem triple_updatePort {u : GroupTable} (hu : Joined u s.groups g d p)
    (flag : GroupPort → Bool) (write : GroupPort → GroupPort) :
    Triple (· = s) (updatePort flag write d p g)
      (fun _ t => ∃ groups, Joined u groups g d p ∧ t = { s with groups }) fun _ => False := by
  obtain ⟨state, hstate⟩ := (hu.member g d p).mpr (.inr ⟨rfl, rfl, rfl⟩)
  rintro s rfl
  rw [updatePort, exec_bind_of_ok (exec_get s), hstate, ofOption_some,
    exec_bind_of_ok (exec_pure _ _)]
  by_cases hflag : ¬ flag state = true
  · rw [if_pos hflag]
    exact ⟨_, hu.setPort _, rfl⟩
  · rw [if_neg hflag]
    exact ⟨s.groups, hu, rfl⟩

theorem triple_doReport (hs : s.Sound) (hd : dp.id ∈ s.queriers) :
    Triple (· = s) (doReport dp p g ipSrc) (fun _ t => Reported s t dp.id p g ipSrc)
      fun _ => False := by
  refine (triple_reportQuerier hd).bind fun _ => Triple.intro ?_
  rintro _ ⟨queriers, rfl, hdatapaths, hrecorded⟩
  refine (triple_reportGroup (s := { s with queriers }) (d := dp.id) hs.pruned).bind fun _ =>
    Triple.intro ?_
  rintro _ ⟨u, hu, rfl⟩
  refine (triple_reportSwitch hu).bind fun _ => Triple.intro ?_
  rintro _ ⟨v, hv, rfl⟩
  refine (triple_reportPort hv).bind fun _ => Triple.intro ?_
  rintro _ ⟨w, hw, rfl⟩
  refine (triple_updatePort hw _ _).bind fun _ => Triple.intro ?_
  rintro _ ⟨x, hx, rfl⟩
  refine (triple_updatePort hx _ _).post ?_
  rintro - _ ⟨y, hy, rfl⟩
  exact ⟨hdatapaths, hrecorded, hy.pruned, hy.member, rfl, rfl⟩

theorem Quiet.refl (hs : s.Sound) : Quiet s s :=
  ⟨rfl, hs.pruned, fun _ _ _ => Iff.rfl, rfl, fun _ _ _ => rfl⟩

theorem Quiet.setPort {state : GroupPort} (h : Quiet s t) (hp : t.groups.Member g d p) :
    Quiet s { t with groups := t.groups.setPort g d p state } where
  queriers := h.queriers
  pruned := h.pruned.but.setPort
  member g' d' p' := by
    rw [GroupTable.member_setPort, h.member, or_iff_left_of_imp]
    rintro ⟨rfl, rfl, rfl⟩
    exact (h.member ..).mp hp
  events := h.events
  sent := h.sent

theorem keeps_send {m : QuerierMessage} (hm : ∀ d p g, flowMods d p g [m] = []) :
    Keeps (Quiet s) (send m) := by
  refine Keeps.modify fun t h => ⟨h.queriers, h.pruned, h.member, h.events, fun d p g => ?_⟩
  rw [flowMods, List.filterMap_append]
  exact (congrArg₂ _ (h.sent d p g) (hm d p g)).trans (List.append_nil _)

theorem quiet_doLeave (hs : s.Sound) : Quiet s ((doLeave d p g).exec s).2 := by
  rw [doLeave, exec_bind_of_ok (exec_get s)]
  cases hp : s.groups.port? g d p with
  | none => exact .refl hs
  | some state =>
    refine Keeps.after ((Quiet.refl hs).setPort ⟨state, hp⟩) fun _ => ?_
    refine Keeps.bind (Keeps.ofOption _ _) fun querier => ?_
    refine Keeps.bind (Keeps.ofOption _ _) fun hwAddr => ?_
    refine (keeps_send fun _ _ _ => rfl).bind fun _ => Keeps.modify fun t h => ?_
    exact ⟨h.queriers, h.pruned, h.member, h.events, h.sent⟩

theorem exec_delQuerierGroup (h : Recorded s.queriers d g) :
    ∃ queriers, (delQuerierGroup g d).exec s = (.ok (), { s with queriers }) ∧
      (∀ d', datapathOf queriers d' = datapathOf s.queriers d') ∧
      ∀ d' g', Recorded queriers d' g' ↔ Recorded s.queriers d' g' ∧ ¬ (d' = d ∧ g' = g) := by
  obtain ⟨querier, hquerier, hg⟩ := h
  refine ⟨_, ?_, fun d' => datapathOf_set hquerier (querier.groups.del g), fun d' g' => ?_⟩
  · rw [delQuerierGroup, exec_bind_of_ok (exec_get s), hquerier, ofOption_some,
      exec_bind_of_ok (exec_pure _ _), if_pos hg, exec_modify]
  · rw [recorded_set]
    split
    · subst d'
      simp [Recorded, hquerier, and_comm]
    · rename_i hne
      simp [hne]

theorem exec_doTimeoutForLeave_of_none (hp : s.groups.port? g d p = none) :
    (doTimeoutForLeave (d, g, p)).exec s = (.error .keyError, s) := by
  rw [doTimeoutForLeave, exec_bind_of_ok (exec_get s), hp]
  rfl

/-- The port came back after it had left. -/
theorem exec_doTimeoutForLeave_of_stays {state : GroupPort}
    (hp : s.groups.port? g d p = some state) (hleave : state.leave = false) :
    (doTimeoutForLeave (d, g, p)).exec s = (.ok (), s) := by
  rw [doTimeoutForLeave, exec_bind_of_ok (exec_get s), hp, ofOption_some,
    exec_bind_of_ok (exec_pure _ _), if_neg (by simp [hleave])]
  rfl

theorem forgets_of_removed (hs : s.Sound) (hpruned : t.groups.Pruned)
    (hmember : ∀ g' d' p', t.groups.Member g' d' p' ↔
      s.groups.Member g' d' p' ∧ ¬ (g' = g ∧ d' = d ∧ p' = p))
    (hrecorded : ∀ d' g', Recorded t.queriers d' g' →
      Recorded s.queriers d' g' ∧ (d' = d → g' = g → g ∈ t.groups)) : Forgets s t := by
  intro d' g' h
  obtain ⟨hold, hgone⟩ := hrecorded d' g' h
  refine ⟨hold, fun hd => ?_⟩
  obtain ⟨p', hp⟩ := hs.pruned.mem_switches_iff.mp hd
  by_cases hsame : g' = g ∧ d' = d ∧ p' = p
  · obtain ⟨rfl, rfl, -⟩ := hsame
    exact hgone rfl rfl
  · exact hpruned.mem_iff.mpr ⟨d', p', (hmember g' d' p').mpr ⟨hp, hsame⟩⟩

theorem exec_doTimeoutForLeave_of_leave (hs : s.Sound) {state : GroupPort}
    (hp : s.groups.port? g d p = some state) (hleave : state.leave = true) :
    ∃ t, (doTimeoutForLeave (d, g, p)).exec s = (.ok (), t) ∧ Removed s t d p g ∧
      Forgets s t := by
  rw [doTimeoutForLeave, exec_bind_of_ok (exec_get s), hp, ofOption_some,
    exec_bind_of_ok (exec_pure _ _), if_pos hleave, send, exec_bind_of_ok (exec_modify _ _),
    sendEvent, exec_bind_of_ok (exec_modify _ _), exec_bind_of_ok (exec_modify _ _),
    exec_bind_of_ok (exec_get _)]
  by_cases hempty : ((s.groups.dropPort g d p).switches g).isEmpty = true
  · rw [if_pos hempty, exec_bind_of_ok (exec_modify _ _)]
    have hd := hs.recorded g d (GroupTable.mem_switches_of_member ⟨state, hp⟩)
    obtain ⟨queriers, hdel, hdatapaths, hrecorded⟩ := exec_delQuerierGroup (s := { s with
      groups := (s.groups.dropPort g d p).del g, events := _, sent := _ }) hd
    rw [exec_bind_of_ok hdel]
    have hnot : g ∉ Dict.del (s.groups.dropPort g d p) g := fun h => (Dict.mem_del.mp h).1 rfl
    have hpruned := hs.pruned.del_dropPort (g := g) (d := d) (p := p)
    have hmember : ∀ g' d' p', GroupTable.Member ((s.groups.dropPort g d p).del g) g' d' p' ↔
        s.groups.Member g' d' p' ∧ ¬ (g' = g ∧ d' = d ∧ p' = p) :=
      fun g' d' p' => (GroupTable.member_del hempty).trans GroupTable.member_dropPort
    refine ⟨_, rfl, ⟨hdatapaths, fun d' g' hg' h => ?_, hpruned, hmember, ?_, rfl⟩,
      forgets_of_removed hs hpruned hmember fun d' g' h => ?_⟩
    · refine (hrecorded d' g').mpr ⟨h, ?_⟩
      rintro ⟨-, rfl⟩
      exact hnot hg'
    · rw [if_neg hnot]
    · obtain ⟨hold, hne⟩ := (hrecorded d' g').mp h
      exact ⟨hold, fun hd hg => absurd ⟨hd, hg⟩ hne⟩
  · rw [if_neg hempty]
    have hin : g ∈ s.groups.dropPort g d p := GroupTable.mem_dropPort.mpr (.inl rfl)
    have hpruned := hs.pruned.dropPort (by simpa using hempty)
    refine ⟨_, rfl, ⟨fun _ => rfl, fun _ _ _ h => h, hpruned,
      fun g' d' p' => GroupTable.member_dropPort, ?_, rfl⟩, forgets_of_removed hs hpruned
        (fun g' d' p' => GroupTable.member_dropPort) fun d' g' h => ⟨h, fun _ _ => hin⟩⟩
    rw [if_pos hin, List.append_nil]

end SDRoute.IgmpVirtualQuerier
