import SDRoute.Lib.Parts
import SDRoute.Multicast.LeaveCancel

/-! The virtual querier as many small machines, one for each group and each port of a switch: what
it keeps of a port depends on the events of this port and group, and on the query rounds, only. -/
namespace SDRoute.IgmpVirtualQuerier
open Py

/-- What the querier keeps of a port for a group. -/
structure Membership where
  port : Option GroupPort := none
  timers : ℕ := 0
deriving DecidableEq

namespace Membership

inductive Event
  | report
  /-- Whether the port is known in the switch, so that a timer is started. -/
  | leave (known : Bool)
  | timeout
  | query
  | expire
deriving DecidableEq

def step (m : Membership) : Event → Membership
  | .report => { m with port := some { m.port.getD {} with replied := true } }
  | .leave known =>
    match m.port with
    | some state => {
        port := some { state with leave := true }
        timers := if known then m.timers + 1 else m.timers }
    | none => m
  | .timeout =>
    if m.timers = 0 then m
    else { port := m.port.filter fun state => !state.leave, timers := m.timers - 1 }
  | .query => { m with port := m.port.map fun state => { state with replied := false } }
  | .expire => { m with port := m.port.filter GroupPort.replied }

end Membership

/-- The port is known in its switch, as the querier has it. -/
def known (queriers : Dict ℕ Querier) (d p : ℕ) : Bool :=
  (datapathOf queriers d).any fun dp => p ∈ dp.ports

/-- What an event is for a port and a group, with these queriers. -/
def concern (queriers : Dict ℕ Querier) (d p : ℕ) (g : String) : Event → List Membership.Event
  | .packetIn dp p' msgtype g' _ =>
    if dp.id = d ∧ p' = p ∧ g' = g ∧ d ∈ queriers then
      match msgtype with
      | .reportV1 | .reportV2 => [.report]
      | .leave => [.leave (known queriers d p)]
      | .query | .reportV3 | .other => []
    else []
  | .leaveTimeout timer => if timer = (d, g, p) then [.timeout] else []
  | .sendGeneralQuery => [.query]
  | .expireQuery => [.expire]

def membership (d p : ℕ) (g : String) (s : IgmpVirtualQuerier) : Membership where
  port := s.groups.port? g d p
  timers := s.timers.count (d, g, p)

variable {s t : IgmpVirtualQuerier} {g g' ipSrc : String} {d d' p p' : ℕ} {dp : Datapath}
  {e : Event}

/-- The timers are the same, and so is every port but one. -/
structure OnlyPort (s t : IgmpVirtualQuerier) (g : String) (d p : ℕ) (port : Option GroupPort) :
    Prop where
  port? : ∀ g' d' p', t.groups.port? g' d' p' =
    if g' = g ∧ d' = d ∧ p' = p then port else s.groups.port? g' d' p'
  timers : t.timers = s.timers

theorem OnlyPort.self (h : OnlyPort s t g d p port) : t.groups.port? g d p = port := by
  rw [h.port?, if_pos ⟨rfl, rfl, rfl⟩]

theorem triple_reportPort_state (d p : ℕ) (g ipSrc : String) :
    Triple (· = s) (reportPort d p g ipSrc)
      (fun _ t => OnlyPort s t g d p (some ((s.groups.port? g d p).getD {}))) fun _ => False := by
  rintro s rfl
  rw [reportPort, exec_bind_of_ok (exec_get s)]
  cases hp : s.groups.port? g d p with
  | none =>
    rw [if_pos rfl]
    exact ⟨fun g' d' p' => GroupTable.port?_setPort, rfl⟩
  | some state =>
    rw [if_neg (by simp)]
    refine ⟨fun g' d' p' => ?_, rfl⟩
    split
    · rename_i hsame
      obtain ⟨rfl, rfl, rfl⟩ := hsame
      exact hp
    · rfl

theorem triple_updatePort_state {state : GroupPort} (hp : s.groups.port? g d p = some state)
    (flag : GroupPort → Bool) (write : GroupPort → GroupPort) :
    Triple (· = s) (updatePort flag write d p g)
      (fun _ t => OnlyPort s t g d p (some (if flag state then state else write state)))
      fun _ => False := by
  rintro s rfl
  rw [updatePort, exec_bind_of_ok (exec_get s), hp, ofOption_some, exec_bind_of_ok (exec_pure _ _)]
  cases hflag : flag state with
  | true =>
    rw [if_neg (by simp)]
    refine ⟨fun g' d' p' => ?_, rfl⟩
    split
    · rename_i hsame
      obtain ⟨rfl, rfl, rfl⟩ := hsame
      exact hp
    · rfl
  | false =>
    rw [if_pos (by simp)]
    exact ⟨fun g' d' p' => GroupTable.port?_setPort, rfl⟩

theorem OnlyPort.trans {u : IgmpVirtualQuerier} {port port' : Option GroupPort}
    (h : OnlyPort s t g d p port) (h' : OnlyPort t u g d p port') :
    OnlyPort s u g d p port' where
  port? g' d' p' := by
    rw [h'.port?]
    split
    · rfl
    · rename_i hne
      rw [h.port?, if_neg hne]
  timers := h'.timers.trans h.timers

/-- Every port and the timers are the same. -/
structure Same (s t : IgmpVirtualQuerier) : Prop where
  port? : ∀ g d p, t.groups.port? g d p = s.groups.port? g d p
  timers : t.timers = s.timers

theorem OnlyPort.of_same {u : IgmpVirtualQuerier} {port : Option GroupPort} (h : Same s t)
    (h' : OnlyPort t u g d p port) : OnlyPort s u g d p port where
  port? g' d' p' := by rw [h'.port?, h.port?]
  timers := h'.timers.trans h.timers

theorem same_reportQuerier (hd : dp.id ∈ s.queriers) :
    Triple (· = s) (reportQuerier dp g) (fun _ => Same s) fun _ => False := by
  refine (triple_reportQuerier hd).post ?_
  rintro - _ ⟨queriers, rfl, -, -⟩
  exact ⟨fun _ _ _ => rfl, rfl⟩

theorem same_reportGroup :
    Triple (Same s) (reportGroup g) (fun _ => Same s) fun _ => False := by
  intro t ht
  rw [reportGroup, exec_bind_of_ok (exec_get t)]
  by_cases hempty : (t.groups.switches g).isEmpty = true
  · rw [if_pos hempty]
    refine ⟨fun g' d' p' => ?_, ht.timers⟩
    change GroupTable.port? (t.groups.set g ∅) g' d' p' = _
    rw [← ht.port?, GroupTable.port?, GroupTable.ports, GroupTable.switches_open hempty]
    rfl
  · rw [if_neg hempty]
    exact ht

theorem same_reportSwitch :
    Triple (Same s) (reportSwitch d g) (fun _ => Same s) fun _ => False := by
  intro t ht
  rw [reportSwitch, exec_bind_of_ok (exec_get t)]
  by_cases hempty : (t.groups.ports g d).isEmpty = true
  · rw [if_pos hempty]
    refine ⟨fun g' d' p' => ?_, ht.timers⟩
    change GroupTable.port? (t.groups.setPorts g d ∅) g' d' p' = _
    rw [← ht.port?, GroupTable.port?, GroupTable.ports_openPorts hempty]
    rfl
  · rw [if_neg hempty]
    exact ht

/-- A REPORT makes the port a member that has replied, and keeps its other flags. -/
theorem triple_doReport_state (hd : dp.id ∈ s.queriers) :
    Triple (· = s) (doReport dp p g ipSrc)
      (fun _ t => OnlyPort s t g dp.id p
        (some { (s.groups.port? g dp.id p).getD {} with replied := true })) fun _ => False := by
  refine (same_reportQuerier hd).bind fun _ => same_reportGroup.bind fun _ =>
    same_reportSwitch.bind fun _ => Triple.intro fun t ht => ?_
  rw [← ht.port?]
  generalize hstate : (t.groups.port? g dp.id p).getD {} = state
  have hport := triple_reportPort_state (s := t) dp.id p g ipSrc
  rw [hstate] at hport
  refine hport.bind fun _ => Triple.intro fun a ha => ?_
  refine (triple_updatePort_state ha.self _ _).bind fun _ => Triple.intro fun b hb => ?_
  refine (triple_updatePort_state hb.self _ _).post fun _ c hc => ?_
  have honly := OnlyPort.of_same ht ((ha.trans hb).trans hc)
  obtain ⟨replied, leave, member, out, in'⟩ := state
  cases replied <;> cases leave <;> exact honly

/-- A LEAVE of a member raises its flag, and starts a timer if the port is known. -/
theorem exec_doLeave_state (hs : s.Sound) (hd : d ∈ s.queriers) {state : GroupPort}
    (hp : s.groups.port? g d p = some state) :
    OnlyPort { s with timers := ((doLeave d p g).exec s).2.timers } ((doLeave d p g).exec s).2 g d p
        (some { state with leave := true }) ∧
      ((doLeave d p g).exec s).2.timers =
        s.timers ++ if known s.queriers d p then [(d, g, p)] else [] := by
  obtain ⟨querier, hquerier⟩ := Dict.mem_iff_get?.mp hd
  have hid : querier.datapath.id = d := hs.keyed d querier.datapath (by
    rw [datapathOf, hquerier]
    rfl)
  have hknown : known s.queriers d p = decide (p ∈ querier.datapath.ports) := by
    rw [known, datapathOf, hquerier]
    rfl
  rw [doLeave, exec_bind_of_ok (exec_get s), hp]
  dsimp only
  rw [exec_bind_of_ok (exec_modify _ _), hquerier, ofOption_some, exec_bind_of_ok (exec_pure _ _),
    hknown]
  cases hport : querier.datapath.ports.get? p with
  | none =>
    have hnot : p ∉ querier.datapath.ports := Dict.get?_eq_none.mp hport
    rw [ofOption_none, exec_bind_of_error (exec_throw _ _), decide_eq_false hnot]
    exact ⟨⟨fun _ _ _ => GroupTable.port?_setPort, rfl⟩, by simp⟩
  | some hwAddr =>
    have hmem : p ∈ querier.datapath.ports := Dict.mem_iff_get?.mpr ⟨hwAddr, hport⟩
    rw [ofOption_some, exec_bind_of_ok (exec_pure _ _), send, exec_bind_of_ok (exec_modify _ _),
      exec_modify, hid, decide_eq_true hmem]
    exact ⟨⟨fun _ _ _ => GroupTable.port?_setPort, rfl⟩, rfl⟩

/-- A group without switches has no port to lose. -/
theorem OnlyPort.del {port : Option GroupPort} (h : OnlyPort s t g d p port)
    (hempty : (t.groups.switches g').isEmpty = true) :
    OnlyPort s { t with groups := t.groups.del g' } g d p port where
  port? a d' p' := by
    rw [← h.port?]
    change GroupTable.port? (t.groups.del g') a d' p' = _
    rw [GroupTable.port?, GroupTable.ports_del]
    split
    · subst a
      rw [GroupTable.port?, GroupTable.ports, Dict.eq_empty_of_isEmpty hempty]
      rfl
    · rfl
  timers := h.timers

theorem keeps_ports_delQuerierGroup {port : Option GroupPort} :
    Keeps (fun t => OnlyPort s t g d p port) (delQuerierGroup g' d') := by
  unfold delQuerierGroup
  refine Keeps.get.bind fun r => (Keeps.ofOption _ _).bind fun querier => ?_
  exact Keeps.ite (Keeps.modify fun t h => ⟨h.port?, h.timers⟩) (Keeps.throw _)

theorem keeps_ports_sendEvent {port : Option GroupPort} {event : EventMulticastGroupChanged} :
    Keeps (fun t => OnlyPort s t g d p port) (sendEvent event) :=
  Keeps.modify fun _ h => ⟨h.port?, h.timers⟩

/-- The end of a timer drops the port if its flag is up. -/
theorem onlyPort_doTimeoutForLeave : OnlyPort s ((doTimeoutForLeave (d, g, p)).exec s).2 g d p
    ((s.groups.port? g d p).filter fun state => !state.leave) := by
  have hsame : ∀ port, s.groups.port? g d p = port → OnlyPort s s g d p port := by
    rintro _ rfl
    refine ⟨fun g' d' p' => ?_, rfl⟩
    split
    · rename_i hsame
      obtain ⟨rfl, rfl, rfl⟩ := hsame
      rfl
    · rfl
  cases hp : s.groups.port? g d p with
  | none =>
    rw [exec_doTimeoutForLeave_of_none hp]
    exact hsame _ hp
  | some state =>
    cases hleave : state.leave with
    | false =>
      rw [exec_doTimeoutForLeave_of_stays hp hleave, Option.filter_some, hleave]
      exact hsame _ hp
    | true =>
      rw [doTimeoutForLeave, exec_bind_of_ok (exec_get s), hp, ofOption_some,
        exec_bind_of_ok (exec_pure _ _), if_pos hleave, send, exec_bind_of_ok (exec_modify _ _),
        sendEvent, exec_bind_of_ok (exec_modify _ _), exec_bind_of_ok (exec_modify _ _),
        exec_bind_of_ok (exec_get _), Option.filter_some, hleave]
      have hdropped : ∀ events sent, OnlyPort s { s with
          groups := s.groups.dropPort g d p, events, sent } g d p none :=
        fun _ _ => ⟨fun _ _ _ => GroupTable.port?_dropPort, rfl⟩
      by_cases hempty : ((s.groups.dropPort g d p).switches g).isEmpty = true
      · rw [if_pos hempty]
        rw [exec_bind_of_ok (exec_modify _ _)]
        exact (keeps_ports_delQuerierGroup.bind fun _ => keeps_ports_sendEvent) _
          ((hdropped _ _).del hempty)
      · rw [if_neg hempty]
        exact hdropped _ _

/-- The start of a query round waits for every reply again. -/
theorem membership_sendGeneralQuery : membership d p g (sendGeneralQuery.exec s).2 =
    (membership d p g s).step .query := by
  have hkeeps : Keeps (fun t => membership d p g t = (membership d p g s).step .query)
      (get >>= fun t : IgmpVirtualQuerier => t.queriers.values.forM fun querier =>
        send (.generalQuery querier.datapath.id querier.queryPkt)) :=
    Keeps.get.bind fun _ => Keeps.forM fun querier _ => Keeps.modify fun t h => h
  rw [sendGeneralQuery]
  refine Keeps.after ?_ fun _ => hkeeps
  change Membership.mk (GroupTable.port? (resetReplied s.groups) g d p) _ = _
  rw [port?_resetReplied]
  rfl

theorem port?_expireSwitches {t : GroupTable} :
    GroupTable.port? (t.mapValues expireSwitches) g d p =
      (t.port? g d p).filter GroupPort.replied := by
  rw [GroupTable.port?, GroupTable.ports, GroupTable.switches_mapValues rfl, get?_expireSwitches,
    GroupTable.port?, GroupTable.ports]
  cases (t.switches g).get? d with
  | none => rfl
  | some ports =>
    rw [Option.map_some, Option.getD_some, ← get?_expirePorts]
    cases hempty : (expirePorts ports).isEmpty with
    | false => simp [Option.filter, hempty]
    | true => simp [Option.filter, Dict.eq_empty_of_isEmpty hempty]

/-- A group without a port that replied has no port to lose either. -/
structure OnlyReplied (s t : IgmpVirtualQuerier) : Prop where
  port? : ∀ g d p, t.groups.port? g d p = (s.groups.port? g d p).filter GroupPort.replied
  timers : t.timers = s.timers

theorem keeps_delQuerierGroups {ds : List ℕ} :
    Keeps (OnlyReplied s) (ds.forM (delQuerierGroup g)) := by
  refine Keeps.forM fun d _ => ?_
  unfold delQuerierGroup
  refine Keeps.get.bind fun r => (Keeps.ofOption _ _).bind fun querier => ?_
  exact Keeps.ite (Keeps.modify fun t h => ⟨h.port?, h.timers⟩) (Keeps.throw _)

theorem keeps_removeGroup {group : String × Dict ℕ (Dict ℕ GroupPort)}
    (hgroup : s.groups.get? group.1 = some group.2)
    (hempty : (expireSwitches group.2).isEmpty = true) :
    Keeps (OnlyReplied s) (removeGroup group) := by
  refine Keeps.bind (Keeps.modify fun t h => ⟨fun g d p => ?_, h.timers⟩) fun _ =>
    keeps_delQuerierGroups.bind fun _ => Keeps.modify fun t h => ⟨h.port?, h.timers⟩
  change GroupTable.port? (t.groups.del group.1) g d p = _
  rw [GroupTable.port?, GroupTable.ports_del]
  split
  · subst g
    have hswitches : GroupTable.switches (s.groups.mapValues expireSwitches) group.1 = ∅ := by
      rw [GroupTable.switches_mapValues rfl, GroupTable.switches, hgroup, Option.getD_some,
        Dict.eq_empty_of_isEmpty hempty]
    rw [← port?_expireSwitches, GroupTable.port?, GroupTable.ports, hswitches]
    rfl
  · exact h.port? g d p

/-- The end of a query round keeps the ports that replied. -/
theorem onlyReplied_expireQuery : OnlyReplied s (expireQuery.exec s).2 := by
  rw [expireQuery, exec_bind_of_ok (exec_get s), exec_bind_of_ok (exec_modify _ _)]
  refine Keeps.forM (fun group hgroup => ?_) _ ⟨fun _ _ _ => port?_expireSwitches, rfl⟩
  obtain ⟨hmem, hempty⟩ := List.mem_filter.mp hgroup
  exact keeps_removeGroup (Dict.mem_items.mp hmem) hempty

theorem membership_leaveTimeout (hs : (d, g, p) ∈ s.timers) :
    membership d p g (step s (.leaveTimeout (d, g, p))) = (membership d p g s).step .timeout := by
  have honly := onlyPort_doTimeoutForLeave (s := { s with timers := s.timers.erase (d, g, p) })
    (g := g) (d := d) (p := p)
  have hcount : s.timers.count (d, g, p) ≠ 0 := (List.count_pos_iff.mpr hs).ne'
  rw [step, handle, exec_bind_of_ok (exec_get s), if_pos hs, exec_bind_of_ok (exec_modify _ _),
    membership, honly.self, honly.timers, membership, Membership.step, if_neg hcount]
  simp only [List.count_erase_self]

theorem membership_of_only {port : Option GroupPort} {d' p' : ℕ} (h : OnlyPort s t g' d' p' port)
    (hne : ¬ (g = g' ∧ d = d' ∧ p = p')) : membership d p g t = membership d p g s := by
  rw [membership, membership, h.port?, if_neg hne, h.timers]

/-- A timer of another port, or one that is not pending, is no event of the port. -/
theorem membership_leaveTimeout_other {timer : LeaveTimer}
    (h : timer ≠ (d, g, p) ∨ timer ∉ s.timers) :
    membership d p g (step s (.leaveTimeout timer)) = membership d p g s := by
  rw [step, handle, exec_bind_of_ok (exec_get s)]
  by_cases hmem : timer ∈ s.timers
  · have hne := h.resolve_right (not_not_intro hmem)
    obtain ⟨d', g', p'⟩ := timer
    rw [if_pos hmem, exec_bind_of_ok (exec_modify _ _)]
    have honly := onlyPort_doTimeoutForLeave
      (s := { s with timers := s.timers.erase (d', g', p') }) (g := g') (d := d') (p := p')
    rw [membership_of_only honly fun hsame => hne (by
      obtain ⟨rfl, rfl, rfl⟩ := hsame
      rfl)]
    change Membership.mk _ ((s.timers.erase (d', g', p')).count (d, g, p)) = _
    rw [List.count_erase_of_ne hne.symm]
    rfl
  · rw [if_neg hmem]
    rfl

theorem membership_doReport (hd : dp.id ∈ s.queriers) :
    membership d p g ((doReport dp p' g' ipSrc).exec s).2 =
      if dp.id = d ∧ p' = p ∧ g' = g then (membership d p g s).step .report
      else membership d p g s := by
  have hreport : OnlyPort s ((doReport dp p' g' ipSrc).exec s).2 g' dp.id p'
      (some { (s.groups.port? g' dp.id p').getD {} with replied := true }) := by
    obtain ⟨⟨⟩, t, hexec, honly⟩ := (triple_doReport_state hd).returns rfl
    rw [hexec]
    exact honly
  split
  · rename_i hsame
    obtain ⟨rfl, rfl, rfl⟩ := hsame
    rw [membership, hreport.self, hreport.timers]
    rfl
  · rename_i hne
    exact membership_of_only hreport fun hsame => hne ⟨hsame.2.1.symm, hsame.2.2.symm, hsame.1.symm⟩

theorem membership_doLeave (hs : s.Sound) (hd : d' ∈ s.queriers) :
    membership d p g ((doLeave d' p' g').exec s).2 =
      if d' = d ∧ p' = p ∧ g' = g then (membership d p g s).step (.leave (known s.queriers d p))
      else membership d p g s := by
  cases hp : s.groups.port? g' d' p' with
  | none =>
    have hstays : ((doLeave d' p' g').exec s).2 = s := by
      rw [doLeave, exec_bind_of_ok (exec_get s), hp]
      rfl
    rw [hstays]
    split
    · rename_i hsame
      obtain ⟨rfl, rfl, rfl⟩ := hsame
      rw [membership, hp]
      rfl
    · rfl
  | some state =>
    obtain ⟨honly, htimers⟩ := exec_doLeave_state hs hd hp
    split
    · rename_i hsame
      obtain ⟨rfl, rfl, rfl⟩ := hsame
      rw [membership, honly.self, htimers, membership, hp]
      cases hknown : known s.queriers d' p' <;> simp [Membership.step]
    · rename_i hne
      rw [membership_of_only honly fun hsame =>
        hne ⟨hsame.2.1.symm, hsame.2.2.symm, hsame.1.symm⟩, htimers]
      have hcount :
          (if known s.queriers d' p' then [(d', g', p')] else []).count (d, g, p) = 0 := by
        apply List.count_eq_zero_of_not_mem
        cases known s.queriers d' p' with
        | false => exact List.not_mem_nil
        | true =>
          intro hmem
          obtain ⟨rfl, rfl, rfl⟩ : d = d' ∧ g = g' ∧ p = p' := by simpa using hmem
          exact hne ⟨rfl, rfl, rfl⟩
      simp only [membership, List.count_append, hcount, Nat.add_zero]

/-- A packet is an event of its own port and group only. -/
theorem membership_packetIn (hs : s.Sound) (dp : Datapath) (p' : ℕ) (msgtype : IgmpType)
    (g' ipSrc : String) : membership d p g (step s (.packetIn dp p' msgtype g' ipSrc)) =
      Machine.run Membership.step (membership d p g s)
        (concern s.queriers d p g (.packetIn dp p' msgtype g' ipSrc)) := by
  rw [step, handle]
  unfold packetInHandler concern
  dsimp only
  rw [exec_bind_of_ok (exec_get s)]
  by_cases hd : dp.id ∈ s.queriers
  · have hiff : (dp.id = d ∧ p' = p ∧ g' = g ∧ d ∈ s.queriers) ↔ dp.id = d ∧ p' = p ∧ g' = g :=
      ⟨fun h => ⟨h.1, h.2.1, h.2.2.1⟩, fun h => ⟨h.1, h.2.1, h.2.2, h.1 ▸ hd⟩⟩
    rw [if_pos hd, if_congr hiff rfl rfl]
    cases msgtype with
    | reportV1 | reportV2 =>
      rw [membership_doReport hd]
      split <;> rfl
    | leave =>
      rw [membership_doLeave hs hd]
      split <;> rfl
    | query | reportV3 | other =>
      dsimp only
      rw [ite_self]
      rfl
  · have hnot : ¬ (dp.id = d ∧ p' = p ∧ g' = g ∧ d ∈ s.queriers) :=
      fun h => hd (h.1 ▸ h.2.2.2)
    rw [if_neg hd, if_neg hnot]
    rfl

/-- What a step changes of a port is what the event is for it. -/
theorem membership_step (hs : s.Sound) (e : Event) :
    membership d p g (step s e) =
      Machine.run Membership.step (membership d p g s) (concern s.queriers d p g e) := by
  cases e with
  | packetIn dp p' msgtype g' ipSrc => exact membership_packetIn hs dp p' msgtype g' ipSrc
  | leaveTimeout timer =>
    rw [concern]
    split
    · rename_i hsame
      subst timer
      by_cases hmem : (d, g, p) ∈ s.timers
      · exact membership_leaveTimeout hmem
      · have hcount : s.timers.count (d, g, p) = 0 := List.count_eq_zero_of_not_mem hmem
        rw [membership_leaveTimeout_other (.inr hmem), Machine.run_cons, Machine.run_nil,
          Membership.step, membership, if_pos hcount]
    · rename_i hne
      exact membership_leaveTimeout_other (.inl hne)
  | sendGeneralQuery => exact membership_sendGeneralQuery
  | expireQuery =>
    rw [step, handle, membership, onlyReplied_expireQuery.port?, onlyReplied_expireQuery.timers]
    rfl

theorem datapathOf_step (hs : s.Sound) (e : Event) :
    datapathOf (step s e).queriers d = datapathOf s.queriers d := by
  rcases step_cases hs e with h | ⟨d', p, g, ipSrc, h⟩ | ⟨d', p, g, -, h⟩ | ⟨-, h⟩
  · rw [h.queriers]
  · exact h.datapaths d
  · exact h.datapaths d
  · exact h.datapaths d

theorem mem_queriers {queriers : Dict ℕ Querier} :
    d ∈ queriers ↔ (datapathOf queriers d).isSome = true := by
  rw [datapathOf, Option.isSome_map, Dict.mem_iff_get?, Option.isSome_iff_exists]

/-- An event concerns the ports of the datapaths, whatever else the queriers have. -/
theorem concern_congr {queriers queriers' : Dict ℕ Querier}
    (h : datapathOf queriers d = datapathOf queriers' d) (e : Event) :
    concern queriers d p g e = concern queriers' d p g e := by
  cases e with
  | packetIn dp p' msgtype g' ipSrc => simp only [concern, known, mem_queriers, h]
  | leaveTimeout timer => rfl
  | sendGeneralQuery => rfl
  | expireQuery => rfl

theorem membership_of_sound (hs : s.Sound) (es : List Event) (d p : ℕ) (g : String) :
    membership d p g (Machine.run step s es) =
      Machine.run Membership.step (membership d p g s) (es.flatMap (concern s.queriers d p g)) := by
  have hview : membership d p g (Machine.run step s es) =
      Machine.run Membership.step (membership d p g s)
        (Machine.trace step (fun _ => concern s.queriers d p g) s es) :=
    Machine.view_run (membership d p g)
      (fun t => t.Sound ∧ datapathOf t.queriers d = datapathOf s.queriers d)
      (fun t e h => ⟨sound_step h.1 e, (datapathOf_step h.1 e).trans h.2⟩)
      (fun t e h => by rw [membership_step h.1 e, concern_congr h.2]) ⟨hs, rfl⟩
  rw [hview, Machine.trace_const]

theorem membership_init (switches : List (SwitchAttribute × Datapath)) (d p : ℕ) (g : String) :
    membership d p g (init switches) = {} := by
  have hfresh := fresh_init switches
  rw [membership, hfresh.groups, hfresh.timers]
  rfl

/-- What concerns a port in a run. -/
def history (switches : List (SwitchAttribute × Datapath)) (d p : ℕ) (g : String)
    (es : List Event) : List Membership.Event :=
  es.flatMap (concern (init switches).queriers d p g)

/-- In every run each port of each group is a machine of its own. -/
theorem membership_run (switches : List (SwitchAttribute × Datapath)) (es : List Event) (d p : ℕ)
    (g : String) : membership d p g (Machine.run step (init switches) es) =
      Machine.run Membership.step {} (history switches d p g es) := by
  rw [membership_of_sound (fresh_init switches).sound, membership_init, history]

namespace Membership

variable {cs after : List Membership.Event} {c : Membership.Event} {m : Membership}

/-- The port is a member, and has replied since the last query. -/
def Replied (m : Membership) : Prop := ∃ state, m.port = some state ∧ state.replied = true

theorem isSome_expire : (m.step .expire).port.isSome = true ↔ m.Replied := by
  obtain ⟨port, timers⟩ := m
  cases port with
  | none => simp [step, Replied]
  | some state => cases hflag : state.replied <;> simp [step, Replied, Option.filter, hflag]

/-- A REPORT has been followed by no query. -/
def Heard (cs : List Membership.Event) : Prop :=
  ∃ before after, cs = before ++ .report :: after ∧ .query ∉ after

theorem heard_snoc : Heard (cs ++ [c]) ↔ c = .report ∨ Heard cs ∧ c ≠ .query := by
  rw [Heard, Machine.exists_split_snoc (Q := fun after => Event.query ∉ after)]
  simp only [List.not_mem_nil, not_false_eq_true, and_true, List.mem_append, List.mem_singleton,
    not_or, Heard]
  constructor
  · rintro (h | ⟨before, after, rfl, hafter, hc⟩)
    · exact .inl h
    · exact .inr ⟨⟨before, after, rfl, hafter⟩, Ne.symm hc⟩
  · rintro (h | ⟨⟨before, after, rfl, hafter⟩, hc⟩)
    · exact .inl h
    · exact .inr ⟨before, after, rfl, hafter, Ne.symm hc⟩

/-- The flag of a member is up exactly if a REPORT was heard since the last query. -/
theorem replied_run (cs : List Membership.Event) :
    (Machine.run step {} cs).Replied ↔
      (Machine.run step {} cs).port.isSome = true ∧ Heard cs := by
  induction cs using List.reverseRecOn with
  | nil => simp [Replied, Heard]
  | append_singleton cs c ih =>
    rw [Machine.run_append, Machine.run_cons, Machine.run_nil, heard_snoc]
    generalize Machine.run step {} cs = m at ih
    obtain ⟨port, timers⟩ := m
    cases c with
    | report => simp [Replied, step]
    | leave known => cases port <;> simp_all [Replied, step]
    | timeout =>
      rw [step]
      split
      · simpa using ih
      · cases port with
        | none => simp [Replied]
        | some state => cases hleave : state.leave <;> simp_all [Replied, Option.filter]
    | query => cases port <;> simp_all [Replied, step]
    | expire =>
      cases port with
      | none => simp [Replied, step]
      | some state => cases hreplied : state.replied <;> simp_all [Replied, step, Option.filter]

/-- A query round has come to its end. -/
def Lapsed (cs : List Membership.Event) : Prop :=
  ∃ before after, cs = before ++ .expire :: after ∧ .query ∈ before

theorem lapsed_snoc : Lapsed (cs ++ [c]) ↔ Lapsed cs ∨ c = .expire ∧ .query ∈ cs := by
  constructor
  · rintro ⟨before, after, hcs, hquery⟩
    rcases List.eq_nil_or_concat after with rfl | ⟨after, c', rfl⟩
    · obtain ⟨rfl, hc⟩ := List.append_inj' hcs rfl
      exact .inr ⟨List.singleton_inj.mp hc, hquery⟩
    · rw [List.concat_eq_append, ← List.cons_append, ← List.append_assoc] at hcs
      obtain ⟨rfl, -⟩ := List.append_inj' hcs rfl
      exact .inl ⟨before, after, rfl, hquery⟩
  · rintro (⟨before, after, rfl, hquery⟩ | ⟨rfl, hquery⟩)
    · exact ⟨before, after ++ [c], by simp, hquery⟩
    · exact ⟨cs, [], rfl, hquery⟩

theorem not_lapsed_nil : ¬ Lapsed [] := by
  rintro ⟨before, after, h, -⟩
  simp at h

theorem not_lapsed (h : .query ∉ cs) : ¬ Lapsed cs := by
  rintro ⟨before, after, rfl, hquery⟩
  exact h (List.mem_append_left _ hquery)

/-- A REPORT has been followed by no whole query round. -/
def Upheld (cs : List Membership.Event) : Prop :=
  ∃ before after, cs = before ++ .report :: after ∧ ¬ Lapsed after

theorem upheld_snoc :
    Upheld (cs ++ [c]) ↔ c = .report ∨ Upheld cs ∧ (c = .expire → Heard cs) := by
  rw [Upheld, Machine.exists_split_snoc (Q := fun after => ¬ Lapsed after)]
  refine or_congr (and_iff_left not_lapsed_nil) ?_
  constructor
  · rintro ⟨before, after, rfl, hafter⟩
    rw [lapsed_snoc, not_or, not_and] at hafter
    exact ⟨⟨before, after, rfl, hafter.1⟩, fun hc => ⟨before, after, rfl, hafter.2 hc⟩⟩
  · rintro ⟨⟨before, after, rfl, hafter⟩, hheard⟩
    by_cases hc : c = .expire
    · obtain ⟨before', after', hcs, hquery⟩ := hheard hc
      refine ⟨before', after', hcs, fun hlapsed => ?_⟩
      rcases lapsed_snoc.mp hlapsed with hlapsed | ⟨-, hmem⟩
      · exact not_lapsed hquery hlapsed
      · exact hquery hmem
    · refine ⟨before, after, rfl, fun hlapsed => ?_⟩
      rcases lapsed_snoc.mp hlapsed with hlapsed | ⟨hexpire, -⟩
      · exact hafter hlapsed
      · exact hc hexpire

theorem leave_run (hstays : ∀ known, .leave known ∉ cs) {state : GroupPort}
    (h : (Machine.run step {} cs).port = some state) : state.leave = false := by
  induction cs using List.reverseRecOn generalizing state with
  | nil => cases h
  | append_singleton cs c ih =>
    have hbefore : ∀ known, .leave known ∉ cs := fun known hmem =>
      hstays known (List.mem_append_left _ hmem)
    replace ih : ∀ state, (Machine.run step {} cs).port = some state → state.leave = false :=
      fun state => ih hbefore
    rw [Machine.run_append, Machine.run_cons, Machine.run_nil] at h
    generalize Machine.run step {} cs = m at ih h
    obtain ⟨port, timers⟩ := m
    cases c with
    | report => cases port <;> simp_all [step] <;> subst h <;> simp_all
    | leave known =>
      have hmem : Event.leave known ∈ cs ++ [.leave known] := by simp
      exact absurd hmem (hstays known)
    | timeout =>
      rw [step] at h
      split at h
      · exact ih state h
      · exact ih state (Option.filter_eq_some_iff.mp h).1
    | query =>
      cases port with
      | none => cases h
      | some old =>
        obtain rfl := Option.some.inj h
        exact ih old rfl
    | expire => exact ih state (Option.filter_eq_some_iff.mp h).1

/-- A port that sends no LEAVE is a member until a query round passes without a REPORT. -/
theorem port_run (hstays : ∀ known, .leave known ∉ cs) :
    (Machine.run step {} cs).port.isSome = true ↔ Upheld cs := by
  induction cs using List.reverseRecOn with
  | nil => simp [Upheld]
  | append_singleton cs c ih =>
    have hbefore : ∀ known, .leave known ∉ cs := fun known hmem =>
      hstays known (List.mem_append_left _ hmem)
    have hreplied := replied_run cs
    have hleave : ∀ state, (Machine.run step {} cs).port = some state → state.leave = false :=
      fun state => leave_run hbefore
    rw [Machine.run_append, Machine.run_cons, Machine.run_nil, upheld_snoc, ← ih hbefore]
    generalize Machine.run step {} cs = m at hreplied hleave
    obtain ⟨port, timers⟩ := m
    cases c with
    | report => simp [step]
    | leave known =>
      have hmem : Event.leave known ∈ cs ++ [.leave known] := by simp
      exact absurd hmem (hstays known)
    | timeout =>
      rw [step]
      split
      · simp
      · cases port with
        | none => simp
        | some state => simp [Option.filter, hleave state rfl]
    | query => cases port <;> simp [step]
    | expire =>
      rw [isSome_expire, hreplied]
      simp

end Membership

theorem member_iff (switches : List (SwitchAttribute × Datapath)) (es : List Event) (d p : ℕ)
    (g : String) : (Machine.run step (init switches) es).groups.Member g d p ↔
      (Machine.run Membership.step {} (history switches d p g es)).port.isSome = true := by
  have hrun := membership_of_sound (fresh_init switches).sound es d p g
  rw [membership_init] at hrun
  rw [history, ← hrun]
  exact Option.isSome_iff_exists.symm

/-- The end of a query round removes the members that were silent since its start. -/
theorem member_after_expireQuery (switches : List (SwitchAttribute × Datapath)) (es : List Event)
    (d p : ℕ) (g : String) :
    (Machine.run step (init switches) (es ++ [.expireQuery])).groups.Member g d p ↔
      (Machine.run step (init switches) es).groups.Member g d p ∧
        Membership.Heard (history switches d p g es) := by
  have hsnoc : history switches d p g (es ++ [.expireQuery]) =
      history switches d p g es ++ [.expire] := by
    rw [history, List.flatMap_append, List.flatMap_singleton, concern]
    rfl
  rw [member_iff, member_iff, hsnoc, Machine.run_append, Machine.run_cons, Machine.run_nil,
    Membership.isSome_expire, Membership.replied_run]

theorem notMem_history (switches : List (SwitchAttribute × Datapath)) {es : List Event}
    (hstays : ∀ dp ipSrc, dp.id = d → .packetIn dp p .leave g ipSrc ∉ es) (known : Bool) :
    .leave known ∉ history switches d p g es := by
  intro hmem
  obtain ⟨e, he, hconcern⟩ := List.mem_flatMap.mp hmem
  cases e with
  | packetIn dp p' msgtype g' ipSrc =>
    simp only [concern] at hconcern
    split at hconcern
    · rename_i hsame
      obtain ⟨hd, rfl, rfl, -⟩ := hsame
      cases msgtype with
      | leave => exact hstays dp ipSrc hd he
      | reportV1 | reportV2 | query | reportV3 | other => simp at hconcern
    · cases hconcern
  | leaveTimeout timer =>
    simp only [concern] at hconcern
    split at hconcern <;> simp at hconcern
  | sendGeneralQuery => simp [concern] at hconcern
  | expireQuery => simp [concern] at hconcern

/-- A port that never leaves the group is a member while the query rounds hear it. -/
theorem member_while_heard (switches : List (SwitchAttribute × Datapath)) (es : List Event)
    (d p : ℕ) (g : String) (hstays : ∀ dp ipSrc, dp.id = d →
      .packetIn dp p .leave g ipSrc ∉ es) :
    (Machine.run step (init switches) es).groups.Member g d p ↔
      Membership.Upheld (history switches d p g es) := by
  rw [member_iff, Membership.port_run (notMem_history switches hstays)]

theorem member_while_heard_first :
    (Machine.run step (init [(.edge, edgeDatapath)])
      (firstReceiver ++ [.sendGeneralQuery])).groups.Member "239.1.1.1" 1 1 ↔
      Membership.Upheld (history [(.edge, edgeDatapath)] 1 1 "239.1.1.1"
        (firstReceiver ++ [.sendGeneralQuery])) :=
  member_while_heard _ _ _ _ _ (by simp [firstReceiver])

end SDRoute.IgmpVirtualQuerier
