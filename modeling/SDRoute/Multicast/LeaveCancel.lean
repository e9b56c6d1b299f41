import SDRoute.Multicast.LeaveTimers

/-! A REPORT after a LEAVE: it does not lower the flag that the leave timer reads. -/
namespace SDRoute.IgmpVirtualQuerier
open Py

variable {s t : IgmpVirtualQuerier} {g g' ipSrc : String} {d d' p p' : ℕ} {dp : Datapath}
  {e : Event} {es : List Event} {u : GroupTable}

/-- The port is a member whose flag of a LEAVE is up. -/
def LeftIn (t : GroupTable) (g : String) (d p : ℕ) : Prop :=
  ∃ state, t.port? g d p = some state ∧ state.leave = true

/-- A member has left, and the timer that its LEAVE started is pending. -/
structure Leaving (g : String) (d p : ℕ) (s : IgmpVirtualQuerier) : Prop where
  left : LeftIn s.groups g d p
  timer : (d, g, p) ∈ s.timers

/-- Neither the end of a query round nor the timer of the port. -/
def Between (g : String) (d p : ℕ) (e : Event) : Prop :=
  e ≠ .expireQuery ∧ e ≠ .leaveTimeout (d, g, p)

theorem LeftIn.setPort {state : GroupPort} (h : LeftIn u g d p)
    (hstate : g = g' → d = d' → p = p' → state.leave = true) :
    LeftIn (u.setPort g' d' p' state) g d p := by
  obtain ⟨old, hold, hleave⟩ := h
  rw [LeftIn, GroupTable.port?_setPort]
  by_cases hsame : g = g' ∧ d = d' ∧ p = p'
  · rw [if_pos hsame]
    exact ⟨state, rfl, hstate hsame.1 hsame.2.1 hsame.2.2⟩
  · rw [if_neg hsame]
    exact ⟨old, hold, hleave⟩

theorem LeftIn.dropPort (h : LeftIn u g d p) (hne : ¬ (g = g' ∧ d = d' ∧ p = p')) :
    LeftIn (u.dropPort g' d' p') g d p := by
  rw [LeftIn, GroupTable.port?_dropPort, if_neg hne]
  exact h

theorem LeftIn.del (h : LeftIn u g d p) (hempty : (u.switches g').isEmpty = true) :
    LeftIn (u.del g') g d p := by
  obtain ⟨state, hstate, hleave⟩ := h
  have hne : g ≠ g' := by
    rintro rfl
    rw [GroupTable.port?, GroupTable.ports, Dict.eq_empty_of_isEmpty hempty] at hstate
    cases hstate
  rw [LeftIn, GroupTable.port?, GroupTable.ports_del, if_neg hne]
  exact ⟨state, hstate, hleave⟩

/-! No handler of a REPORT lowers the flag. -/

theorem keeps_reportQuerier : Keeps (Leaving g d p) (reportQuerier dp g') := by
  unfold reportQuerier
  refine Keeps.get.bind fun r => (Keeps.ofOption _ _).bind fun querier => ?_
  exact Keeps.ite (Keeps.modify fun s hs => ⟨hs.left, hs.timer⟩) (Keeps.pure _)

theorem keeps_sendEvent (event : EventMulticastGroupChanged) :
    Keeps (Leaving g d p) (sendEvent event) := Keeps.modify fun _ hs => ⟨hs.left, hs.timer⟩

theorem keeps_message (message : QuerierMessage) : Keeps (Leaving g d p) (send message) :=
  Keeps.modify fun _ hs => ⟨hs.left, hs.timer⟩

theorem keeps_reportGroup : Keeps (Leaving g d p) (reportGroup g') := by
  intro s hs
  rw [reportGroup, exec_bind_of_ok (exec_get s)]
  by_cases hempty : (s.groups.switches g').isEmpty = true
  · rw [if_pos hempty]
    refine Keeps.after ⟨?_, hs.timer⟩ fun _ => keeps_sendEvent _
    have hleft := hs.left
    rw [LeftIn, GroupTable.port?, GroupTable.ports] at hleft
    change LeftIn (s.groups.set g' ∅) g d p
    rw [LeftIn, GroupTable.port?, GroupTable.ports, GroupTable.switches_open hempty]
    exact hleft
  · rw [if_neg hempty]
    exact hs

theorem keeps_reportSwitch : Keeps (Leaving g d p) (reportSwitch d' g') := by
  intro s hs
  rw [reportSwitch, exec_bind_of_ok (exec_get s)]
  by_cases hempty : (s.groups.ports g' d').isEmpty = true
  · rw [if_pos hempty]
    refine ⟨?_, hs.timer⟩
    have hleft := hs.left
    rw [LeftIn, GroupTable.port?] at hleft
    change LeftIn (s.groups.setPorts g' d' ∅) g d p
    rw [LeftIn, GroupTable.port?, GroupTable.ports_openPorts hempty]
    exact hleft
  · rw [if_neg hempty]
    exact hs

theorem keeps_reportPort : Keeps (Leaving g d p) (reportPort d' p' g' ipSrc) := by
  intro s hs
  rw [reportPort, exec_bind_of_ok (exec_get s)]
  by_cases hnone : s.groups.port? g' d' p' = none
  · rw [if_pos hnone]
    refine Keeps.after ⟨hs.left.setPort ?_, hs.timer⟩ fun _ =>
      (keeps_sendEvent _).bind fun _ => keeps_message _
    rintro rfl rfl rfl
    obtain ⟨state, hstate, -⟩ := hs.left
    rw [hstate] at hnone
    cases hnone
  · rw [if_neg hnone]
    exact hs

/-- A flag that is written leaves the flag of a LEAVE up. -/
theorem keeps_updatePort {flag : GroupPort → Bool} {write : GroupPort → GroupPort}
    (hwrite : ∀ state, flag state = false → state.leave = true → (write state).leave = true) :
    Keeps (Leaving g d p) (updatePort flag write d' p' g') := by
  intro s hs
  rw [updatePort, exec_bind_of_ok (exec_get s)]
  cases hstate : s.groups.port? g' d' p' with
  | none => exact hs
  | some state =>
    rw [ofOption_some, exec_bind_of_ok (exec_pure _ _)]
    by_cases hflag : ¬ flag state = true
    · rw [if_pos hflag]
      refine ⟨hs.left.setPort ?_, hs.timer⟩
      rintro rfl rfl rfl
      obtain ⟨state', hstate', hleave⟩ := hs.left
      obtain rfl := Option.some.inj (hstate'.symm.trans hstate)
      exact hwrite state' (by simpa using hflag) hleave
    · rw [if_neg hflag]
      exact hs

theorem keeps_updateReplied : Keeps (Leaving g d p) (updateReplied d' p' g') :=
  keeps_updatePort fun _ _ hleave => hleave

/-- The flag of a LEAVE is written where it is down already. -/
theorem keeps_updateLeave : Keeps (Leaving g d p) (updateLeave d' p' g') := by
  refine keeps_updatePort fun state hdown hleave => ?_
  rw [hdown] at hleave
  cases hleave

theorem keeps_doReport : Keeps (Leaving g d p) (doReport dp p' g' ipSrc) :=
  keeps_reportQuerier.bind fun _ => keeps_reportGroup.bind fun _ => keeps_reportSwitch.bind
    fun _ => keeps_reportPort.bind fun _ => keeps_updateReplied.bind fun _ => keeps_updateLeave

theorem keeps_doLeave : Keeps (Leaving g d p) (doLeave d' p' g') := by
  intro s hs
  rw [doLeave, exec_bind_of_ok (exec_get s)]
  cases hstate : s.groups.port? g' d' p' with
  | none => exact hs
  | some state =>
    refine Keeps.after ⟨hs.left.setPort fun _ _ _ => rfl, hs.timer⟩ fun _ => ?_
    refine (Keeps.ofOption _ _).bind fun querier => (Keeps.ofOption _ _).bind fun hwAddr => ?_
    refine (keeps_message _).bind fun _ => Keeps.modify fun t ht => ⟨ht.left, ?_⟩
    exact List.mem_append_left _ ht.timer

theorem keeps_delQuerierGroup : Keeps (Leaving g d p) (delQuerierGroup g' d') := by
  unfold delQuerierGroup
  refine Keeps.get.bind fun r => (Keeps.ofOption _ _).bind fun querier => ?_
  exact Keeps.ite (Keeps.modify fun s hs => ⟨hs.left, hs.timer⟩) (Keeps.throw _)

/-- The timer of another port, or of another group. -/
theorem keeps_doTimeoutForLeave (hne : (d', g', p') ≠ (d, g, p)) :
    Keeps (Leaving g d p) (doTimeoutForLeave (d', g', p')) := by
  intro s hs
  rw [doTimeoutForLeave, exec_bind_of_ok (exec_get s)]
  cases hstate : s.groups.port? g' d' p' with
  | none => exact hs
  | some state =>
    rw [ofOption_some, exec_bind_of_ok (exec_pure _ _)]
    refine Keeps.ite (I := Leaving g d p) ?_ (Keeps.pure _) s hs
    refine (keeps_message _).bind fun _ => (keeps_sendEvent _).bind fun _ => ?_
    have hdrop : ∀ u, LeftIn u g d p → LeftIn (u.dropPort g' d' p') g d p := by
      refine fun u hu => hu.dropPort ?_
      rintro ⟨rfl, rfl, rfl⟩
      exact hne rfl
    refine (Keeps.modify fun t ht => ⟨hdrop _ ht.left, ht.timer⟩).bind fun _ => ?_
    · intro t ht
      rw [exec_bind_of_ok (exec_get t)]
      by_cases hempty : (t.groups.switches g').isEmpty = true
      · rw [if_pos hempty]
        exact Keeps.after ⟨ht.left.del hempty, ht.timer⟩ fun _ =>
          keeps_delQuerierGroup.bind fun _ => keeps_sendEvent _
      · rw [if_neg hempty]
        exact ht

theorem keeps_sendGeneralQuery : Keeps (Leaving g d p) sendGeneralQuery := by
  refine (Keeps.modify fun s hs => ⟨?_, hs.timer⟩).bind fun _ => Keeps.get.bind fun _ =>
    Keeps.forM fun querier _ => keeps_message _
  obtain ⟨state, hstate, hleave⟩ := hs.left
  refine ⟨{ state with replied := false }, ?_, hleave⟩
  change (resetReplied s.groups).port? g d p = _
  rw [port?_resetReplied, hstate]
  rfl

/-- Whatever happens before the timer and the end of a query round, the flag stays up. -/
theorem leaving_step (hs : Leaving g d p s) (he : Between g d p e) : Leaving g d p (step s e) := by
  cases e with
  | packetIn dp p' msgtype g' ipSrc =>
    rcases step_packetIn_cases (s := s) dp p' msgtype g' ipSrc with h | ⟨-, h | h⟩ <;> rw [h]
    · exact hs
    · exact keeps_doReport s hs
    · exact keeps_doLeave s hs
  | leaveTimeout timer =>
    obtain ⟨d', g', p'⟩ := timer
    have hne : (d', g', p') ≠ (d, g, p) := by
      intro heq
      exact he.2 (by rw [heq])
    rw [step, handle, exec_bind_of_ok (exec_get s)]
    by_cases htimer : (d', g', p') ∈ s.timers
    · rw [if_pos htimer]
      refine Keeps.after ⟨hs.left, ?_⟩ fun _ => keeps_doTimeoutForLeave hne
      exact (List.mem_erase_of_ne hne.symm).mpr hs.timer
    · rw [if_neg htimer]
      exact hs
  | sendGeneralQuery => exact keeps_sendGeneralQuery s hs
  | expireQuery => exact absurd rfl he.1

theorem leaving_run (hs : Leaving g d p s) (hes : ∀ e ∈ es, Between g d p e) :
    Leaving g d p (Machine.run step s es) := by
  induction es generalizing s with
  | nil => exact hs
  | cons e es ih =>
    exact ih (leaving_step hs (hes e (by simp))) fun e he => hes e (by simp [he])

/-- A LEAVE of a member raises the flag and starts the timer. -/
theorem leaving_of_leave (hs : s.Sound) (hmember : s.groups.Member g dp.id p)
    (hknown : ∃ querier, s.queriers.get? dp.id = some querier ∧ p ∈ querier.datapath.ports) :
    Leaving g dp.id p (step s (.packetIn dp p .leave g ipSrc)) := by
  obtain ⟨state, hstate⟩ := hmember
  obtain ⟨querier, hquerier, hport⟩ := hknown
  obtain ⟨hwAddr, hhw⟩ := Dict.mem_iff_get?.mp hport
  have hid : querier.datapath.id = dp.id := hs.keyed dp.id querier.datapath (by
    rw [datapathOf, hquerier]
    rfl)
  rw [step, handle]
  unfold packetInHandler
  rw [exec_bind_of_ok (exec_get s), if_pos (Dict.mem_iff_get?.mpr ⟨querier, hquerier⟩)]
  change Leaving g dp.id p ((doLeave dp.id p g).exec s).2
  rw [doLeave, exec_bind_of_ok (exec_get s), hstate]
  dsimp only
  rw [exec_bind_of_ok (exec_modify _ _), hquerier, ofOption_some,
    exec_bind_of_ok (exec_pure _ _), hhw, ofOption_some, exec_bind_of_ok (exec_pure _ _), send,
    exec_bind_of_ok (exec_modify _ _), exec_modify, hid]
  refine ⟨⟨{ state with leave := true }, ?_, rfl⟩,
    List.mem_append_right _ (List.mem_singleton_self _)⟩
  exact GroupTable.port?_setPort.trans (if_pos ⟨rfl, rfl, rfl⟩)

/-- The timer removes the port that its flag says has left. -/
theorem removed_of_leaving (hs : s.Sound) (h : Leaving g d p s) :
    ¬ (step s (.leaveTimeout (d, g, p))).groups.Member g d p ∧
      (flowMods d p g (step s (.leaveTimeout (d, g, p))).sent).getLast? = some false := by
  obtain ⟨⟨state, hstate, hleave⟩, htimer⟩ := h
  have ht := (removed_leaveTimeout hs htimer hstate hleave).1
  refine ⟨fun hmember => ((ht.member g d p).mp hmember).2 ⟨rfl, rfl, rfl⟩, ?_⟩
  rw [ht.sent, flowMods_append]
  simp [flowMods]

/-- A LEAVE, a REPORT for the group from the same port before the timer ends, and the end of the
timer, with other events between them. -/
inductive LeaveThenReport (dp : Datapath) (p : ℕ) (g : String) : List Event → Prop
  | intro {before after : List Event} {version : IgmpType} {leaver reporter : String}
    (hversion : version ∈ [IgmpType.reportV1, .reportV2, .reportV3])
    (hbefore : ∀ e ∈ before, Between g dp.id p e) (hafter : ∀ e ∈ after, Between g dp.id p e) :
    LeaveThenReport dp p g (.packetIn dp p .leave g leaver :: before ++
      .packetIn dp p version g reporter :: after ++ [.leaveTimeout (dp.id, g, p)])

/-- In every run: a member port that leaves and reports again is removed by the leave timer, and
the last thing that its switch hears about its flow entry is that it is deleted. -/
theorem report_never_cancels_leave (switches : List (SwitchAttribute × Datapath))
    (history : List Event)
    (hmember : (Machine.run step (init switches) history).groups.Member g dp.id p)
    (hknown : ∃ querier, (Machine.run step (init switches) history).queriers.get? dp.id =
      some querier ∧ p ∈ querier.datapath.ports) (hes : LeaveThenReport dp p g es) :
    ¬ (Machine.run step (init switches) (history ++ es)).groups.Member g dp.id p ∧
      (flowMods dp.id p g (Machine.run step (init switches) (history ++ es)).sent).getLast? =
        some false := by
  cases hes with
  | @intro before after version leaver reporter _ hbefore hafter =>
    have hbetween : ∀ e ∈ before ++ .packetIn dp p version g reporter :: after,
        Between g dp.id p e := by
      intro e he
      rcases List.mem_append.mp he with he | he
      · exact hbefore e he
      · rcases List.mem_cons.mp he with rfl | he
        · exact ⟨nofun, nofun⟩
        · exact hafter e he
    have hleft : Leaving g dp.id p
        (step (Machine.run step (init switches) history) (.packetIn dp p .leave g leaver)) :=
      leaving_of_leave (sound_run switches history) hmember hknown
    have hstill := leaving_run hleft hbetween
    have hsound := sound_run switches (history ++ .packetIn dp p .leave g leaver ::
      (before ++ .packetIn dp p version g reporter :: after))
    rw [Machine.run_append, Machine.run_cons] at hsound
    rw [Machine.run_append, Machine.run_append]
    exact removed_of_leaving hsound hstill

/-- Another receiver behind the port answers the query that the LEAVE has caused. -/
def secondReceiver : List Event :=
  [.packetIn edgeDatapath 1 .leave "239.1.1.1" "10.0.0.1",
    .packetIn edgeDatapath 1 .reportV2 "239.1.1.1" "10.0.0.2",
    .leaveTimeout (1, "239.1.1.1", 1)]

/-- The first receiver joins. -/
def firstReceiver : List Event := [.packetIn edgeDatapath 1 .reportV2 "239.1.1.1" "10.0.0.1"]

theorem secondReceiver_leaveThenReport :
    LeaveThenReport edgeDatapath 1 "239.1.1.1" secondReceiver :=
  @LeaveThenReport.intro edgeDatapath 1 "239.1.1.1" [] [] _ _ _ (by decide) nofun nofun

theorem member_firstReceiver : (Machine.run step (init [(.edge, edgeDatapath)])
    firstReceiver).groups.Member "239.1.1.1" 1 1 := ⟨{}, by decide +kernel⟩

theorem known_firstReceiver : ∃ querier, (Machine.run step (init [(.edge, edgeDatapath)])
    firstReceiver).queriers.get? 1 = some querier ∧ 1 ∈ querier.datapath.ports := by
  have hport : ((Machine.run step (init [(.edge, edgeDatapath)]) firstReceiver).queriers.get? 1).map
      (fun querier => decide (1 ∈ querier.datapath.ports)) = some true := by decide +kernel
  obtain ⟨querier, hquerier, hmem⟩ := Option.map_eq_some_iff.mp hport
  exact ⟨querier, hquerier, of_decide_eq_true hmem⟩

theorem report_never_cancels_leave_second :
    ¬ (Machine.run step (init [(.edge, edgeDatapath)])
        (firstReceiver ++ secondReceiver)).groups.Member "239.1.1.1" 1 1 ∧
      (flowMods 1 1 "239.1.1.1" (Machine.run step (init [(.edge, edgeDatapath)])
        (firstReceiver ++ secondReceiver)).sent).getLast? = some false :=
  report_never_cancels_leave _ _ member_firstReceiver known_firstReceiver
    secondReceiver_leaveThenReport

/-- The port loses the group, although somebody behind it has answered. -/
theorem answered_leave_removes : ¬ ∀ (switches : List (SwitchAttribute × Datapath))
    (history es : List Event) (dp : Datapath) (p : ℕ) (g : String),
    (Machine.run step (init switches) history).groups.Member g dp.id p →
    (∃ querier, (Machine.run step (init switches) history).queriers.get? dp.id = some querier ∧
      p ∈ querier.datapath.ports) → LeaveThenReport dp p g es →
    (Machine.run step (init switches) (history ++ es)).groups.Member g dp.id p ∧
      Installed (Machine.run step (init switches) (history ++ es)) dp.id p g := by
  intro h
  obtain ⟨state, hstate⟩ := (h [(.edge, edgeDatapath)] firstReceiver secondReceiver edgeDatapath 1
    "239.1.1.1" member_firstReceiver known_firstReceiver secondReceiver_leaveThenReport).1
  have hnone : (Machine.run step (init [(.edge, edgeDatapath)])
      (firstReceiver ++ secondReceiver)).groups.port? "239.1.1.1" edgeDatapath.id 1 = none := by
    decide +kernel
  rw [hnone] at hstate
  cases hstate

end SDRoute.IgmpVirtualQuerier
