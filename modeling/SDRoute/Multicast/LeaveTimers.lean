import SDRoute.Multicast.FlowEntries

/-! When the steps of the querier raise: a leave timer is not told that its port is gone. -/
namespace SDRoute.IgmpVirtualQuerier
open Py

variable {s t : IgmpVirtualQuerier} {g ipSrc : String} {d p : ℕ} {dp : Datapath} {e : Event}

/-- The step returns, and it changes no table if it is a timer whose port is gone. -/
def Safe (s : IgmpVirtualQuerier) (e : Event) : Prop :=
  (handle e).Returns s ∧
    ∀ d g p, e = .leaveTimeout (d, g, p) → ¬ s.groups.Member g d p →
      (step s e).groups = s.groups ∧ (step s e).queriers = s.queriers

/-- A leave timer that ends finds its port in the table, and a port from which a member leaves
is known to the switch. -/
def Present (s : IgmpVirtualQuerier) : Event → Prop
  | .leaveTimeout (d, g, p) => (d, g, p) ∈ s.timers → s.groups.Member g d p
  | .packetIn dp p .leave g _ => s.groups.Member g dp.id p →
      ∀ querier, s.queriers.get? dp.id = some querier → p ∈ querier.datapath.ports
  | _ => True

theorem returns_doLeave_iff : (doLeave d p g).Returns s ↔ (s.groups.Member g d p →
    ∃ querier, s.queriers.get? d = some querier ∧ p ∈ querier.datapath.ports) := by
  rw [Returns, doLeave, exec_bind_of_ok (exec_get s), GroupTable.Member]
  cases s.groups.port? g d p with
  | none =>
    refine iff_of_true ⟨_, s, rfl⟩ ?_
    rintro ⟨_, h⟩
    cases h
  | some state =>
    rw [exec_bind_of_ok (exec_modify _ _)]
    refine (ReturnsIff.ofOption_bind (fun querier _ => ReturnsIff.ofOption_bind fun hwAddr _ =>
      (ReturnsIff.modify _).bind fun _ => ReturnsIff.modify _) _).trans ?_
    simp [Dict.mem_iff_get?]

theorem returns_doTimeoutForLeave_iff (hs : s.Sound) :
    (doTimeoutForLeave (d, g, p)).Returns s ↔ s.groups.Member g d p := by
  constructor
  · rintro ⟨⟨⟩, t, h⟩
    by_contra hnot
    have hp : s.groups.port? g d p = none := by
      simpa [GroupTable.Member, Option.eq_none_iff_forall_ne_some] using hnot
    rw [exec_doTimeoutForLeave_of_none hp] at h
    cases h
  · rintro ⟨state, hstate⟩
    cases hleave : state.leave with
    | false => exact ⟨(), s, exec_doTimeoutForLeave_of_stays hstate hleave⟩
    | true =>
      obtain ⟨t, hexec, -⟩ := exec_doTimeoutForLeave_of_leave hs hstate hleave
      exact ⟨(), t, hexec⟩

theorem returns_sendGeneralQuery : sendGeneralQuery.Returns s := by
  rw [Returns, sendGeneralQuery, exec_bind_of_ok (exec_modify _ _), exec_bind_of_ok (exec_get _)]
  exact (ReturnsIff.forM (fun querier _ => ReturnsIff.modify _) _).mpr fun _ _ => trivial

theorem returns_handle_iff (hs : s.Sound) : (handle e).Returns s ↔ Present s e := by
  cases e with
  | packetIn dp p msgtype g ipSrc =>
    rw [handle]
    unfold packetInHandler
    rw [Returns, exec_bind_of_ok (exec_get s)]
    by_cases hd : dp.id ∈ s.queriers
    · rw [if_pos hd]
      cases msgtype with
      | reportV1 | reportV2 =>
        obtain ⟨⟨⟩, t, hexec, -⟩ := (triple_doReport hs hd).returns rfl
        exact iff_of_true ⟨(), t, hexec⟩ trivial
      | leave =>
        obtain ⟨querier, hquerier⟩ := Dict.mem_iff_get?.mp hd
        refine returns_doLeave_iff.trans ?_
        simp [Present, hquerier]
      | query | reportV3 | other => exact iff_of_true ⟨(), s, rfl⟩ trivial
    · rw [if_neg hd]
      refine iff_of_true ⟨(), s, rfl⟩ ?_
      cases msgtype with
      | leave =>
        intro _ querier hquerier
        exact absurd (Dict.mem_iff_get?.mpr ⟨querier, hquerier⟩) hd
      | _ => trivial
  | leaveTimeout timer =>
    obtain ⟨d, g, p⟩ := timer
    rw [handle, Returns, exec_bind_of_ok (exec_get s)]
    by_cases htimer : (d, g, p) ∈ s.timers
    · rw [if_pos htimer, exec_bind_of_ok (exec_modify _ _)]
      refine (returns_doTimeoutForLeave_iff (hs.erase (d, g, p))).trans ?_
      simp [Present, htimer]
    · rw [if_neg htimer]
      exact iff_of_true ⟨(), s, rfl⟩ fun h => absurd h htimer
  | sendGeneralQuery => exact iff_of_true returns_sendGeneralQuery trivial
  | expireQuery =>
    obtain ⟨t, hexec, -⟩ := exec_expireQuery hs
    exact iff_of_true ⟨(), t, hexec⟩ trivial

theorem safe_iff_present (hs : s.Sound) : Safe s e ↔ Present s e := by
  rw [Safe, returns_handle_iff hs, and_iff_left_of_imp]
  rintro h d g p rfl hnot
  by_cases htimer : (d, g, p) ∈ s.timers
  · exact absurd (h htimer) hnot
  · rw [step, handle, exec_bind_of_ok (exec_get s), if_neg htimer]
    exact ⟨rfl, rfl⟩

/-- No step of a run raises exactly if the timers that end find their ports, and the ports from
which members leave are known. -/
theorem safe_run_iff_present (switches : List (SwitchAttribute × Datapath)) (es : List Event) :
    (∀ fs e, fs ++ [e] <+: es → Safe (Machine.run step (init switches) fs) e) ↔
      Machine.Admits step Present (init switches) es :=
  Machine.forall_steps_iff_admits (fresh_init switches).sound (fun _ e hs _ => sound_step hs e)
    fun _ _ hs => safe_iff_present hs

/-- A member that leaves twice. -/
def leavesTwice : List Event :=
  [.packetIn edgeDatapath 1 .reportV2 "239.1.1.1" "10.0.0.1",
    .packetIn edgeDatapath 1 .leave "239.1.1.1" "10.0.0.1",
    .packetIn edgeDatapath 1 .leave "239.1.1.1" "10.0.0.1",
    .leaveTimeout (1, "239.1.1.1", 1), .leaveTimeout (1, "239.1.1.1", 1)]

theorem second_timer_raises :
    ¬ ∀ fs e, fs ++ [e] <+: leavesTwice →
      Safe (Machine.run step (init [(.edge, edgeDatapath)]) fs) e := by
  intro h
  obtain ⟨⟨⟨⟩, t, hexec⟩, -⟩ := h (leavesTwice.take 4) (.leaveTimeout (1, "239.1.1.1", 1))
    (List.prefix_refl leavesTwice)
  have herror : ((handle (.leaveTimeout (1, "239.1.1.1", 1))).exec
      (Machine.run step (init [(.edge, edgeDatapath)]) (leavesTwice.take 4))).1 =
        .error .keyError := by decide +kernel
  rw [hexec] at herror
  cases herror

end SDRoute.IgmpVirtualQuerier
