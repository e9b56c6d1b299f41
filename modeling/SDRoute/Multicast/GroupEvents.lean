import SDRoute.Lib.Machine
import SDRoute.Multicast.QueryRound

/-! The events about a multicast group tell whether it is in the table, in every run. -/
namespace SDRoute.IgmpVirtualQuerier
open Py

variable {s t : IgmpVirtualQuerier} {g g' ipSrc : String} {d p : ℕ} {e : Event} {present : Prop}
  {reasons : List ChangeReason}

/-- What a packet leads to, if it is no REPORT, changes nothing. -/
theorem packetIn_cases (hs : s.Sound) (dp : Datapath) (p : ℕ) (msgtype : IgmpType)
    (g ipSrc : String) : Quiet s (step s (.packetIn dp p msgtype g ipSrc)) ∨
      Reported s (step s (.packetIn dp p msgtype g ipSrc)) dp.id p g ipSrc := by
  rcases step_packetIn_cases (s := s) dp p msgtype g ipSrc with h | ⟨hd, h | h⟩ <;> rw [h]
  · exact .inl (.refl hs)
  · obtain ⟨⟨⟩, t, hexec, ht⟩ := (triple_doReport hs hd).returns rfl
    rw [hexec]
    exact .inr ht
  · exact .inl (quiet_doLeave hs)

theorem Sound.erase (hs : s.Sound) (timer : LeaveTimer) :
    Sound { s with timers := s.timers.erase timer } := ⟨hs.keyed, hs.pruned, hs.recorded⟩

theorem quiet_leaveTimeout (hs : s.Sound) (h : (d, g, p) ∈ s.timers →
    ∀ state, s.groups.port? g d p = some state → state.leave = false) :
    Quiet s (step s (.leaveTimeout (d, g, p))) := by
  rw [step, handle, exec_bind_of_ok (exec_get s)]
  by_cases htimer : (d, g, p) ∈ s.timers
  · rw [if_pos htimer, exec_bind_of_ok (exec_modify _ _)]
    have hquiet : Quiet s { s with timers := s.timers.erase (d, g, p) } :=
      ⟨rfl, hs.pruned, fun _ _ _ => Iff.rfl, rfl, fun _ _ _ => rfl⟩
    cases hp : s.groups.port? g d p with
    | none =>
      rw [exec_doTimeoutForLeave_of_none (by exact hp)]
      exact hquiet
    | some state =>
      rw [exec_doTimeoutForLeave_of_stays (by exact hp) (h htimer state hp)]
      exact hquiet
  · rw [if_neg htimer]
    exact .refl hs

theorem removed_leaveTimeout (hs : s.Sound) (htimer : (d, g, p) ∈ s.timers) {state : GroupPort}
    (hp : s.groups.port? g d p = some state) (hleave : state.leave = true) :
    Removed s (step s (.leaveTimeout (d, g, p))) d p g ∧
      Forgets s (step s (.leaveTimeout (d, g, p))) := by
  obtain ⟨t, hexec, ht, hforgets⟩ :=
    exec_doTimeoutForLeave_of_leave (hs.erase (d, g, p)) hp hleave
  rw [step, handle, exec_bind_of_ok (exec_get s), if_pos htimer,
    exec_bind_of_ok (exec_modify _ _), hexec]
  exact ⟨⟨ht.datapaths, ht.recorded, ht.pruned, ht.member, ht.events, ht.sent⟩, hforgets⟩

/-- A step of the querier is quiet, a REPORT, the removal of a member that left or the end of
a query round. -/
theorem step_cases (hs : s.Sound) (e : Event) :
    Quiet s (step s e) ∨ (∃ d p g ipSrc, Reported s (step s e) d p g ipSrc) ∨
      (∃ d p g, s.groups.Member g d p ∧ Removed s (step s e) d p g) ∨
      e = .expireQuery ∧ Expired s (step s e) := by
  cases e with
  | packetIn dp p msgtype g ipSrc =>
    rcases packetIn_cases hs dp p msgtype g ipSrc with h | h
    · exact .inl h
    · exact .inr (.inl ⟨dp.id, p, g, ipSrc, h⟩)
  | leaveTimeout timer =>
    obtain ⟨d, g, p⟩ := timer
    by_cases h : (d, g, p) ∈ s.timers → ∀ state, s.groups.port? g d p = some state →
        state.leave = false
    · exact .inl (quiet_leaveTimeout hs h)
    · push Not at h
      obtain ⟨htimer, state, hp, hleave⟩ := h
      have ht := removed_leaveTimeout hs htimer hp (eq_true_of_ne_false hleave)
      exact .inr (.inr (.inl ⟨d, p, g, ⟨state, hp⟩, ht.1⟩))
  | sendGeneralQuery => exact .inl (quiet_sendGeneralQuery hs)
  | expireQuery =>
    obtain ⟨t, hexec, ht, -⟩ := exec_expireQuery hs
    rw [step, handle, hexec]
    exact .inr (.inr (.inr ⟨rfl, ht⟩))

theorem Reported.sound (h : Reported s t d p g ipSrc) (hs : s.Sound) : t.Sound where
  keyed d' dp hdp := hs.keyed d' dp (h.datapaths d' ▸ hdp)
  pruned := h.pruned
  recorded g' d' hd := by
    obtain ⟨p', hp⟩ := h.pruned.mem_switches_iff.mp hd
    rw [h.recorded]
    rcases (h.member g' d' p').mp hp with hp | ⟨rfl, rfl, -⟩
    · exact .inl (hs.recorded g' d' (GroupTable.mem_switches_of_member hp))
    · exact .inr ⟨rfl, rfl⟩

theorem sound_of_less (hs : s.Sound)
    (hdatapaths : ∀ d, datapathOf t.queriers d = datapathOf s.queriers d)
    (hrecorded : ∀ d g, g ∈ t.groups → Recorded s.queriers d g → Recorded t.queriers d g)
    (hpruned : t.groups.Pruned)
    (hmember : ∀ g d p, t.groups.Member g d p → s.groups.Member g d p) : t.Sound where
  keyed d dp hdp := hs.keyed d dp (hdatapaths d ▸ hdp)
  pruned := hpruned
  recorded g d hd := by
    obtain ⟨p, hp⟩ := hpruned.mem_switches_iff.mp hd
    refine hrecorded d g (GroupTable.mem_of_mem_switches hd) (hs.recorded g d ?_)
    exact GroupTable.mem_switches_of_member (hmember g d p hp)

theorem sound_step (hs : s.Sound) (e : Event) : (step s e).Sound := by
  rcases step_cases hs e with h | ⟨d, p, g, ipSrc, h⟩ | ⟨d, p, g, -, h⟩ | ⟨-, h⟩
  · exact sound_of_less hs (fun _ => by rw [h.queriers]) (fun _ _ _ => h.queriers ▸ id)
      h.pruned fun g d p => (h.member g d p).mp
  · exact h.sound hs
  · exact sound_of_less hs h.datapaths h.recorded h.pruned
      fun g d p hp => ((h.member g d p).mp hp).1
  · exact sound_of_less hs h.datapaths h.recorded h.pruned
      fun g d p hp => ((h.member g d p).mp hp).imp fun _ => And.left

/-- Additions and removals alternate, and the last of them tells. -/
structure Tracked (reasons : List ChangeReason) (present : Prop) : Prop where
  starts : ∀ r ∈ reasons.head?, r = .groupAdded
  alternates : reasons.IsChain (· ≠ ·)
  last : present ↔ reasons.getLast? = some .groupAdded

theorem Tracked.added (h : Tracked reasons present) (hp : ¬ present) :
    Tracked (reasons ++ [.groupAdded]) True := by
  constructor
  · intro r hr
    cases reasons with
    | nil => simpa using hr.symm
    | cons first reasons => exact h.starts r hr
  · refine List.isChain_append.mpr ⟨h.alternates, List.isChain_singleton _, ?_⟩
    intro r hr r' hr'
    obtain rfl : .groupAdded = r' := by simpa using hr'
    rintro rfl
    exact hp (h.last.mpr hr)
  · simp

theorem Tracked.removed (h : Tracked reasons present) (hp : present) :
    Tracked (reasons ++ [.groupRemoved]) False := by
  have hlast := h.last.mp hp
  constructor
  · intro r hr
    cases reasons with
    | nil => cases hlast
    | cons first reasons => exact h.starts r hr
  · refine List.isChain_append.mpr ⟨h.alternates, List.isChain_singleton _, ?_⟩
    intro r hr r' hr'
    obtain rfl : .groupRemoved = r' := by simpa using hr'
    rintro rfl
    rw [hlast] at hr
    cases hr
  · simp

/-- The events of a step tell the change that it made. -/
theorem Tracked.change {p q : Prop} [Decidable p] [Decidable q] (h : Tracked reasons p) :
    Tracked (reasons ++ if p ↔ q then [] else [if q then .groupAdded else .groupRemoved]) q := by
  by_cases hp : p <;> by_cases hq : q <;> simp only [hp, hq, if_true, if_false, iff_self,
    iff_true, iff_false, not_true, List.append_nil]
  · simpa [hp] using h
  · exact h.removed hp
  · exact h.added hp
  · simpa [hp] using h

/-- The events of every group are right. -/
def Told (s : IgmpVirtualQuerier) : Prop :=
  ∀ g, Tracked (groupEvents g s.events) (g ∈ s.groups)

/-- The new events tell which groups were added and which were removed. -/
def Tells (s t : IgmpVirtualQuerier) : Prop :=
  ∀ g, groupEvents g t.events = groupEvents g s.events ++
    if g ∈ s.groups ↔ g ∈ t.groups then []
    else [if g ∈ t.groups then .groupAdded else .groupRemoved]

theorem Told.change (hs : s.Told) (h : Tells s t) : t.Told := by
  intro g
  rw [h]
  exact (hs g).change

theorem Quiet.tells (h : Quiet s t) (hs : s.Sound) : Tells s t := by
  intro g
  have hg : g ∈ s.groups ↔ g ∈ t.groups := by
    rw [hs.pruned.mem_iff, h.pruned.mem_iff]
    simp only [h.member]
  rw [h.events, if_pos hg, List.append_nil]

theorem Reported.tells (h : Reported s t d p g' ipSrc) (hs : s.Sound) : Tells s t := by
  intro g
  have hg : g ∈ t.groups ↔ g ∈ s.groups ∨ g = g' := by
    rw [hs.pruned.mem_iff, h.pruned.mem_iff]
    simp only [h.member]
    constructor
    · rintro ⟨d', p', hp | ⟨rfl, -, -⟩⟩
      · exact .inl ⟨d', p', hp⟩
      · exact .inr rfl
    · rintro (⟨d', p', hp⟩ | rfl)
      · exact ⟨d', p', .inl hp⟩
      · exact ⟨d, p, .inr ⟨rfl, rfl, rfl⟩⟩
  rw [h.events, groupEvents_append, groupEvents_append]
  have hchanged : groupEvents g (if s.groups.port? g' d p = none then
      [{ reason := .memberChanged, address := g', dst := some ipSrc }] else []) = [] := by
    split
    · simp [groupEvents_singleton]
    · rfl
  rw [hchanged, List.append_nil]
  by_cases hsame : g = g'
  · subst g'
    by_cases hin : g ∈ s.groups <;> simp [hin, hg, groupEvents]
  · by_cases hin : g' ∈ s.groups <;>
      simp [hin, hg, hsame, Ne.symm hsame, groupEvents]

theorem Removed.tells (h : Removed s t d p g') (hs : s.Sound) (hp : s.groups.Member g' d p) :
    Tells s t := by
  intro g
  have hg : g ∈ t.groups → g ∈ s.groups := by
    rw [hs.pruned.mem_iff, h.pruned.mem_iff]
    simp only [h.member]
    rintro ⟨d', p', hp', -⟩
    exact ⟨d', p', hp'⟩
  have hg' : g ≠ g' → g ∈ s.groups → g ∈ t.groups := by
    rw [hs.pruned.mem_iff, h.pruned.mem_iff]
    simp only [h.member]
    rintro hne ⟨d', p', hp'⟩
    exact ⟨d', p', hp', fun h => hne h.1⟩
  have hin : g' ∈ s.groups := hs.pruned.mem_iff.mpr ⟨d, p, hp⟩
  rw [h.events, groupEvents_append, groupEvents_append, groupEvents_singleton,
    if_neg (by simp), List.append_nil]
  by_cases hsame : g = g'
  · subst g'
    by_cases hout : g ∈ t.groups <;> simp [hin, hout, groupEvents]
  · have hiff : g ∈ s.groups ↔ g ∈ t.groups := ⟨hg' hsame, hg⟩
    rw [if_pos hiff]
    by_cases hout : g' ∈ t.groups <;> simp [hout, Ne.symm hsame, groupEvents]

theorem Expired.tells (h : Expired s t) (hs : s.Sound) : Tells s t := by
  intro g
  have hg : g ∈ t.groups → g ∈ s.groups := by
    rw [hs.pruned.mem_iff, h.pruned.mem_iff]
    simp only [h.member]
    rintro ⟨d, p, state, hstate, -⟩
    exact ⟨d, p, state, hstate⟩
  rw [h.events]
  by_cases hin : g ∈ s.groups <;> by_cases hout : g ∈ t.groups <;> simp_all

theorem told_step (hs : s.Sound) (ht : s.Told) (e : Event) : (step s e).Told := by
  refine ht.change ?_
  rcases step_cases hs e with h | ⟨d, p, g, ipSrc, h⟩ | ⟨d, p, g, hp, h⟩ | ⟨-, h⟩
  · exact h.tells hs
  · exact h.tells hs
  · exact h.tells hs hp
  · exact h.tells hs

/-- Before the first message the tables of the groups are empty. -/
structure Fresh (s : IgmpVirtualQuerier) : Prop where
  keyed : ∀ d dp, datapathOf s.queriers d = some dp → dp.id = d
  groups : s.groups = ∅
  events : s.events = []
  sent : s.sent = []
  timers : s.timers = []

theorem keeps_fresh_addQuerier (sw : SwitchAttribute × Datapath) :
    Keeps Fresh (addQuerier sw) := by
  refine keeps_addQuerier sw fun s hwAddr hs => ?_
  refine ⟨fun d dp hdp => ?_, hs.groups, hs.events, hs.sent, hs.timers⟩
  change Option.map Querier.datapath ((s.queriers.set sw.2.id _).get? d) = some dp at hdp
  rw [Dict.get?_set] at hdp
  split at hdp
  · subst d
    cases hdp
    rfl
  · exact hs.keyed d dp hdp

theorem fresh_init (switches : List (SwitchAttribute × Datapath)) : (init switches).Fresh := by
  refine Keeps.forM (fun sw _ => keeps_fresh_addQuerier sw) {} ?_
  refine ⟨fun d dp h => ?_, rfl, rfl, rfl, rfl⟩
  cases h

theorem Fresh.sound (hs : s.Fresh) : s.Sound where
  keyed := hs.keyed
  pruned := hs.groups ▸ .empty
  recorded g d hd := by
    rw [hs.groups] at hd
    cases hd

theorem Fresh.told (hs : s.Fresh) : s.Told := by
  intro g
  rw [hs.groups, hs.events]
  refine ⟨fun r hr => ?_, List.isChain_nil, ?_⟩
  · cases hr
  · refine iff_of_false (fun hg => ?_) (by simp [groupEvents])
    cases hg

theorem sound_run (switches : List (SwitchAttribute × Datapath)) (es : List Event) :
    (Machine.run step (init switches) es).Sound :=
  Machine.run_induction (fresh_init switches).sound fun _ e hs => sound_step hs e

theorem told_run (switches : List (SwitchAttribute × Datapath)) (es : List Event) :
    (Machine.run step (init switches) es).Told := by
  have hrun : (Machine.run step (init switches) es).Sound ∧
      (Machine.run step (init switches) es).Told := by
    refine Machine.run_induction (I := fun s => Sound s ∧ Told s) ?_ fun s e hs => ?_
    · exact ⟨(fresh_init switches).sound, (fresh_init switches).told⟩
    · exact ⟨sound_step hs.1 e, told_step hs.1 hs.2 e⟩
  exact hrun.2

/-- After every run the tables hold no group and no switch without a member, the additions and
removals of each group alternate and tell whether it is there, and every switch of a group
keeps it with its querier. -/
theorem group_events_track_groups (switches : List (SwitchAttribute × Datapath))
    (es : List Event) :
    (Machine.run step (init switches) es).groups.Pruned ∧
      (∀ g, Tracked (groupEvents g (Machine.run step (init switches) es).events)
        (g ∈ (Machine.run step (init switches) es).groups)) ∧
      ∀ g d, d ∈ (Machine.run step (init switches) es).groups.switches g →
        Recorded (Machine.run step (init switches) es).queriers d g := by
  have hsound := sound_run switches es
  exact ⟨hsound.pruned, told_run switches es, hsound.recorded⟩

end SDRoute.IgmpVirtualQuerier
