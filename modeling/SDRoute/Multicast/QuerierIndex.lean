import SDRoute.Multicast.LeaveCancel

/-! The groups that the querier of a switch keeps, and those that have the switch: a record is
deleted only with its group. -/
namespace SDRoute.IgmpVirtualQuerier
open Py

variable {s t : IgmpVirtualQuerier} {g : String} {d p : ℕ} {e : Event}

/-- Every group that a querier keeps has its switch. -/
def Mirrored (s : IgmpVirtualQuerier) : Prop :=
  ∀ d g, Recorded s.queriers d g → d ∈ s.groups.switches g

def Replied (t : GroupTable) (g : String) (d p : ℕ) : Prop :=
  ∃ state, t.port? g d p = some state ∧ state.replied = true

/-- A switch loses its last member of a group only with the group: the member that leaves is not
the last one of its switch or is on the last switch, and a switch of which no member replied is
in a group of which no member replied. -/
def Together (s : IgmpVirtualQuerier) : Event → Prop
  | .leaveTimeout (d, g, p) => Leaving g d p s →
      (∃ p', p' ≠ p ∧ s.groups.Member g d p') ∨ ∀ d' ∈ s.groups.switches g, d' = d
  | .expireQuery => ∀ g, ∀ d ∈ s.groups.switches g,
      (∃ p, Replied s.groups g d p) ∨ ∀ d' p, ¬ Replied s.groups g d' p
  | _ => True

/-- What is left of a group keeps its switches. -/
def SwitchesStay (s t : IgmpVirtualQuerier) : Prop :=
  ∀ g, g ∈ t.groups → ∀ d ∈ s.groups.switches g, d ∈ t.groups.switches g

theorem mirrored_iff_stay (hs : s.Sound) (hmirrored : s.Mirrored) (hforgets : Forgets s t)
    (hrecorded : ∀ d g, g ∈ t.groups → Recorded s.queriers d g → Recorded t.queriers d g) :
    t.Mirrored ↔ SwitchesStay s t := by
  constructor
  · intro h g hg d hd
    exact h d g (hrecorded d g hg (hs.recorded g d hd))
  · intro h d g hrec
    obtain ⟨hold, hkept⟩ := hforgets d g hrec
    have hd := hmirrored d g hold
    exact h g (hkept hd) d hd

theorem Quiet.mirrored (h : Quiet s t) (hs : s.Sound) (hmirrored : s.Mirrored) : t.Mirrored := by
  intro d g hrec
  rw [h.queriers] at hrec
  obtain ⟨p, hp⟩ := hs.pruned.mem_switches_iff.mp (hmirrored d g hrec)
  exact h.pruned.mem_switches_iff.mpr ⟨p, (h.member g d p).mpr hp⟩

theorem Reported.mirrored {ipSrc : String} (h : Reported s t d p g ipSrc) (hs : s.Sound)
    (hmirrored : s.Mirrored) : t.Mirrored := by
  intro d' g' hrec
  rw [h.pruned.mem_switches_iff]
  rcases (h.recorded d' g').mp hrec with hold | ⟨rfl, rfl⟩
  · obtain ⟨p', hp⟩ := hs.pruned.mem_switches_iff.mp (hmirrored d' g' hold)
    exact ⟨p', (h.member g' d' p').mpr (.inl hp)⟩
  · exact ⟨p, (h.member g' d' p).mpr (.inr ⟨rfl, rfl, rfl⟩)⟩

theorem Removed.stay_iff (h : Removed s t d p g) (hs : s.Sound) (hp : s.groups.Member g d p) :
    SwitchesStay s t ↔
      (∃ p', p' ≠ p ∧ s.groups.Member g d p') ∨ ∀ d' ∈ s.groups.switches g, d' = d := by
  constructor
  · intro hstay
    by_contra hnot
    push Not at hnot
    obtain ⟨hlast, d', hd', hne⟩ := hnot
    obtain ⟨p', hp'⟩ := hs.pruned.mem_switches_iff.mp hd'
    have hother : t.groups.Member g d' p' := (h.member g d' p').mpr ⟨hp', fun h => hne h.2.1⟩
    have hg : g ∈ t.groups := h.pruned.mem_iff.mpr ⟨d', p', hother⟩
    obtain ⟨q, hq⟩ := h.pruned.mem_switches_iff.mp
      (hstay g hg d (GroupTable.mem_switches_of_member hp))
    obtain ⟨hq, hqp⟩ := (h.member g d q).mp hq
    exact hlast q (fun heq => hqp ⟨rfl, rfl, heq⟩) hq
  · intro hwith g' hg' d' hd'
    rw [h.pruned.mem_switches_iff]
    obtain ⟨p', hp'⟩ := hs.pruned.mem_switches_iff.mp hd'
    by_cases hsame : g' = g ∧ d' = d ∧ p' = p
    · obtain ⟨rfl, rfl, rfl⟩ := hsame
      rcases hwith with ⟨q, hne, hq⟩ | hlast
      · exact ⟨q, (h.member g' d' q).mpr ⟨hq, fun h => hne h.2.2⟩⟩
      · obtain ⟨d, q, hq⟩ := h.pruned.mem_iff.mp hg'
        obtain rfl := hlast d (GroupTable.mem_switches_of_member ((h.member g' d q).mp hq).1)
        exact ⟨q, hq⟩
    · exact ⟨p', (h.member g' d' p').mpr ⟨hp', hsame⟩⟩

theorem Expired.stay_iff (h : Expired s t) : SwitchesStay s t ↔ Together s .expireQuery := by
  constructor
  · intro hstay g d hd
    by_contra hnot
    push Not at hnot
    obtain ⟨hsilent, d', p', hp'⟩ := hnot
    have hg : g ∈ t.groups := h.pruned.mem_iff.mpr ⟨d', p', (h.member g d' p').mpr hp'⟩
    obtain ⟨q, hq⟩ := h.pruned.mem_switches_iff.mp (hstay g hg d hd)
    exact hsilent q ((h.member g d q).mp hq)
  · intro htogether g hg d hd
    rw [h.pruned.mem_switches_iff]
    rcases htogether g d hd with ⟨q, hq⟩ | hnone
    · exact ⟨q, (h.member g d q).mpr hq⟩
    · obtain ⟨d', p', hp'⟩ := h.pruned.mem_iff.mp hg
      exact absurd ((h.member g d' p').mp hp') (hnone d' p')

theorem mirrored_step_iff (hs : s.Sound) (hmirrored : s.Mirrored) (e : Event) :
    (step s e).Mirrored ↔ Together s e := by
  cases e with
  | packetIn dp p msgtype g ipSrc =>
    refine iff_of_true ?_ trivial
    rcases packetIn_cases hs dp p msgtype g ipSrc with h | h
    · exact h.mirrored hs hmirrored
    · exact h.mirrored hs hmirrored
  | leaveTimeout timer =>
    obtain ⟨d, g, p⟩ := timer
    by_cases hleaving : Leaving g d p s
    · obtain ⟨⟨state, hp, hleave⟩, htimer⟩ := hleaving
      obtain ⟨ht, hforgets⟩ := removed_leaveTimeout hs htimer hp hleave
      rw [mirrored_iff_stay hs hmirrored hforgets ht.recorded, ht.stay_iff hs ⟨state, hp⟩, Together,
        forall_prop_of_true ⟨⟨state, hp, hleave⟩, htimer⟩]
    · refine iff_of_true (Quiet.mirrored (quiet_leaveTimeout hs fun htimer state hp => ?_) hs
        hmirrored) fun h => absurd h hleaving
      rw [← Bool.not_eq_true]
      exact fun hleave => hleaving ⟨⟨state, hp, hleave⟩, htimer⟩
  | sendGeneralQuery =>
    exact iff_of_true ((quiet_sendGeneralQuery hs).mirrored hs hmirrored) trivial
  | expireQuery =>
    obtain ⟨t, hexec, ht, hforgets⟩ := exec_expireQuery hs
    rw [step, handle, hexec, ← ht.stay_iff]
    exact mirrored_iff_stay hs hmirrored hforgets ht.recorded

theorem keeps_addQuerier_unrecorded (sw : SwitchAttribute × Datapath) :
    Keeps (fun s => ∀ d g, ¬ Recorded s.queriers d g) (addQuerier sw) := by
  refine keeps_addQuerier sw fun s hwAddr hs => ?_
  rintro d g ⟨querier, hquerier, hg⟩
  change (s.queriers.set sw.2.id _).get? d = some querier at hquerier
  rw [Dict.get?_set] at hquerier
  split at hquerier
  · cases hquerier
    cases hg
  · exact hs d g ⟨querier, hquerier, hg⟩

theorem mirrored_init (switches : List (SwitchAttribute × Datapath)) :
    (init switches).Mirrored := by
  have hkeeps : Keeps _ (switches.forM addQuerier) :=
    Keeps.forM fun sw _ => keeps_addQuerier_unrecorded sw
  have hnone := hkeeps {} (by
    rintro d g ⟨querier, h, -⟩
    cases h)
  exact fun d g h => absurd h (hnone d g)

/-- The records are those of the members throughout a run exactly if no switch loses its last
member of a group that stays. -/
theorem mirrored_iff_together (switches : List (SwitchAttribute × Datapath)) (es : List Event) :
    (∀ fs, fs <+: es → (Machine.run step (init switches) fs).Mirrored) ↔
      Machine.Admits step Together (init switches) es := by
  rw [← Machine.forall_prefix_iff_admits (I := fun _ s => Sound s ∧ Mirrored s)
    ⟨(fresh_init switches).sound, mirrored_init switches⟩ fun _ s e hs => ?_]
  · simp only [sound_run, true_and]
  · rw [← mirrored_step_iff hs.1 hs.2 e, and_iff_right (sound_step hs.1 e)]

/-- The access switch of a second group of hosts. -/
def secondDatapath : Datapath := { edgeDatapath with id := 2 }

/-- Hosts of two switches join, and the one of the first switch leaves. -/
def oneLeaves : List Event :=
  [.packetIn edgeDatapath 1 .reportV2 "239.1.1.1" "10.0.0.1",
    .packetIn secondDatapath 1 .reportV2 "239.1.1.1" "10.0.0.2",
    .packetIn edgeDatapath 1 .leave "239.1.1.1" "10.0.0.1", .leaveTimeout (1, "239.1.1.1", 1)]

theorem record_outlives_members :
    ¬ ∀ fs, fs <+: oneLeaves → (Machine.run step
      (init [(.edge, edgeDatapath), (.edge, secondDatapath)]) fs).Mirrored := by
  intro h
  have hrecorded : Recorded (Machine.run step
      (init [(.edge, edgeDatapath), (.edge, secondDatapath)]) oneLeaves).queriers 1
        "239.1.1.1" := by
    refine ⟨_, rfl, ?_⟩
    decide +kernel
  have hd := h oneLeaves (List.prefix_refl _) 1 "239.1.1.1" hrecorded
  revert hd
  decide +kernel

end SDRoute.IgmpVirtualQuerier
