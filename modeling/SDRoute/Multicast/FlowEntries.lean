import SDRoute.Multicast.GroupEvents

/-! The flow entries that the querier has set at its switches against the members in its
table. -/
namespace SDRoute.IgmpVirtualQuerier
open Py

variable {s t : IgmpVirtualQuerier} {g g' ipSrc : String} {d d' p p' : ℕ}

/-- The flow entry of the port was set and not deleted since. -/
def Installed (s : IgmpVirtualQuerier) (d p : ℕ) (g : String) : Prop :=
  (flowMods d p g s.sent).getLast? = some true

def EntriesAgree (s : IgmpVirtualQuerier) : Prop :=
  ∀ d p g, Installed s d p g ↔ s.groups.Member g d p

/-- A query round that ends here was answered by every member. -/
def Answered (s : IgmpVirtualQuerier) (e : Event) : Prop :=
  e = .expireQuery → ∀ g d p state, s.groups.port? g d p = some state → state.replied = true

theorem flowMods_append {sent later : List QuerierMessage} :
    flowMods d p g (sent ++ later) = flowMods d p g sent ++ flowMods d p g later :=
  List.filterMap_append

/-- A message about another port or group is no flow entry of this one. -/
theorem flowMods_of_other {e : QuerierMessage}
    (he : e = .setFlowEntry d p g ∨ e = .delFlowEntry d p g)
    (hother : ¬ (g' = g ∧ d' = d ∧ p' = p)) : flowMods d' p' g' [e] = [] := by
  have hne : ¬ (d = d' ∧ p = p' ∧ g = g') :=
    fun h => hother ⟨h.2.2.symm, h.1.symm, h.2.1.symm⟩
  obtain rfl | rfl := he <;> simp [flowMods, hne]

theorem installed_of_set (h : t.sent = s.sent ++ [.setFlowEntry d p g]) :
    Installed t d' p' g' ↔ Installed s d' p' g' ∨ g' = g ∧ d' = d ∧ p' = p := by
  rw [Installed, h, flowMods_append]
  by_cases hsame : g' = g ∧ d' = d ∧ p' = p
  · obtain ⟨rfl, rfl, rfl⟩ := hsame
    simp [flowMods]
  · rw [flowMods_of_other (Or.inl rfl) hsame, List.append_nil, or_iff_left hsame]
    rfl

theorem installed_of_del (h : t.sent = s.sent ++ [.delFlowEntry d p g]) :
    Installed t d' p' g' ↔ Installed s d' p' g' ∧ ¬ (g' = g ∧ d' = d ∧ p' = p) := by
  rw [Installed, h, flowMods_append]
  by_cases hsame : g' = g ∧ d' = d ∧ p' = p
  · obtain ⟨rfl, rfl, rfl⟩ := hsame
    simp [flowMods]
  · rw [flowMods_of_other (Or.inr rfl) hsame, List.append_nil, and_iff_left hsame]
    rfl

theorem entriesAgree_step (hs : s.Sound) (hagree : s.EntriesAgree) {e : Event}
    (he : e ≠ .expireQuery) : (step s e).EntriesAgree := by
  intro d' p' g'
  rcases step_cases hs e with h | ⟨d, p, g, ipSrc, h⟩ | ⟨d, p, g, -, h⟩ | ⟨h, -⟩
  · rw [h.member, ← hagree, Installed, h.sent]
    rfl
  · rw [h.member, ← hagree]
    have hsent := h.sent
    split at hsent
    · exact installed_of_set hsent
    · rename_i hp
      obtain ⟨state, hstate⟩ := Option.ne_none_iff_exists'.mp hp
      rw [Installed, hsent, List.append_nil, ← Installed, or_iff_left_of_imp]
      rintro ⟨rfl, rfl, rfl⟩
      exact (hagree d' p' g').mpr ⟨state, hstate⟩
  · rw [h.member, ← hagree]
    exact installed_of_del h.sent
  · exact absurd h he

/-- Members that have not replied are deleted, their entries are not. -/
theorem entriesAgree_expireQuery_iff (hs : s.Sound) (hagree : s.EntriesAgree) :
    (step s .expireQuery).EntriesAgree ↔ Answered s .expireQuery := by
  obtain ⟨t, hexec, ht, -⟩ := exec_expireQuery hs
  rw [step, handle, hexec]
  have hinstalled : ∀ d p g, Installed t d p g ↔ s.groups.Member g d p := by
    intro d p g
    rw [Installed, ht.sent, ← hagree]
    rfl
  constructor
  · intro h _ g d p state hstate
    obtain ⟨state', hstate', hreplied⟩ := (ht.member g d p).mp
      ((h d p g).mp ((hinstalled d p g).mpr ⟨state, hstate⟩))
    rw [hstate] at hstate'
    cases hstate'
    exact hreplied
  · intro h d p g
    rw [hinstalled, ht.member]
    exact exists_congr fun state => (and_iff_left_of_imp (h rfl g d p state)).symm

theorem entriesAgree_step_iff (hs : s.Sound) (hagree : s.EntriesAgree) (e : Event) :
    (step s e).EntriesAgree ↔ Answered s e := by
  by_cases he : e = .expireQuery
  · subst he
    exact entriesAgree_expireQuery_iff hs hagree
  · exact iff_of_true (entriesAgree_step hs hagree he) fun h => absurd h he

theorem Fresh.entriesAgree (hs : s.Fresh) : s.EntriesAgree := by
  intro d p g
  rw [Installed, hs.sent, hs.groups]
  refine iff_of_false (by simp [flowMods]) ?_
  rintro ⟨state, h⟩
  cases h

/-- The entries are those of the members throughout a run exactly if every query round that ends
was answered by all members. -/
theorem entriesAgree_iff_answered (switches : List (SwitchAttribute × Datapath))
    (es : List Event) :
    (∀ fs, fs <+: es → (Machine.run step (init switches) fs).EntriesAgree) ↔
      Machine.Admits step Answered (init switches) es := by
  have hfresh := fresh_init switches
  rw [← Machine.forall_prefix_iff_admits (I := fun _ s => Sound s ∧ EntriesAgree s)
    ⟨hfresh.sound, hfresh.entriesAgree⟩ fun _ s e hs => ?_]
  · simp only [sound_run, true_and]
  · rw [← entriesAgree_step_iff hs.1 hs.2 e, and_iff_right (sound_step hs.1 e)]

/-- An access switch with one port to the hosts. -/
def edgeDatapath : Datapath where
  id := 1
  ports := (∅ : Dict ℕ String).set OFPP_LOCAL "02:00:00:00:00:01" |>.set 1 "02:00:00:00:00:02"

/-- A host joins and does not answer the next query. -/
def silentMember : List Event :=
  [.packetIn edgeDatapath 1 .reportV2 "239.1.1.1" "10.0.0.1", .sendGeneralQuery, .expireQuery]

theorem entry_outlives_member :
    ¬ ∀ fs, fs <+: silentMember →
      (Machine.run step (init [(.edge, edgeDatapath)]) fs).EntriesAgree := by
  intro h
  have hmember := (h silentMember (List.prefix_refl _) 1 1 "239.1.1.1").mp (by
    rw [Installed]
    decide +kernel)
  obtain ⟨state, hstate⟩ := hmember
  have hnone : (Machine.run step (init [(.edge, edgeDatapath)]) silentMember).groups.port?
      "239.1.1.1" 1 1 = none := by decide +kernel
  rw [hnone] at hstate
  cases hstate

end SDRoute.IgmpVirtualQuerier
