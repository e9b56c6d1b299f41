import SDRoute.Route.RouteTask

/-! The nested table of the multicast groups: reading and writing at a group, a switch and
a port. -/
namespace SDRoute.GroupTable

variable {t u : GroupTable} {g g' : String} {d d' p p' : ℕ} {state : GroupPort}
  {row : Dict ℕ GroupPort}

/-- The switches of a group, none if it is not in the table. -/
def switches (t : GroupTable) (g : String) : Dict ℕ (Dict ℕ GroupPort) := (t.get? g).getD ∅

def ports (t : GroupTable) (g : String) (d : ℕ) : Dict ℕ GroupPort :=
  ((t.switches g).get? d).getD ∅

def port? (t : GroupTable) (g : String) (d p : ℕ) : Option GroupPort := (t.ports g d).get? p

/-- Replaces the port table of a switch. -/
def setPorts (t : GroupTable) (g : String) (d : ℕ) (ports : Dict ℕ GroupPort) : GroupTable :=
  t.set g ((t.switches g).set d ports)

def setPort (t : GroupTable) (g : String) (d p : ℕ) (state : GroupPort) : GroupTable :=
  t.setPorts g d ((t.ports g d).set p state)

/-- Deletes a port, and the switch with its last port. -/
def dropPort (t : GroupTable) (g : String) (d p : ℕ) : GroupTable :=
  let row := (t.ports g d).del p
  if row.isEmpty then t.set g ((t.switches g).del d) else t.setPorts g d row

/-- The port is a member of the group. -/
def Member (t : GroupTable) (g : String) (d p : ℕ) : Prop := ∃ state, t.port? g d p = some state

/-- No group is left without a switch, and no switch of a group without a port. -/
structure Pruned (t : GroupTable) : Prop where
  switches : ∀ g ∈ t, ∃ d, d ∈ t.switches g
  ports : ∀ g d, d ∈ t.switches g → ∃ p, p ∈ t.ports g d

/-- Only the switch that gets a member may be empty still. -/
structure PrunedBut (t : GroupTable) (g : String) (d : ℕ) : Prop where
  switches : ∀ g' ∈ t, g' ≠ g → ∃ d', d' ∈ t.switches g'
  ports : ∀ g' d', d' ∈ t.switches g' → ¬ (g' = g ∧ d' = d) → ∃ p, p ∈ t.ports g' d'

theorem switches_set (v : Dict ℕ (Dict ℕ GroupPort)) :
    switches (t.set g v) g' = if g' = g then v else t.switches g' := by
  unfold switches
  rw [Dict.get?_set]
  split <;> rfl

theorem switches_setPorts : (t.setPorts g d row).switches g' =
    if g' = g then (t.switches g).set d row else t.switches g' := switches_set _

theorem mem_setPorts : g' ∈ t.setPorts g d row ↔ g' = g ∨ g' ∈ t := Dict.mem_set

theorem ports_setPorts : (t.setPorts g d row).ports g' d' =
    if g' = g ∧ d' = d then row else t.ports g' d' := by
  unfold GroupTable.ports
  rw [switches_setPorts]
  by_cases hg : g' = g
  · subst hg
    rw [if_pos rfl, Dict.get?_set]
    by_cases hd : d' = d <;> simp [hd]
  · simp [hg]

theorem port?_setPort : (t.setPort g d p state).port? g' d' p' =
    if g' = g ∧ d' = d ∧ p' = p then some state else t.port? g' d' p' := by
  unfold port? setPort
  rw [ports_setPorts]
  by_cases h : g' = g ∧ d' = d
  · obtain ⟨rfl, rfl⟩ := h
    simp [Dict.get?_set]
  · rw [if_neg h, if_neg fun h' => h ⟨h'.1, h'.2.1⟩]

theorem switches_del : switches (t.del g) g' = if g' = g then ∅ else t.switches g' := by
  unfold switches
  rw [Dict.get?_del]
  split <;> rfl

theorem switches_mapValues {f : Dict ℕ (Dict ℕ GroupPort) → Dict ℕ (Dict ℕ GroupPort)}
    (hf : f ∅ = ∅) : switches (t.mapValues f) g = f (t.switches g) := by
  rw [switches, Dict.get?_mapValues, switches]
  cases t.get? g with
  | none => exact hf.symm
  | some switches => rfl

theorem ports_dropPort : (t.dropPort g d p).ports g' d' =
    if g' = g ∧ d' = d then (t.ports g d).del p else t.ports g' d' := by
  rw [dropPort]
  split
  · rename_i hrow
    rw [GroupTable.ports, switches_set]
    by_cases hg : g' = g
    · subst hg
      rw [if_pos rfl, Dict.get?_del]
      by_cases hd : d' = d
      · subst hd
        simpa using (Dict.eq_empty_of_isEmpty hrow).symm
      · simp [hd, GroupTable.ports]
    · simp [hg, GroupTable.ports]
  · exact ports_setPorts

theorem mem_dropPort : g' ∈ t.dropPort g d p ↔ g' = g ∨ g' ∈ t := by
  rw [dropPort]
  split
  · exact Dict.mem_set
  · exact mem_setPorts

theorem switches_dropPort_ne (h : g' ≠ g) :
    (t.dropPort g d p).switches g' = t.switches g' := by
  rw [dropPort]
  split
  · rw [switches_set, if_neg h]
  · rw [switches_setPorts, if_neg h]

theorem ports_del : ports (t.del g) g' d = if g' = g then ∅ else t.ports g' d := by
  unfold ports
  rw [switches_del]
  split <;> rfl

theorem port?_dropPort : (t.dropPort g d p).port? g' d' p' =
    if g' = g ∧ d' = d ∧ p' = p then none else t.port? g' d' p' := by
  unfold port?
  rw [ports_dropPort]
  by_cases h : g' = g ∧ d' = d
  · obtain ⟨rfl, rfl⟩ := h
    simp [Dict.get?_del]
  · rw [if_neg h, if_neg fun h' => h ⟨h'.1, h'.2.1⟩]

theorem mem_switches_of_member (h : t.Member g d p) : d ∈ t.switches g := by
  obtain ⟨state, h⟩ := h
  rw [port?, ports] at h
  cases hd : (t.switches g).get? d with
  | none => simp [hd] at h
  | some ports => exact Dict.mem_iff_get?.mpr ⟨ports, hd⟩

theorem mem_of_mem_switches (h : d ∈ t.switches g) : g ∈ t := by
  rw [switches] at h
  cases hg : t.get? g with
  | none => simp [hg] at h
  | some switches => exact Dict.mem_iff_get?.mpr ⟨switches, hg⟩

theorem mem_ports : p ∈ t.ports g d ↔ t.Member g d p := Dict.mem_iff_get?

/-- An empty table for a group without switches says the same about members. -/
theorem switches_open (h : (t.switches g).isEmpty = true) :
    switches (t.set g ∅) g' = t.switches g' := by
  rw [switches_set]
  split
  · subst g'
    exact (Dict.eq_empty_of_isEmpty h).symm
  · rfl

theorem ports_openPorts (h : (t.ports g d).isEmpty = true) :
    (t.setPorts g d ∅).ports g' d' = t.ports g' d' := by
  rw [ports_setPorts]
  split
  · rename_i hsame
    obtain ⟨rfl, rfl⟩ := hsame
    exact (Dict.eq_empty_of_isEmpty h).symm
  · rfl

theorem PrunedBut.open (ht : t.PrunedBut g d) (h : (t.switches g).isEmpty = true) :
    PrunedBut (t.set g ∅) g d := by
  constructor
  · intro g' hg hne
    rw [switches_open h]
    exact ht.switches g' ((Dict.mem_set.mp hg).resolve_left hne) hne
  · intro g' d' hd hne
    rw [GroupTable.ports, switches_open h]
    rw [switches_open h] at hd
    exact ht.ports g' d' hd hne

theorem PrunedBut.openPorts (ht : t.PrunedBut g d) (h : (t.ports g d).isEmpty = true) :
    (t.setPorts g d ∅).PrunedBut g d := by
  constructor
  · intro g' hg hne
    rw [switches_setPorts, if_neg hne]
    exact ht.switches g' ((mem_setPorts.mp hg).resolve_left hne) hne
  · intro g' d' hd hne
    rw [ports_openPorts h]
    refine ht.ports g' d' ?_ hne
    rw [switches_setPorts] at hd
    split at hd
    · subst g'
      exact (Dict.mem_set.mp hd).resolve_left fun hd' => hne ⟨rfl, hd'⟩
    · exact hd

theorem PrunedBut.of_member (ht : t.PrunedBut g d) (h : t.Member g d p) : t.Pruned := by
  constructor
  · intro g' hg
    by_cases hne : g' = g
    · exact ⟨d, hne ▸ mem_switches_of_member h⟩
    · exact ht.switches g' hg hne
  · intro g' d' hd
    by_cases hne : g' = g ∧ d' = d
    · obtain ⟨rfl, rfl⟩ := hne
      exact ⟨p, mem_ports.mpr h⟩
    · exact ht.ports g' d' hd hne

theorem member_setPort : (t.setPort g d p state).Member g' d' p' ↔
    t.Member g' d' p' ∨ g' = g ∧ d' = d ∧ p' = p := by
  rw [Member, port?_setPort]
  split
  · simp [*]
  · rename_i hne
    simp [hne, Member]

theorem member_dropPort : (t.dropPort g d p).Member g' d' p' ↔
    t.Member g' d' p' ∧ ¬ (g' = g ∧ d' = d ∧ p' = p) := by
  rw [Member, port?_dropPort]
  split
  · simp [*]
  · rename_i hne
    simp [hne, Member]

theorem member_del (h : (t.switches g).isEmpty = true) :
    Member (t.del g) g' d' p' ↔ t.Member g' d' p' := by
  rw [Member, port?, ports_del]
  split
  · subst g'
    rw [Member, port?, ports, Dict.eq_empty_of_isEmpty h]
    rfl
  · rfl

theorem PrunedBut.setPort (h : t.PrunedBut g d) : (t.setPort g d p state).Pruned := by
  constructor
  · intro g' hg
    rw [GroupTable.setPort, switches_setPorts]
    split
    · exact ⟨d, Dict.mem_set.mpr (.inl rfl)⟩
    · rename_i hne
      exact h.switches g' ((mem_setPorts.mp hg).resolve_left hne) hne
  · intro g' d' hd
    rw [GroupTable.setPort, ports_setPorts]
    split
    · exact ⟨p, Dict.mem_set.mpr (.inl rfl)⟩
    · rename_i hne
      refine h.ports g' d' ?_ hne
      rw [GroupTable.setPort, switches_setPorts] at hd
      split at hd
      · rename_i hg
        subst hg
        exact (Dict.mem_set.mp hd).resolve_left fun hd' => hne ⟨rfl, hd'⟩
      · exact hd

namespace Pruned

theorem empty : Pruned ∅ := by
  constructor
  · intro g hg
    cases hg
  · intro g d hd
    cases hd

/-- Switches are there for their members. -/
theorem mem_switches_iff (h : t.Pruned) : d ∈ t.switches g ↔ ∃ p, t.Member g d p := by
  constructor
  · intro hd
    obtain ⟨p, hp⟩ := h.ports g d hd
    exact ⟨p, mem_ports.mp hp⟩
  · rintro ⟨p, hp⟩
    exact mem_switches_of_member hp

/-- Groups are there for their members. -/
theorem mem_iff (h : t.Pruned) : g ∈ t ↔ ∃ d p, t.Member g d p := by
  constructor
  · intro hg
    obtain ⟨d, hd⟩ := h.switches g hg
    obtain ⟨p, hp⟩ := h.mem_switches_iff.mp hd
    exact ⟨d, p, hp⟩
  · rintro ⟨d, p, hp⟩
    exact mem_of_mem_switches (mem_switches_of_member hp)

theorem but (h : t.Pruned) : t.PrunedBut g d :=
  ⟨fun g' hg _ => h.switches g' hg, fun g' d' hd _ => h.ports g' d' hd⟩

/-- A switch without a port is deleted together with its last port. -/
theorem exists_mem_ports_dropPort (h : t.Pruned) (hd : d' ∈ (t.dropPort g d p).switches g') :
    ∃ p', p' ∈ (t.dropPort g d p).ports g' d' := by
  rw [ports_dropPort]
  rw [GroupTable.dropPort] at hd
  split at hd
  · rw [switches_set] at hd
    split at hd
    · subst g'
      obtain ⟨hne, hd⟩ := Dict.mem_del.mp hd
      simpa [hne] using h.ports g d' hd
    · rename_i hg
      simpa [hg] using h.ports g' d' hd
  · rename_i hrow
    split
    · exact Dict.isEmpty_eq_false.mp (by simpa using hrow)
    · rename_i hne
      refine h.ports g' d' ?_
      rw [switches_setPorts] at hd
      split at hd
      · subst g'
        exact (Dict.mem_set.mp hd).resolve_left fun hd' => hne ⟨rfl, hd'⟩
      · exact hd

theorem dropPort (h : t.Pruned) (hg : ((t.dropPort g d p).switches g).isEmpty = false) :
    (t.dropPort g d p).Pruned := by
  refine ⟨fun g' hg' => ?_, fun g' d' => h.exists_mem_ports_dropPort⟩
  by_cases hne : g' = g
  · subst hne
    exact Dict.isEmpty_eq_false.mp hg
  · rw [switches_dropPort_ne hne]
    exact h.switches g' ((mem_dropPort.mp hg').resolve_left hne)

/-- With its last switch the group goes. -/
theorem del_dropPort (h : t.Pruned) :
    Pruned ((t.dropPort g d p).del g) := by
  constructor
  · intro g' hg'
    obtain ⟨hne, hg'⟩ := Dict.mem_del.mp hg'
    rw [switches_del, if_neg hne, switches_dropPort_ne hne]
    exact h.switches g' ((mem_dropPort.mp hg').resolve_left hne)
  · intro g' d' hd
    rw [switches_del] at hd
    split at hd
    · cases hd
    · rename_i hne
      rw [ports_del, if_neg hne]
      exact h.exists_mem_ports_dropPort hd

end Pruned
end SDRoute.GroupTable
