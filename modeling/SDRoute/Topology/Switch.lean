import SDRoute.Lib.Py
import SDRoute.Topology.Link

/-! The switch table and the directed neighbor entries of its switches. -/
namespace SDRoute

inductive SwitchAttribute
  | core
  | access
  | edge
  | aggregation
deriving DecidableEq, Repr

/-- A switch; `dp` is the id of its datapath. -/
structure Switch where
  dp : ℕ
  attr : SwitchAttribute := .edge
  neighbors : Dict ℕ (List ℕ) := ∅
deriving DecidableEq

abbrev SwitchTable := Dict ℕ Switch

namespace SwitchTable
variable {t u : SwitchTable} {a b c d p : ℕ}

def getSwitch (t : SwitchTable) (dpid : ℕ) : Option Switch := t.get? dpid

/-- A switch that is known already keeps its neighbors. -/
def addSwitch (t : SwitchTable) (dpid : ℕ) : SwitchTable :=
  match t.get? dpid with
  | some sw => t.set dpid { sw with dp := dpid }
  | none => t.set dpid { dp := dpid }

def setNeighbor (t : SwitchTable) (dpid neighborDpid portNo : ℕ) : Except Exc SwitchTable :=
  match t.get? dpid with
  | none => .error .keyError
  | some sw =>
    match sw.neighbors.get? neighborDpid with
    | none => .ok (t.set dpid { sw with neighbors := sw.neighbors.set neighborDpid [portNo] })
    | some ports =>
      if portNo ∈ ports then .ok t
      else .ok (t.set dpid
        { sw with neighbors := sw.neighbors.set neighborDpid (ports ++ [portNo]) })

/-- A port that is not listed is no error, a neighbor that is not listed is one. -/
def delNeighbor (t : SwitchTable) (dpid neighborDpid portNo : ℕ) : Except Exc SwitchTable :=
  match t.get? dpid with
  | none => .error .keyError
  | some sw =>
    match sw.neighbors.get? neighborDpid with
    | none => .error .keyError
    | some ports =>
      let rest := ports.erase portNo
      .ok (t.set dpid { sw with
        neighbors :=
          if rest.isEmpty then sw.neighbors.del neighborDpid
          else sw.neighbors.set neighborDpid rest })

/-- The ports that `a` lists towards `b`, none if it does not list `b`. -/
def ports (t : SwitchTable) (a b : ℕ) : List ℕ :=
  (((t.get? a).bind fun sw => sw.neighbors.get? b)).getD []

/-- `a` is known and has an entry for `b`. -/
def Lists (t : SwitchTable) (a b : ℕ) : Prop := ∃ sw, t.get? a = some sw ∧ b ∈ sw.neighbors

instance (t : SwitchTable) (a b : ℕ) : Decidable (t.Lists a b) :=
  decidable_of_iff ((t.get? a).any fun sw => b ∈ sw.neighbors)
    (by simp [Lists, Option.any_eq_true])

theorem ports_of_get? {sw : Switch} (h : t.get? a = some sw) :
    t.ports a b = (sw.neighbors.get? b).getD [] := by
  simp [ports, h]

theorem ports_set {sw : Switch} :
    ports (t.set a sw) c d = if c = a then (sw.neighbors.get? d).getD [] else t.ports c d := by
  unfold ports
  rw [Dict.get?_set]
  split <;> simp

theorem setNeighbor_ok (ha : a ∈ t) : ∃ u, t.setNeighbor a b p = .ok u := by
  obtain ⟨sw, hsw⟩ := Dict.mem_iff_get?.mp ha
  simp only [setNeighbor, hsw]
  split
  · exact ⟨_, rfl⟩
  · split <;> exact ⟨_, rfl⟩

theorem ports_setNeighbor (h : t.setNeighbor a b p = .ok u) :
    u.ports c d = if c = a ∧ d = b then
      (if p ∈ t.ports a b then t.ports a b else t.ports a b ++ [p]) else t.ports c d := by
  simp only [setNeighbor] at h
  split at h
  · cases h
  · rename_i sw hsw
    rw [ports_of_get? (b := b) hsw]
    split at h
    · rename_i hnone
      obtain rfl := Except.ok.inj h
      rw [ports_set, Dict.get?_set]
      by_cases hc : c = a
      · subst hc
        by_cases hd : d = b <;> simp [hd, hnone, ports_of_get? hsw]
      · simp [hc]
    · rename_i ports hports
      split at h
      · rename_i hp
        obtain rfl := Except.ok.inj h
        by_cases hcd : c = a ∧ d = b
        · obtain ⟨rfl, rfl⟩ := hcd
          simp [hp, hports, ports_of_get? hsw]
        · simp [hcd]
      · rename_i hp
        obtain rfl := Except.ok.inj h
        rw [ports_set, Dict.get?_set]
        by_cases hc : c = a
        · subst hc
          by_cases hd : d = b <;> simp [hd, hp, hports, ports_of_get? hsw]
        · simp [hc]

theorem mem_setNeighbor (h : t.setNeighbor a b p = .ok u) : c ∈ u ↔ c ∈ t := by
  simp only [setNeighbor] at h
  split at h
  · cases h
  · rename_i sw hsw
    have ha : a ∈ t := Dict.mem_iff_get?.mpr ⟨sw, hsw⟩
    split at h
    · obtain rfl := Except.ok.inj h
      simp only [Dict.mem_set, or_iff_right_iff_imp]
      rintro rfl
      exact ha
    · split at h <;> obtain rfl := Except.ok.inj h
      · rfl
      · simp only [Dict.mem_set, or_iff_right_iff_imp]
        rintro rfl
        exact ha

theorem ports_delNeighbor (h : t.delNeighbor a b p = .ok u) :
    u.ports c d = if c = a ∧ d = b then (t.ports a b).erase p else t.ports c d := by
  simp only [delNeighbor] at h
  split at h
  · cases h
  · rename_i sw hsw
    rw [ports_of_get? (b := b) hsw]
    split at h
    · cases h
    · rename_i ports hports
      obtain rfl := Except.ok.inj h
      rw [ports_set]
      by_cases hc : c = a
      · subst hc
        by_cases hd : d = b
        · subst hd
          by_cases hr : ports.erase p = [] <;> simp [hr, hports, Dict.get?_del]
        · by_cases hr : ports.erase p = [] <;>
            simp [hr, hd, Dict.get?_del, Dict.get?_set, ports_of_get? hsw]
      · simp [hc]

theorem delNeighbor_error {e : Exc} (h : t.delNeighbor a b p = .error e) :
    ¬ t.Lists a b ∧ t.ports a b = [] := by
  simp only [delNeighbor] at h
  split at h
  · rename_i hnone
    exact ⟨by simp [Lists, hnone], by simp [ports, hnone]⟩
  · rename_i sw hsw
    split at h
    · rename_i hnone
      refine ⟨?_, by simp [ports_of_get? hsw, hnone]⟩
      rintro ⟨sw', hsw', hb⟩
      obtain rfl := Option.some.inj (hsw.symm.trans hsw')
      exact Dict.get?_eq_none.mp hnone hb
    · cases h

theorem lists_iff {sw : Switch} (h : t.get? a = some sw) : t.Lists a b ↔ b ∈ sw.neighbors := by
  simp [Lists, h]

theorem lists_set {sw : Switch} :
    Lists (t.set a sw) c d ↔ if c = a then d ∈ sw.neighbors else t.Lists c d := by
  unfold Lists
  rw [Dict.get?_set]
  split <;> simp

theorem lists_del : Lists (t.del a) c d ↔ c ≠ a ∧ t.Lists c d := by
  unfold Lists
  rw [Dict.get?_del]
  split <;> simp [*]

theorem mem_of_lists (h : t.Lists a b) : a ∈ t := by
  obtain ⟨sw, hsw, -⟩ := h
  exact Dict.mem_iff_get?.mpr ⟨sw, hsw⟩

theorem lists_addSwitch : (t.addSwitch a).Lists c d ↔ t.Lists c d := by
  rw [addSwitch]
  split
  · rename_i sw hsw
    rw [lists_set]
    split
    · rename_i hc
      rw [hc, lists_iff hsw]
    · rfl
  · rename_i hnone
    rw [lists_set]
    split
    · rename_i hc
      refine iff_of_false (by simp) fun h => ?_
      exact Dict.get?_eq_none.mp hnone (hc ▸ mem_of_lists h)
    · rfl

theorem mem_addSwitch : c ∈ t.addSwitch a ↔ c = a ∨ c ∈ t := by
  rw [addSwitch]
  split <;> exact Dict.mem_set

theorem lists_setNeighbor (h : t.setNeighbor a b p = .ok u) :
    u.Lists c d ↔ (c = a ∧ d = b) ∨ t.Lists c d := by
  simp only [setNeighbor] at h
  split at h
  · cases h
  · rename_i sw hsw
    have hlists : ∀ ports, Lists (t.set a { sw with neighbors := sw.neighbors.set b ports }) c d ↔
        (c = a ∧ d = b) ∨ t.Lists c d := by
      intro ports
      rw [lists_set]
      split
      · rename_i hc
        rw [hc, lists_iff hsw]
        simp
      · rename_i hc
        simp [hc]
    split at h
    · obtain rfl := Except.ok.inj h
      exact hlists _
    · rename_i ports hports
      split at h
      · obtain rfl := Except.ok.inj h
        refine (or_iff_right_of_imp ?_).symm
        rintro ⟨rfl, rfl⟩
        exact (lists_iff hsw).mpr (Dict.mem_iff_get?.mpr ⟨ports, hports⟩)
      · obtain rfl := Except.ok.inj h
        exact hlists _

end SwitchTable
end SDRoute
