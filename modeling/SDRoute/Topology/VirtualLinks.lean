import Mathlib.Data.List.Chain
import SDRoute.Topology.DirectLinks

/-! What the removal of all virtual links of two switches leaves in the table. -/
namespace SDRoute

def Link.IsVirtual (l : Link) : Prop := l.attr = some .virtual

instance (l : Link) : Decidable l.IsVirtual := inferInstanceAs (Decidable (_ = _))

namespace LinkTable
variable {t : LinkTable} {a b : ℕ} {k : ℕ × ℕ} {l : Link} {links rest : List Link}

/-- A stored link is direct or virtual. -/
def Marked (t : LinkTable) : Prop :=
  ∀ k l, Filed t k l → l.attr = some .direct ∨ l.attr = some .virtual

theorem Marked.set (h : Marked t) (hrest : ∀ l ∈ rest, Filed t k l ∨
    l.attr = some .direct ∨ l.attr = some .virtual) : Marked (t.set k rest) := by
  intro j l hl
  rw [filed_set] at hl
  split at hl
  · rcases hrest l hl with hold | hnew
    · exact h k l hold
    · exact hnew
  · exact h j l hl

theorem Marked.putBack (h : Marked t) (hk : t.get? k = some links)
    (hs : rest.Sublist links) : Marked (t.putBack k rest) := by
  intro j l hl
  rw [filed_putBack] at hl
  split at hl
  · exact h k l ((filed_iff hk).mpr (hs.subset hl))
  · exact h j l hl

theorem Marked.add (h : Marked t) (hk : t.get? k = some links)
    (hl : l.attr = some .direct ∨ l.attr = some .virtual) : Marked (t.set k (links ++ [l])) := by
  refine h.set fun m hm => ?_
  rcases List.mem_append.mp hm with hold | hnew
  · exact Or.inl ((filed_iff hk).mpr hold)
  · exact Or.inr (List.mem_singleton.mp hnew ▸ hl)

theorem Marked.first (h : Marked t) (hl : l.attr = some .direct ∨ l.attr = some .virtual) :
    Marked (t.set k [l]) :=
  h.set fun _ hm => Or.inr (List.mem_singleton.mp hm ▸ hl)

theorem marked_step (h : Marked t) (op : Op) : Marked (step t op) := by
  cases op with
  | addLink link =>
    simp only [step, addLink]
    split
    · exact h.first (Or.inl rfl)
    · split
      · exact h
      · exact h.add ‹_› (Or.inl rfl)
  | delLink link =>
    simp only [step, delLink]
    split
    · exact h
    · split
      · exact h.putBack ‹_› (remove_sublist _ _)
      · exact h
  | addVirtualLink a p b q =>
    simp only [step, addVirtualLink]
    split
    · exact h.first (Or.inr rfl)
    · split
      · exact h.add ‹_› (Or.inr rfl)
      · split <;> exact h
  | delVirtualLink a p b q =>
    simp only [step, delVirtualLink]
    split
    · exact h
    · split
      · exact h
      · split
        · exact h.putBack ‹_› (remove_sublist _ _)
        · exact h
  | delAllVirtualLink a b =>
    simp only [step, delAllVirtualLink]
    split
    · exact h
    · exact h.putBack ‹_› (sweepVirtual_sublist _)

theorem marked_run (ops : List Op) : Marked (Machine.run step ∅ ops) :=
  Machine.run_induction (fun k l h => by simp [Filed] at h) fun _ op h => marked_step h op

/-- The key under which the links of two switches are filed. -/
def pairKey (a b : ℕ) : ℕ × ℕ := if a > b then (b, a) else (a, b)

/-- The links of two switches, none if they have no key. -/
def between (t : LinkTable) (a b : ℕ) : List Link := (t.get? (pairKey a b)).getD []

/-- The links that are not virtual. -/
def directs (links : List Link) : List Link := links.filter fun l => ¬ l.IsVirtual

/-- In every table that is built by its operations, what is not virtual is direct. -/
theorem mem_directs_run (ops : List Op) :
    l ∈ directs (between (Machine.run step ∅ ops) a b) ↔
      l ∈ between (Machine.run step ∅ ops) a b ∧ l.attr = some .direct := by
  rw [directs, List.mem_filter]
  refine and_congr_right fun hl => ?_
  cases hlinks : Dict.get? (Machine.run step ∅ ops) (pairKey a b) with
  | none => simp [between, hlinks] at hl
  | some links =>
    have hfiled : Filed (Machine.run step ∅ ops) (pairKey a b) l :=
      ⟨links, hlinks, by simpa [between, hlinks] using hl⟩
    rcases marked_run ops _ l hfiled with hattr | hattr <;> simp [Link.IsVirtual, hattr]

/-- In `u` the virtual links of two switches are gone from `t`, and nothing else is. -/
structure VirtualRemoved (t u : LinkTable) (a b : ℕ) : Prop where
  gone : ∀ l ∈ u.between a b, ¬ l.IsVirtual
  kept : directs (u.between a b) = directs (t.between a b)
  others : ∀ k ≠ pairKey a b, u.get? k = t.get? k
  dropped : pairKey a b ∉ u ↔ directs (t.between a b) = []

/-- No virtual link stands right behind another one. -/
def Apart (links : List Link) : Prop := links.IsChain fun l m => l.IsVirtual → ¬ m.IsVirtual

instance (links : List Link) : Decidable (Apart links) :=
  inferInstanceAs (Decidable (links.IsChain _))

theorem directs_sweepVirtual (links : List Link) :
    directs (sweepVirtual links) = directs links := by
  fun_induction sweepVirtual links with
  | case1 => rfl
  | case2 l hl => simp [directs, Link.IsVirtual, hl]
  | case3 l hl => rfl
  | case4 l m links hl ih => simp_all [directs, Link.IsVirtual, List.filter_cons]
  | case5 l m links hl ih => simp_all [directs, Link.IsVirtual, List.filter_cons]

/-- The walk clears a list exactly if it never passes over a virtual link. -/
theorem sweepVirtual_clears_iff (links : List Link) :
    (∀ l ∈ sweepVirtual links, ¬ l.IsVirtual) ↔ Apart links := by
  unfold Apart
  fun_induction sweepVirtual links with
  | case1 => simp
  | case2 l hl => simp
  | case3 l hl => simpa [Link.IsVirtual] using hl
  | case4 l m links hl ih =>
    have hvirtual : l.IsVirtual := hl
    rw [List.forall_mem_cons, ih, List.isChain_cons_cons]
    constructor
    · rintro ⟨hm, hlinks⟩
      refine ⟨fun _ => hm, ?_⟩
      exact hlinks.cons fun n _ h => absurd h hm
    · rintro ⟨hm, hchain⟩
      exact ⟨hm hvirtual, hchain.of_cons⟩
  | case5 l m links hl ih =>
    have hdirect : ¬ l.IsVirtual := hl
    rw [List.forall_mem_cons, ih, List.isChain_cons_cons, and_iff_right hdirect]
    exact (and_iff_right fun h => absurd h hdirect).symm

theorem get?_putBack_ne {j : ℕ × ℕ} (hj : j ≠ k) : (t.putBack k rest).get? j = t.get? j := by
  unfold putBack
  split
  · rw [Dict.get?_del, if_neg hj]
  · rw [Dict.get?_set, if_neg hj]

theorem getD_putBack : ((t.putBack k rest).get? k).getD [] = rest := by
  unfold putBack
  split
  · rename_i hempty
    rw [Dict.get?_del, if_pos rfl, List.isEmpty_iff.mp hempty]
    rfl
  · simp

theorem mem_putBack : k ∈ t.putBack k rest ↔ rest ≠ [] := by
  unfold putBack
  split
  · rename_i hempty
    simp [List.isEmpty_iff.mp hempty]
  · rename_i hrest
    simpa using hrest

theorem delAllVirtualLink_of_get? (h : t.get? (pairKey a b) = some links) :
    t.delAllVirtualLink a b = t.putBack (pairKey a b) (sweepVirtual links) := by
  rw [pairKey] at h
  rw [delAllVirtualLink, h]
  rfl

theorem delAllVirtualLink_of_none (h : t.get? (pairKey a b) = none) :
    t.delAllVirtualLink a b = t := by
  rw [pairKey] at h
  rw [delAllVirtualLink, h]

/-- All virtual links of two switches are removed, and nothing else is, exactly if no two of them
stand next to each other. -/
theorem virtualRemoved_iff (t : LinkTable) (a b : ℕ) :
    VirtualRemoved t (t.delAllVirtualLink a b) a b ↔ Apart (t.between a b) := by
  cases h : t.get? (pairKey a b) with
  | none =>
    rw [delAllVirtualLink_of_none h]
    have hempty : t.between a b = [] := by simp [between, h]
    have habsent : pairKey a b ∉ t := Dict.get?_eq_none.mp h
    rw [hempty]
    refine iff_of_true ⟨by simp [hempty], rfl, fun k _ => rfl, ?_⟩ .nil
    exact iff_of_true habsent (by simp [hempty, directs])
  | some links =>
    have hlinks : t.between a b = links := by simp [between, h]
    have hleft : (t.putBack (pairKey a b) (sweepVirtual links)).between a b =
        sweepVirtual links := getD_putBack
    rw [delAllVirtualLink_of_get? h, hlinks, ← sweepVirtual_clears_iff]
    constructor
    · intro hremoved
      exact hleft ▸ hremoved.gone
    · intro hclear
      have hdirects : sweepVirtual links = directs links := by
        rw [← directs_sweepVirtual, directs, List.filter_eq_self.mpr]
        simpa using hclear
      refine ⟨by rwa [hleft], ?_, fun k hk => get?_putBack_ne hk, ?_⟩
      · rw [hleft, hlinks, directs_sweepVirtual]
      · rw [mem_putBack, not_not, hlinks, hdirects]

/-- Two virtual links in a row: the second one stays. -/
theorem not_virtualRemoved : ¬ ∀ (t : LinkTable) (a b : ℕ),
    VirtualRemoved t (t.delAllVirtualLink a b) a b := by
  intro h
  have hgone := (h (Machine.run step ∅
    [.addVirtualLink 1 ⟨1, 1⟩ 2 ⟨2, 1⟩, .addVirtualLink 1 ⟨1, 2⟩ 2 ⟨2, 2⟩]) 1 2).gone
  revert hgone
  decide +kernel

end LinkTable
end SDRoute
