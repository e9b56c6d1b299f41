import SDRoute.Lib.Random

/-! Which outcomes the draws of a program can lead to, and loops that may not fail. -/
namespace SDRoute.Rng

variable {α β : Type} {x : Py Rng α} {f : α → Py Rng β} {a : α} {o : Except Exc α} {e : Exc}

/-- Some draws lead to the outcome and leave the draws that are wanted. -/
def Possible (x : Py Rng α) (o : Except Exc α) : Prop := ∀ rest, ∃ draws, x.exec draws = (o, rest)

/-- An outcome does not depend on the draws that it leaves. -/
def Resumable (x : Py Rng α) : Prop := ∀ draws, Possible x (x.exec draws).1

/-- No draws make it fail. -/
def Completes (x : Py Rng α) : Prop := ∀ draws, ∃ a rest, x.exec draws = (.ok a, rest)

theorem exec_random (draws : Rng) :
    random.exec draws = (.ok (draws 0).val, fun n => draws (n + 1)) := rfl

namespace Possible

theorem pure (a : α) : Possible (Pure.pure a : Py Rng α) (.ok a) := fun rest => ⟨rest, rfl⟩

theorem throw (e : Exc) : Possible (throw e : Py Rng α) (.error e) := fun rest => ⟨rest, rfl⟩

theorem ofExcept (r : Except Exc α) : Possible (Py.ofExcept r) r :=
  fun rest => ⟨rest, Py.exec_ofExcept r rest⟩

theorem random (d : Draw) : Possible Rng.random (.ok d.val) := by
  intro rest
  exact ⟨fun n => n.casesOn d rest, rfl⟩

theorem bind {o : Except Exc β} (hx : Possible x (.ok a)) (hf : Possible (f a) o) :
    Possible (x >>= f) o := by
  intro rest
  obtain ⟨middle, hmiddle⟩ := hf rest
  obtain ⟨draws, hdraws⟩ := hx middle
  exact ⟨draws, (Py.exec_bind_of_ok hdraws).trans hmiddle⟩

theorem bind_error (hx : Possible x (.error e)) : Possible (x >>= f) (.error e) := by
  intro rest
  obtain ⟨draws, hdraws⟩ := hx rest
  exact ⟨draws, Py.exec_bind_of_error hdraws⟩

/-- Every number of the range is drawn. -/
theorem randint {a b v : ℤ} (ha : a ≤ v) (hb : v ≤ b) : Possible (Rng.randint a b) (.ok v) := by
  have hpos : (0 : ℚ) < b + 1 - a := by
    have hlt : (a : ℚ) < b + 1 := by exact_mod_cast (by omega : a < b + 1)
    linarith
  have hlow : (0 : ℚ) ≤ v - a := sub_nonneg.mpr (by exact_mod_cast ha)
  have hhigh : (v - a : ℚ) < b + 1 - a := by
    have hlt : (v : ℚ) < b + 1 := by exact_mod_cast (by omega : v < b + 1)
    linarith
  let d : Draw := ⟨(v - a) / (b + 1 - a), div_nonneg hlow hpos.le, (div_lt_one hpos).mpr hhigh⟩
  rw [Rng.randint, if_neg (by omega)]
  have hfloor : a + ⌊d.val * (b + 1 - a : ℚ)⌋ = v := by
    have hval : d.val * (b + 1 - a : ℚ) = ((v - a : ℤ) : ℚ) := by
      rw [Int.cast_sub]
      exact div_mul_cancel₀ _ hpos.ne'
    rw [hval, Int.floor_intCast]
    omega
  have hpure : Possible (Pure.pure (a + ⌊d.val * (b + 1 - a : ℚ)⌋) : Py Rng ℤ) (.ok v) := by
    rw [hfloor]
    exact pure v
  exact (random d).bind hpure

theorem randint_empty {a b : ℤ} (h : b < a) : Possible (Rng.randint a b) (.error .valueError) := by
  rw [Rng.randint, if_pos (by omega)]
  exact (throw _).bind_error

end Possible

namespace Resumable

theorem pure (a : α) : Resumable (Pure.pure a : Py Rng α) := fun _ => .pure a

theorem throw (e : Exc) : Resumable (throw e : Py Rng α) := fun _ => .throw e

theorem ofExcept (r : Except Exc α) : Resumable (Py.ofExcept r) := by
  intro draws
  rw [Py.exec_ofExcept]
  exact .ofExcept r

theorem ofOption (e : Exc) (o : Option α) : Resumable (Py.ofOption e o) := by
  cases o with
  | none => exact throw e
  | some a => exact pure a

theorem random : Resumable Rng.random := fun draws => .random (draws 0)

theorem bind (hx : Resumable x) (hf : ∀ a, Resumable (f a)) : Resumable (x >>= f) := by
  intro draws
  have hx := hx draws
  rw [Py.exec_bind]
  rcases hrun : x.exec draws with ⟨e | a, middle⟩
  · rw [hrun] at hx
    exact hx.bind_error
  · rw [hrun] at hx
    exact hx.bind (hf a middle)

theorem ite {p : Prop} [Decidable p] {y : Py Rng α} (hx : Resumable x) (hy : Resumable y) :
    Resumable (if p then x else y) := by
  split
  · exact hx
  · exact hy

theorem randint (a b : ℤ) : Resumable (Rng.randint a b) := by
  have hdraw : Resumable (do
      let r ← Rng.random
      return a + ⌊r * (b + 1 - a)⌋) := bind random fun _ => pure _
  unfold Rng.randint
  split
  · exact bind (throw _) fun _ => hdraw
  · exact hdraw

end Resumable

namespace Completes

theorem of_triple {Q : α → Rng → Prop} (h : Py.Triple (fun _ => True) x Q fun _ => False) :
    Completes x := by
  intro draws
  have hdraws := h draws trivial
  rcases hrun : x.exec draws with ⟨e | a, rest⟩
  · rw [hrun] at hdraws
    exact hdraws.elim
  · exact ⟨a, rest, rfl⟩

theorem not_possible (h : Completes x) : ¬ Possible x (.error e) := by
  intro hx
  obtain ⟨draws, hdraws⟩ := hx fun _ => .zero
  obtain ⟨a, rest, hok⟩ := h draws
  rw [hdraws] at hok
  cases hok

end Completes

theorem possible_mapM_error {as : List α} (hf : ∀ a, Resumable (f a)) (ha : a ∈ as)
    (he : Possible (f a) (.error e)) : ∃ e, Possible (as.mapM f) (.error e) := by
  induction as with
  | nil => cases ha
  | cons b as ih =>
    rw [List.mapM_cons]
    rcases List.mem_cons.mp ha with rfl | ha
    · exact ⟨e, he.bind_error⟩
    · obtain ⟨e, hrest⟩ := ih ha
      have hb := hf b fun _ => .zero
      rcases hrun : (f b).exec fun _ => .zero with ⟨e' | c, rest⟩
      · rw [hrun] at hb
        exact ⟨e', hb.bind_error⟩
      · rw [hrun] at hb
        exact ⟨e, hb.bind hrest.bind_error⟩

/-- A loop completes if each of its rounds does: a round that may fail is reached. -/
theorem completes_mapM_iff {as : List α} (hf : ∀ a, Resumable (f a)) :
    Completes (as.mapM f) ↔ ∀ a ∈ as, Completes (f a) := by
  constructor
  · intro h a ha draws
    rcases hrun : (f a).exec draws with ⟨e | b, rest⟩
    · have hposs := hf a draws
      rw [hrun] at hposs
      obtain ⟨e', hfails⟩ := possible_mapM_error hf ha hposs
      exact absurd hfails h.not_possible
    · exact ⟨b, rest, rfl⟩
  · intro h
    induction as with
    | nil => exact fun draws => ⟨[], draws, rfl⟩
    | cons b as ih =>
      intro draws
      obtain ⟨c, middle, hc⟩ := h b List.mem_cons_self draws
      obtain ⟨cs, rest, hcs⟩ := ih (fun a ha => h a (List.mem_cons_of_mem b ha)) middle
      refine ⟨c :: cs, rest, ?_⟩
      rw [List.mapM_cons, Py.exec_bind_of_ok hc, Py.exec_bind_of_ok hcs, Py.exec_pure]

end SDRoute.Rng
