import Mathlib.Data.List.Basic
import Mathlib.Data.List.Induction

/-! Runs of a deterministic machine over a list of events. What the environment chooses
is part of the event, so a property of every list is a property of every environment. -/
namespace SDRoute.Machine

variable {σ ε : Type} {step : σ → ε → σ} {ok : σ → ε → Prop} {s : σ} {e : ε} {es fs : List ε}

def run (step : σ → ε → σ) (s : σ) (es : List ε) : σ := es.foldl step s

@[simp] theorem run_nil : run step s [] = s := rfl

@[simp] theorem run_cons : run step s (e :: es) = run step (step s e) es := rfl

theorem run_append : run step s (es ++ fs) = run step (run step s es) fs := by
  simp [run]

/-- Every event of the list meets `ok` in the state that it finds. -/
def Admits (step : σ → ε → σ) (ok : σ → ε → Prop) : σ → List ε → Prop
  | _, [] => True
  | s, e :: es => ok s e ∧ Admits step ok (step s e) es

instance decidableAdmits [∀ s e, Decidable (ok s e)] :
    ∀ (es : List ε) (s : σ), Decidable (Admits step ok s es)
  | [], _ => inferInstanceAs (Decidable True)
  | e :: es, s =>
    have := decidableAdmits es (step s e)
    inferInstanceAs (Decidable (ok s e ∧ Admits step ok (step s e) es))

theorem admits_append :
    Admits step ok s (es ++ fs) ↔
      Admits step ok s es ∧ Admits step ok (run step s es) fs := by
  induction es generalizing s with
  | nil => simp [Admits]
  | cons e es ih => simp [Admits, ih, and_assoc]

theorem admits_snoc :
    Admits step ok s (es ++ [e]) ↔ Admits step ok s es ∧ ok (run step s es) e := by
  simp [admits_append, Admits]

/-- An event of a longer history is the last one, or was followed by the last one. -/
theorem exists_split_snoc {Q : List ε → Prop} {u : ε} :
    (∃ before after, es ++ [e] = before ++ u :: after ∧ Q after) ↔
      (e = u ∧ Q []) ∨ ∃ before after, es = before ++ u :: after ∧ Q (after ++ [e]) := by
  constructor
  · rintro ⟨before, after, hes, hQ⟩
    rcases List.eq_nil_or_concat after with rfl | ⟨after, e', rfl⟩
    · obtain ⟨rfl, he⟩ := List.append_inj' hes rfl
      exact Or.inl ⟨List.singleton_inj.mp he, hQ⟩
    · rw [List.concat_eq_append] at hes hQ
      rw [← List.cons_append, ← List.append_assoc] at hes
      obtain ⟨rfl, he⟩ := List.append_inj' hes rfl
      exact Or.inr ⟨before, after, rfl, List.singleton_inj.mp he ▸ hQ⟩
  · rintro (⟨rfl, hQ⟩ | ⟨before, after, rfl, hQ⟩)
    · exact ⟨es, [], rfl, hQ⟩
    · exact ⟨before, after ++ [e], by simp, hQ⟩

/-- The last event of a kind is found once only. -/
theorem last_unique {p : ε → Prop} {u v : ε} {before after before' after' : List ε}
    (h : before ++ u :: after = before' ++ v :: after') (hu : p u) (hv : p v)
    (hafter : ∀ e ∈ after, ¬ p e) (hafter' : ∀ e ∈ after', ¬ p e) : u = v ∧ after = after' := by
  rcases List.append_eq_append_iff.mp h with ⟨c, -, hc⟩ | ⟨c, -, hc⟩
  · cases c with
    | nil => exact List.cons.inj hc
    | cons x c =>
      obtain ⟨-, rfl⟩ := List.cons.inj hc
      exact absurd hv (hafter v (by simp))
  · cases c with
    | nil =>
      obtain ⟨rfl, rfl⟩ := List.cons.inj hc
      exact ⟨rfl, rfl⟩
    | cons x c =>
      obtain ⟨-, rfl⟩ := List.cons.inj hc
      exact absurd hu (hafter' u (by simp))

/-- A condition on the events alone. -/
theorem admits_const {p : ε → Prop} : Admits step (fun _ e => p e) s es ↔ ∀ e ∈ es, p e := by
  induction es generalizing s with
  | nil => simp [Admits]
  | cons e es ih => rw [Admits, ih, List.forall_mem_cons]

theorem run_induction {I : σ → Prop} (h0 : I s) (hstep : ∀ t e, I t → I (step t e)) :
    I (run step s es) := by
  induction es generalizing s with
  | nil => exact h0
  | cons e es ih => exact ih (hstep s e h0)

/-- The invariant rule, for invariants that also speak of the events so far. -/
theorem invariant_run {I : List ε → σ → Prop} (h0 : I [] s)
    (hstep : ∀ es t e, I es t → ok t e → I (es ++ [e]) (step t e))
    (ha : Admits step ok s es) : I es (run step s es) := by
  induction es using List.reverseRecOn with
  | nil => exact h0
  | append_singleton es e ih =>
    obtain ⟨hes, he⟩ := admits_snoc.mp ha
    rw [run_append]
    exact hstep es _ e (ih hes) he

/-- When a step ends well exactly if it starts well and meets `ok`, so does a run. -/
theorem run_iff_admits {I P : σ → Prop} (h0 : I s) (hstep : ∀ t e, I t → I (step t e))
    (hP : ∀ t e, I t → (P (step t e) ↔ P t ∧ ok t e)) :
    P (run step s es) ↔ P s ∧ Admits step ok s es := by
  induction es generalizing s with
  | nil => simp [Admits]
  | cons e es ih =>
    rw [run_cons, ih (hstep s e h0), hP s e h0, Admits, and_assoc]

/-- When a step from a good state is good exactly if it meets `ok`, a run stays good
throughout exactly if all of its steps meet `ok`. -/
theorem forall_prefix_iff_admits {I : List ε → σ → Prop} (h0 : I [] s)
    (hstep : ∀ es t e, I es t → (I (es ++ [e]) (step t e) ↔ ok t e)) :
    (∀ fs, fs <+: es → I fs (run step s fs)) ↔ Admits step ok s es := by
  induction es using List.reverseRecOn with
  | nil =>
    simp only [List.prefix_nil, forall_eq, run_nil, h0, Admits]
  | append_singleton es e ih =>
    rw [admits_snoc, ← ih]
    constructor
    · intro h
      have hes : ∀ fs, fs <+: es → I fs (run step s fs) :=
        fun fs hfs => h fs (hfs.trans (List.prefix_append es [e]))
      refine ⟨hes, (hstep es _ e (hes es (List.prefix_refl es))).mp ?_⟩
      simpa [run_append] using h (es ++ [e]) (List.prefix_refl _)
    · rintro ⟨hes, he⟩ fs hfs
      rcases List.prefix_concat_iff.mp hfs with rfl | hfs
      · rw [run_append]
        exact (hstep es _ e (hes es (List.prefix_refl es))).mpr he
      · exact hes fs hfs

/-- When a step from a good state is as wanted exactly if it meets `ok`, and ends in a good state
then, all steps of a run are as wanted exactly if they all meet `ok`. -/
theorem forall_steps_iff_admits {I : σ → Prop} {P : σ → ε → Prop} (h0 : I s)
    (hstep : ∀ t e, I t → ok t e → I (step t e)) (hok : ∀ t e, I t → (P t e ↔ ok t e)) :
    (∀ fs e, fs ++ [e] <+: es → P (run step s fs) e) ↔ Admits step ok s es := by
  induction es generalizing s with
  | nil =>
    refine iff_of_true (fun fs e h => ?_) trivial
    simp at h
  | cons e es ih =>
    rw [Admits, ← hok s e h0]
    constructor
    · intro h
      have he : P s e := h [] e (by simp)
      refine ⟨he, (ih (hstep s e h0 ((hok s e h0).mp he))).mp fun fs e' hfs => ?_⟩
      exact h (e :: fs) e' (by simpa using hfs)
    · rintro ⟨he, h⟩ fs e' hfs
      cases fs with
      | nil =>
        obtain rfl : e' = e := by simpa using hfs
        exact he
      | cons f fs =>
        obtain ⟨rfl, hrest⟩ := List.cons_prefix_cons.mp (List.cons_append ▸ hfs)
        exact (ih (hstep s f h0 ((hok s f h0).mp he))).mpr h fs e' hrest

end SDRoute.Machine
