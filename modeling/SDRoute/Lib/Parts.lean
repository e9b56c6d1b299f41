import SDRoute.Lib.Machine

/-! Parts of a machine that are machines of their own: an event of the whole is a list of events of
the part, which may depend on the state. -/
namespace SDRoute.Machine

variable {σ τ ε ι : Type} {step : σ → ε → σ} {part : τ → ι → τ}
  {project : σ → ε → List ι} {s : σ} {e : ε} {es fs : List ε} {i : ι}

/-- What the part sees of a run. -/
def trace (step : σ → ε → σ) (project : σ → ε → List ι) : σ → List ε → List ι
  | _, [] => []
  | s, e :: es => project s e ++ trace step project (step s e) es

theorem trace_append : trace step project s (es ++ fs) =
    trace step project s es ++ trace step project (run step s es) fs := by
  induction es generalizing s with
  | nil => rfl
  | cons e es ih =>
    rw [List.cons_append, trace, trace, ih, List.append_assoc]
    rfl

theorem trace_snoc : trace step project s (es ++ [e]) =
    trace step project s es ++ project (run step s es) e := by
  rw [trace_append, trace, trace, List.append_nil]

theorem trace_const {f : ε → List ι} : trace step (fun _ => f) s es = es.flatMap f := by
  induction es generalizing s with
  | nil => rfl
  | cons e es ih => rw [trace, ih, List.flatMap_cons]

theorem mem_trace : i ∈ trace step project s es ↔
    ∃ before e after, es = before ++ e :: after ∧ i ∈ project (run step s before) e := by
  induction es using List.reverseRecOn with
  | nil => simp [trace]
  | append_singleton es e ih =>
    rw [trace_snoc, List.mem_append, ih]
    constructor
    · rintro (⟨before, e', after, rfl, hi⟩ | hi)
      · exact ⟨before, e', after ++ [e], by simp, hi⟩
      · exact ⟨es, e, [], rfl, hi⟩
    · rintro ⟨before, e', after, hes, hi⟩
      rcases List.eq_nil_or_concat after with rfl | ⟨after, e'', rfl⟩
      · obtain ⟨rfl, he⟩ := List.append_inj' hes rfl
        obtain rfl := List.singleton_inj.mp he
        exact Or.inr hi
      · rw [List.concat_eq_append, ← List.cons_append, ← List.append_assoc] at hes
        obtain ⟨rfl, -⟩ := List.append_inj' hes rfl
        exact Or.inl ⟨before, e', after, rfl, hi⟩

/-- The part runs on what it sees of the events. -/
theorem view_run (view : σ → τ) (I : σ → Prop) (hkept : ∀ t e, I t → I (step t e))
    (hstep : ∀ t e, I t → view (step t e) = run part (view t) (project t e)) (h : I s) :
    view (run step s es) = run part (view s) (trace step project s es) := by
  induction es generalizing s with
  | nil => rfl
  | cons e es ih =>
    rw [run_cons, ih (hkept s e h), hstep s e h, trace, run_append]

end SDRoute.Machine
