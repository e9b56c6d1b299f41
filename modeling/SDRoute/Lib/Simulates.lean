import SDRoute.Lib.Py

/-! Two computations side by side: from related states they raise the same exception, or return
related results in related states. -/
namespace SDRoute.Py

variable {σ τ α β γ δ : Type} {P : σ → τ → Prop} {Q : α → β → σ → τ → Prop}
  {S : γ → δ → σ → τ → Prop}

inductive Outcomes (Q : α → β → σ → τ → Prop) : Except Exc α × σ → Except Exc β × τ → Prop
  | ok {a b s t} : Q a b s t → Outcomes Q (.ok a, s) (.ok b, t)
  | error {e s t} : Outcomes Q (.error e, s) (.error e, t)

def Simulates (P : σ → τ → Prop) (x : Py σ α) (y : Py τ β) (Q : α → β → σ → τ → Prop) : Prop :=
  ∀ s t, P s t → Outcomes Q (x.exec s) (y.exec t)

namespace Simulates

theorem pure {a : α} {b : β} (h : ∀ s t, P s t → Q a b s t) :
    Simulates P (Pure.pure a) (Pure.pure b) Q := fun s t hst => .ok (h s t hst)

theorem ofOption {e : Exc} {o : Option α} {p : Option β} (hnone : o = none ↔ p = none)
    (hsome : ∀ a b, o = some a → p = some b → ∀ s t, P s t → Q a b s t) :
    Simulates P (Py.ofOption e o) (Py.ofOption e p) Q := by
  intro s t hst
  cases o with
  | none =>
    obtain rfl := hnone.mp rfl
    exact .error
  | some a =>
    cases p with
    | none => cases hnone.mpr rfl
    | some b => exact .ok (hsome a b rfl rfl s t hst)

theorem bind {x : Py σ α} {y : Py τ β} {f : α → Py σ γ} {g : β → Py τ δ}
    (hx : Simulates P x y Q) (hf : ∀ a b, Simulates (Q a b) (f a) (g b) S) :
    Simulates P (x >>= f) (y >>= g) S := by
  intro s t hst
  have hQ := hx s t hst
  rw [exec_bind, exec_bind]
  generalize x.exec s = o at hQ
  generalize y.exec t = p at hQ
  cases hQ with
  | ok hQ => exact hf _ _ _ _ hQ
  | error => exact .error

/-- A step that only one of the two takes. -/
theorem bind_left {x : Py σ α} {f : α → Py σ γ} {y : Py τ δ} {R : α → σ → τ → Prop}
    (hx : ∀ s t, P s t → ∃ a u, x.exec s = (.ok a, u) ∧ R a u t)
    (hf : ∀ a, Simulates (R a) (f a) y S) : Simulates P (x >>= f) y S := by
  intro s t hst
  obtain ⟨a, u, hexec, hR⟩ := hx s t hst
  rw [exec_bind_of_ok hexec]
  exact hf a u t hR

theorem pre {x : Py σ α} {y : Py τ β} {R : σ → τ → Prop} (h : Simulates P x y Q)
    (hpre : ∀ s t, R s t → P s t) : Simulates R x y Q := fun s t hst => h s t (hpre s t hst)

theorem facts {x : Py σ α} {y : Py τ β} {F : Prop} (h : F → Simulates P x y Q) :
    Simulates (fun s t => F ∧ P s t) x y Q := fun s t hst => h hst.1 s t hst.2

theorem ite {p : Prop} [Decidable p] {x x' : Py σ α} {y y' : Py τ β}
    (hx : p → Simulates P x y Q) (hy : ¬ p → Simulates P x' y' Q) :
    Simulates P (if p then x else x') (if p then y else y') Q := by
  split
  · exact hx ‹_›
  · exact hy ‹_›

/-- A computation on a part of the state, beside the same one on that part alone. -/
theorem zoom {read : σ → τ} {write : σ → τ → σ} (hread : ∀ s t, P s t → read s = t)
    (hwrite : ∀ s t u, P s t → P (write s u) u) (x : Py τ α) :
    Simulates P (Py.zoom read write x) x fun a b s t => a = b ∧ P s t := by
  intro s t hst
  rw [exec_zoom, hread s t hst]
  rcases x.exec t with ⟨e | a, u⟩
  · exact .error
  · exact .ok ⟨rfl, hwrite s t u hst⟩

theorem foldlM {xs : List γ} {ys : List δ} {R : γ → δ → Prop} {f : α → γ → Py σ α}
    {g : β → δ → Py τ β} (hxs : List.Forall₂ R xs ys)
    (hf : ∀ a b x y, R x y → Simulates (Q a b) (f a x) (g b y) Q) (a : α) (b : β) :
    Simulates (Q a b) (xs.foldlM f a) (ys.foldlM g b) Q := by
  induction hxs generalizing a b with
  | nil => exact pure fun _ _ h => h
  | cons hR _ ih =>
    rw [List.foldlM_cons, List.foldlM_cons]
    exact (hf a b _ _ hR).bind ih

end Simulates
end SDRoute.Py
