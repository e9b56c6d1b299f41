import SDRoute.Lib.Py

/-! Computations that do not look at a part of the state: they run alike from states that agree
on the rest. -/
namespace SDRoute.Py

variable {σ α β : Type} {forget : σ → σ} {s t : σ}

/-- What is forgotten before the run is forgotten after it, and the result is the same. -/
def Blind (forget : σ → σ) (x : Py σ α) : Prop :=
  ∀ s, x.exec (forget s) = ((x.exec s).1, forget (x.exec s).2)

namespace Blind

theorem congr {x : Py σ α} (h : Blind forget x) (hst : forget s = forget t) :
    (x.exec s).1 = (x.exec t).1 := by
  have hs := congrArg Prod.fst (h s)
  have ht := congrArg Prod.fst (h t)
  rw [hst] at hs
  exact hs.symm.trans ht

theorem pure (a : α) : Blind forget (Pure.pure a : Py σ α) := fun _ => rfl

theorem throw (e : Exc) : Blind forget (throw e : Py σ α) := fun _ => rfl

theorem ofOption (e : Exc) (o : Option α) : Blind forget (Py.ofOption e o : Py σ α) := by
  cases o with
  | none => exact throw e
  | some a => exact pure a

theorem modify {f : σ → σ} (h : ∀ s, f (forget s) = forget (f s)) :
    Blind forget (modify f : Py σ Unit) := fun s => by simp [h]

theorem bind {x : Py σ α} {f : α → Py σ β} (hx : Blind forget x) (hf : ∀ a, Blind forget (f a)) :
    Blind forget (x >>= f) := by
  intro s
  rw [exec_bind, exec_bind, hx s]
  rcases x.exec s with ⟨e | a, t⟩
  · rfl
  · exact hf a t

/-- What is read of the state is not forgotten. -/
theorem reads {f : σ → Py σ α} (hread : ∀ s, f (forget s) = f s) (hf : ∀ s, Blind forget (f s)) :
    Blind forget (get >>= f) := by
  intro s
  rw [exec_bind_of_ok (exec_get _), exec_bind_of_ok (exec_get s), hread s]
  exact hf s s

theorem ite {p : Prop} [Decidable p] {x y : Py σ α} (hx : Blind forget x) (hy : Blind forget y) :
    Blind forget (if p then x else y) := by
  split
  · exact hx
  · exact hy

theorem forM {xs : List β} {f : β → Py σ PUnit} (hf : ∀ b, Blind forget (f b)) :
    Blind forget (xs.forM f) := by
  induction xs with
  | nil => exact pure _
  | cons b xs ih => exact bind (hf b) fun _ => ih

theorem mapM {xs : List β} {f : β → Py σ α} (hf : ∀ b, Blind forget (f b)) :
    Blind forget (xs.mapM f) := by
  induction xs with
  | nil => exact pure _
  | cons b xs ih =>
    rw [List.mapM_cons]
    exact bind (hf b) fun _ => bind ih fun _ => pure _

/-- A part that is not forgotten is worked on. -/
theorem zoom {τ : Type} {read : σ → τ} {write : σ → τ → σ} (x : Py τ α)
    (hread : ∀ s, read (forget s) = read s)
    (hwrite : ∀ s t, write (forget s) t = forget (write s t)) :
    Blind forget (Py.zoom read write x) := by
  intro s
  rw [exec_zoom, exec_zoom, hread, hwrite]

end Blind
end SDRoute.Py
