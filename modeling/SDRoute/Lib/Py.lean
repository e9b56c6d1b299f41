import Mathlib.Data.Int.Notation
import Mathlib.Data.List.Forall2

/-! Computations that read and write an object state and may raise. An exception keeps
the writes made before it, as it does in the modelled language. -/
namespace SDRoute

inductive Exc
  | keyError
  | indexError
  | valueError
  | typeError
  | attributeError
  | assertionError
  | zeroDivisionError
  | noPath
  | outOfFuel
deriving DecidableEq, Repr

abbrev Py (σ : Type) := ExceptT Exc (StateM σ)

namespace Py
variable {σ α β : Type} {I : σ → Prop}

/-- Outcome and final state of a run from `s`. -/
def exec (x : Py σ α) (s : σ) : Except Exc α × σ := x.run s

@[simp] theorem exec_pure (a : α) (s : σ) : (pure a : Py σ α).exec s = (.ok a, s) := rfl

@[simp] theorem exec_throw (e : Exc) (s : σ) :
    (throw e : Py σ α).exec s = (.error e, s) := rfl

@[simp] theorem exec_get (s : σ) : (get : Py σ σ).exec s = (.ok s, s) := rfl

@[simp] theorem exec_set (s t : σ) : (set t : Py σ Unit).exec s = (.ok (), t) := rfl

@[simp] theorem exec_modify (f : σ → σ) (s : σ) :
    (modify f : Py σ Unit).exec s = (.ok (), f s) := rfl

theorem exec_bind (x : Py σ α) (f : α → Py σ β) (s : σ) :
    (x >>= f).exec s = match x.exec s with
      | (.ok a, t) => (f a).exec t
      | (.error e, t) => (.error e, t) := by
  change (ExceptT.bindCont f (x.run s).1).run (x.run s).2 = match x.run s with
    | (.ok a, t) => (f a).run t
    | (.error e, t) => (.error e, t)
  rcases x.run s with ⟨e | a, t⟩ <;> rfl

/-- A run of `x >>= f` returns exactly when both parts do. -/
theorem exec_bind_ok {x : Py σ α} {f : α → Py σ β} {s u : σ} {b : β} :
    (x >>= f).exec s = (.ok b, u) ↔
      ∃ a t, x.exec s = (.ok a, t) ∧ (f a).exec t = (.ok b, u) := by
  rw [exec_bind]
  rcases x.exec s with ⟨e | a, t⟩ <;> simp

theorem exec_bind_of_ok {x : Py σ α} {f : α → Py σ β} {s t : σ} {a : α}
    (h : x.exec s = (.ok a, t)) : (x >>= f).exec s = (f a).exec t := by
  rw [exec_bind, h]

theorem exec_bind_of_error {x : Py σ α} {f : α → Py σ β} {s t : σ} {e : Exc}
    (h : x.exec s = (.error e, t)) : (x >>= f).exec s = (.error e, t) := by
  rw [exec_bind, h]

theorem exec_of_ok {x : Py σ α} {s : σ} {a : α} (h : (x.exec s).1 = .ok a) :
    x.exec s = (.ok a, (x.exec s).2) := Prod.ext h rfl

@[simp] theorem exec_map (f : α → β) (x : Py σ α) (s : σ) :
    (f <$> x).exec s = ((x.exec s).1.map f, (x.exec s).2) := by
  rw [map_eq_pure_bind, exec_bind]
  rcases x.exec s with ⟨e | a, t⟩ <;> rfl

theorem exec_discard (x : Py σ α) (s : σ) :
    (discard x).exec s = ((x.exec s).1.map fun _ => ⟨⟩, (x.exec s).2) :=
  exec_map (fun _ => PUnit.unit) x s

/-- A lookup that raises `e` when it finds nothing. -/
def ofOption (e : Exc) : Option α → Py σ α
  | some a => pure a
  | none => throw e

@[simp] theorem ofOption_some (e : Exc) (a : α) :
    (ofOption e (some a) : Py σ α) = pure a := rfl

@[simp] theorem ofOption_none (e : Exc) : (ofOption e none : Py σ α) = throw e := rfl

def ofExcept : Except Exc α → Py σ α
  | .ok a => pure a
  | .error e => throw e

@[simp] theorem exec_ofExcept (r : Except Exc α) (s : σ) :
    (ofExcept r : Py σ α).exec s = (r, s) := by
  cases r <;> rfl

theorem exec_ofOption_ok {e : Exc} {o : Option α} {s t : σ} {a : α} :
    (ofOption e o : Py σ α).exec s = (.ok a, t) ↔ o = some a ∧ s = t := by
  cases o <;> simp

/-- The item that `index` finds stands where it finds it. -/
theorem set_of_getElem? {xs : List α} {a : α} {i : ℕ} (h : xs[i]? = some a) : xs.set i a = xs := by
  obtain ⟨_, rfl⟩ := List.getElem?_eq_some_iff.mp h
  exact List.set_getElem_self _

theorem getElem?_of_idxOf? [DecidableEq α] {xs : List α} {a : α} {i : ℕ}
    (h : xs.idxOf? a = some i) : xs[i]? = some a := by
  obtain ⟨hi, ha, -⟩ := List.idxOf?_eq_some_iff.mp h
  rw [List.getElem?_eq_getElem hi, ha]

/-- All items of the second list stand in the first one. -/
theorem isSome_mapM_idxOf? [DecidableEq α] {xs ys : List α} :
    (ys.mapM fun y => xs.idxOf? y).isSome ↔ ∀ y ∈ ys, y ∈ xs := by
  induction ys with
  | nil => simp
  | cons y ys ih =>
    rw [List.mapM_cons, List.forall_mem_cons, ← ih, ← List.isSome_idxOf?]
    cases xs.idxOf? y <;> cases ys.mapM fun y => xs.idxOf? y <;> simp

/-- In a list without repeats an item has one place. -/
theorem place_eq {xs : List α} {a : α} {i j : ℕ} (hnodup : xs.Nodup) (hi : xs[i]? = some a)
    (hj : xs[j]? = some a) : i = j :=
  (List.getElem?_inj (List.getElem?_eq_some_iff.mp hi).1 hnodup).mp (hi.trans hj.symm)

theorem ne_of_place_ne {xs : List α} {a b : α} {i j : ℕ} (hnodup : xs.Nodup) (hij : i ≠ j)
    (hi : xs[i]? = some a) (hj : xs[j]? = some b) : a ≠ b := by
  rintro rfl
  exact hij (place_eq hnodup hi hj)

/-- Different items stand at different places. -/
theorem ne_of_idxOf? [DecidableEq α] {xs : List α} {a b : α} {i j : ℕ} (hab : a ≠ b)
    (ha : xs.idxOf? a = some i) (hb : xs.idxOf? b = some j) : i ≠ j := by
  rintro rfl
  have h := (getElem?_of_idxOf? ha).symm.trans (getElem?_of_idxOf? hb)
  exact hab (Option.some.inj h)

/-- Reads a list, where negative numbers count from its end. -/
def item? (xs : List α) (i : ℤ) : Option α :=
  if 0 ≤ i then xs[i.toNat]?
  else if 0 ≤ xs.length + i then xs[(xs.length + i).toNat]?
  else none

theorem mem_of_item? {xs : List α} {i : ℤ} {a : α} (h : item? xs i = some a) : a ∈ xs := by
  unfold item? at h
  split at h
  · exact List.mem_of_getElem? h
  · split at h
    · exact List.mem_of_getElem? h
    · cases h

/-- Runs a computation on a part of the state. -/
def zoom {τ : Type} (read : σ → τ) (write : σ → τ → σ) (x : Py τ α) : Py σ α := do
  let s ← get
  let (result, t) := x.exec (read s)
  set (write s t)
  ofExcept result

theorem exec_zoom {τ : Type} (read : σ → τ) (write : σ → τ → σ) (x : Py τ α) (s : σ) :
    (zoom read write x).exec s =
      ((x.exec (read s)).1, write s (x.exec (read s)).2) := by
  rw [zoom, exec_bind_of_ok (exec_get s), exec_bind_of_ok (exec_set _ _), exec_ofExcept]

theorem forM_cons (f : β → Py σ PUnit) (b : β) (xs : List β) :
    (b :: xs).forM f = f b >>= fun _ => xs.forM f := rfl

theorem forM_append (f : β → Py σ PUnit) (xs ys : List β) :
    (xs ++ ys).forM f = xs.forM f >>= fun _ => ys.forM f := List.forM_append

/-- A loop whose rounds all return, under an invariant. -/
theorem exec_forM_of_ok {f : β → Py σ Unit} {xs : List β}
    (hf : ∀ b ∈ xs, ∀ s, I s → ∃ t, (f b).exec s = (.ok (), t) ∧ I t) {s : σ} (hs : I s) :
    ∃ t, (xs.forM f).exec s = (.ok (), t) ∧ I t := by
  induction xs generalizing s with
  | nil => exact ⟨s, rfl, hs⟩
  | cons b xs ih =>
    obtain ⟨t, ht, hI⟩ := hf b (by simp) s hs
    obtain ⟨u, hu, hI⟩ := ih (fun c hc => hf c (by simp [hc])) hI
    refine ⟨u, ?_, hI⟩
    rw [forM_cons, exec_bind_of_ok ht, hu]

/-- A loop whose rounds all return, under an invariant of the rounds so far. -/
theorem exec_forM_history {f : β → Py σ Unit} {xs : List β} {J : List β → σ → Prop}
    (hstep : ∀ ys b, ys ++ [b] <+: xs → ∀ s, J ys s →
      ∃ t, (f b).exec s = (.ok (), t) ∧ J (ys ++ [b]) t)
    {s : σ} (h : J [] s) : ∃ t, (xs.forM f).exec s = (.ok (), t) ∧ J xs t := by
  suffices hgen : ∀ zs ys s, ys ++ zs = xs → J ys s →
      ∃ t, (zs.forM f).exec s = (.ok (), t) ∧ J xs t from hgen xs [] s rfl h
  intro zs
  induction zs with
  | nil =>
    rintro ys s rfl hs
    exact ⟨s, rfl, by simpa using hs⟩
  | cons z zs ih =>
    rintro ys s rfl hs
    obtain ⟨t, ht, hJ⟩ := hstep ys z ⟨zs, by simp⟩ s hs
    obtain ⟨u, hu, hJ⟩ := ih (ys ++ [z]) t (by simp) hJ
    refine ⟨u, ?_, hJ⟩
    rw [forM_cons, exec_bind_of_ok ht, hu]

/-- The results of a list up to the first item that raises. -/
def taken {γ : Type} (g : β → Except Exc γ) : List β → List γ
  | [] => []
  | b :: xs => match g b with
    | .ok c => c :: taken g xs
    | .error _ => []

theorem mem_taken {γ : Type} {g : β → Except Exc γ} {xs : List β} {c : γ} (h : c ∈ taken g xs) :
    ∃ b ∈ xs, g b = .ok c := by
  induction xs with
  | nil => cases h
  | cons b xs ih =>
    rw [taken] at h
    split at h
    · rename_i c' hb
      rcases List.mem_cons.mp h with rfl | h
      · exact ⟨b, by simp, hb⟩
      · obtain ⟨b', hb', hc⟩ := ih h
        exact ⟨b', by simp [hb'], hc⟩
    · cases h

/-- A loop whose rounds each add a result or raise: it adds the results of the rounds before the
first one that raises. -/
theorem exec_forM_taken {γ : Type} {f : β → Py σ Unit} {g : β → Except Exc γ}
    (put : List γ → σ) (xs : List β) (hf : ∀ b ∈ xs, ∀ cs, (f b).exec (put cs) = match g b with
      | .ok c => (.ok (), put (cs ++ [c]))
      | .error e => (.error e, put cs)) (cs : List γ) :
    ((xs.forM f).exec (put cs)).2 = put (cs ++ taken g xs) ∧
      (((xs.forM f).exec (put cs)).1 = .ok () ↔ ∀ b ∈ xs, ∃ c, g b = .ok c) := by
  induction xs generalizing cs with
  | nil => simp [taken, List.forM]
  | cons b xs ih =>
    have hround := hf b (by simp) cs
    rw [forM_cons, taken]
    cases hb : g b with
    | ok c =>
      rw [hb] at hround
      rw [exec_bind_of_ok hround]
      obtain ⟨hleft, hreturns⟩ := ih (fun b' hb' => hf b' (by simp [hb'])) (cs ++ [c])
      refine ⟨by simpa using hleft, ?_⟩
      rw [hreturns]
      simp [hb]
    | error e =>
      rw [hb] at hround
      rw [exec_bind_of_error hround]
      simp [hb]

theorem exists_forall₂_iff {γ : Type} {R : β → γ → Prop} {xs : List β} :
    (∃ cs, List.Forall₂ R xs cs) ↔ ∀ b ∈ xs, ∃ c, R b c := by
  induction xs with
  | nil => exact iff_of_true ⟨[], .nil⟩ (by simp)
  | cons b xs ih =>
    rw [List.forall_mem_cons, ← ih]
    constructor
    · rintro ⟨cs, hcs⟩
      cases hcs with
      | cons hc hcs => exact ⟨⟨_, hc⟩, _, hcs⟩
    · rintro ⟨⟨c, hc⟩, cs, hcs⟩
      exact ⟨c :: cs, .cons hc hcs⟩

/-- A loop whose rounds each add a result when they return: when it returns, it has added one result
for each item. -/
theorem exec_forM_ok_iff {γ : Type} {f : β → Py σ Unit} {R : β → γ → Prop} (put : List γ → σ)
    (xs : List β) (t : σ) (hf : ∀ b ∈ xs, ∀ cs t, (f b).exec (put cs) = (.ok (), t) ↔
      ∃ c, R b c ∧ t = put (cs ++ [c])) (cs : List γ) :
    (xs.forM f).exec (put cs) = (.ok (), t) ↔
      ∃ new, List.Forall₂ R xs new ∧ t = put (cs ++ new) := by
  induction xs generalizing cs with
  | nil => simp [List.forM, eq_comm]
  | cons b xs ih =>
    have hxs := ih fun b' hb' => hf b' (by simp [hb'])
    rw [forM_cons, exec_bind_ok]
    constructor
    · rintro ⟨⟨⟩, u, hb, hrest⟩
      obtain ⟨c, hc, rfl⟩ := (hf b (by simp) cs u).mp hb
      obtain ⟨new, hnew, rfl⟩ := (hxs (cs ++ [c])).mp hrest
      exact ⟨c :: new, .cons hc hnew, by simp⟩
    · rintro ⟨new, hnew, rfl⟩
      cases hnew with
      | @cons _ c _ new hc hnew =>
        refine ⟨(), put (cs ++ [c]), (hf b (by simp) cs _).mpr ⟨c, hc, rfl⟩, ?_⟩
        exact (hxs (cs ++ [c])).mpr ⟨new, hnew, by simp⟩

/-- A loop over the first numbers that returns, under an invariant of the states that it passes. -/
theorem forM_range_induction {f : ℕ → Py σ Unit} {J : ℕ → σ → Prop} {n : ℕ} {s t : σ} (h0 : J 0 s)
    (hstep : ∀ i < n, ∀ t u, ((List.range i).forM f).exec s = (.ok (), t) → J i t →
      (f i).exec t = (.ok (), u) → J (i + 1) u)
    (h : ((List.range n).forM f).exec s = (.ok (), t)) : J n t := by
  induction n generalizing t with
  | zero =>
    obtain ⟨-, rfl⟩ := Prod.mk.inj h
    exact h0
  | succ n ih =>
    rw [List.range_succ, forM_append] at h
    obtain ⟨⟨⟩, u, hu, h⟩ := exec_bind_ok.mp h
    rw [forM_cons] at h
    obtain ⟨⟨⟩, v, hv, h⟩ := exec_bind_ok.mp h
    obtain ⟨-, rfl⟩ := Prod.mk.inj h
    exact hstep n (Nat.lt_succ_self n) u v hu
      (ih (fun i hi => hstep i (Nat.lt_succ_of_lt hi)) hu) hv

/-- Lookups in a row, the first failure of which raises. -/
theorem exec_mapM_ofOption (e : Exc) (f : α → Option β) (xs : List α) (s : σ) :
    (xs.mapM fun x => (ofOption e (f x) : Py σ β)).exec s = match xs.mapM f with
      | some ys => (.ok ys, s)
      | none => (.error e, s) := by
  induction xs with
  | nil => rfl
  | cons x xs ih =>
    rw [List.mapM_cons, List.mapM_cons]
    cases f x with
    | none => rfl
    | some y =>
      rw [ofOption_some, pure_bind, exec_bind, ih]
      cases xs.mapM f <;> rfl

/-- Lookups in a row that all succeed and change nothing. -/
theorem exec_mapM {f : α → Py σ β} {g : α → β} {xs : List α} {s : σ}
    (h : ∀ x ∈ xs, (f x).exec s = (.ok (g x), s)) :
    (xs.mapM f).exec s = (.ok (xs.map g), s) := by
  induction xs with
  | nil => simp
  | cons x xs ih =>
    rw [List.mapM_cons, exec_bind_of_ok (h x (by simp)),
      exec_bind_of_ok (ih fun y hy => h y (by simp [hy]))]
    rfl

/-- A loop whose rounds all return, under an invariant of the rounds so far. -/
theorem foldlM_invariant {ε : Type} {f : σ → α → Except ε σ} {J : List α → σ → Prop}
    {xs : List α} (hstep : ∀ ys s, ∀ x ∈ xs, J ys s → ∃ t, f s x = .ok t ∧ J (ys ++ [x]) t)
    {s : σ} (h : J [] s) : ∃ t, xs.foldlM f s = .ok t ∧ J xs t := by
  suffices hgen : ∀ zs ⊆ xs, ∀ ys s, J ys s →
      ∃ t, zs.foldlM f s = .ok t ∧ J (ys ++ zs) t from hgen xs (List.Subset.refl xs) [] s h
  intro zs
  induction zs with
  | nil => exact fun _ ys s h => ⟨s, rfl, by simpa using h⟩
  | cons z zs ih =>
    intro hzs ys s h
    obtain ⟨t, ht, hz⟩ := hstep ys s z (hzs (by simp)) h
    obtain ⟨u, hu, hrest⟩ := ih (fun y hy => hzs (by simp [hy])) _ t hz
    refine ⟨u, ?_, by simpa using hrest⟩
    rw [List.foldlM_cons, ht]
    exact hu

/-- A loop whose rounds all return. -/
theorem foldlM_of_ok {ε : Type} {f : σ → α → Except ε σ} {g : σ → α → σ} {xs : List α}
    (h : ∀ s, ∀ x ∈ xs, f s x = .ok (g s x)) (s : σ) : xs.foldlM f s = .ok (xs.foldl g s) := by
  obtain ⟨t, ht, rfl⟩ := foldlM_invariant (J := fun ys t => t = ys.foldl g s)
    (fun ys t x hx ht => ⟨_, h t x hx, by simp [ht]⟩) rfl
  exact ht

/-- A loop whose rounds return or not whatever the state. -/
theorem foldlM_isOk_iff {ε : Type} {f : σ → α → Except ε σ} {R : α → Prop} {xs : List α}
    (hf : ∀ s, ∀ x ∈ xs, (∃ t, f s x = .ok t) ↔ R x) (s : σ) :
    (∃ t, xs.foldlM f s = .ok t) ↔ ∀ x ∈ xs, R x := by
  induction xs generalizing s with
  | nil => exact iff_of_true ⟨s, rfl⟩ (by simp)
  | cons x xs ih =>
    have hxs := ih fun s y hy => hf s y (by simp [hy])
    rw [List.forall_mem_cons, ← hf s x (by simp), List.foldlM_cons]
    constructor
    · rintro ⟨u, hu⟩
      rcases hx : f s x with e | t
      · rw [hx] at hu
        cases hu
      · rw [hx] at hu
        exact ⟨⟨t, rfl⟩, (hxs t).mp ⟨u, hu⟩⟩
    · rintro ⟨⟨t, ht⟩, hrest⟩
      rw [ht]
      exact (hxs t).mpr hrest

theorem mapM_cons_ok {ε : Type} {f : α → Except ε β} {x : α} {xs : List α} {zs : List β} :
    (x :: xs).mapM f = .ok zs ↔ ∃ y ys, f x = .ok y ∧ xs.mapM f = .ok ys ∧ zs = y :: ys := by
  rw [List.mapM_cons]
  rcases hx : f x with e | y
  · simp [bind, Except.bind]
  · rcases hxs : xs.mapM f with e | ys <;> simp [bind, Except.bind, pure, Except.pure, eq_comm]

theorem mapM_forall₂ {ε : Type} {f : α → Except ε β} {xs : List α} {R : α → β → Prop}
    (h : ∀ x ∈ xs, ∃ y, f x = .ok y ∧ R x y) : ∃ ys, xs.mapM f = .ok ys ∧ List.Forall₂ R xs ys := by
  induction xs with
  | nil => exact ⟨[], rfl, .nil⟩
  | cons x xs ih =>
    obtain ⟨y, hy, hR⟩ := h x (by simp)
    obtain ⟨ys, hys, hrest⟩ := ih fun z hz => h z (by simp [hz])
    exact ⟨y :: ys, mapM_cons_ok.mpr ⟨y, ys, hy, hys, rfl⟩, .cons hR hrest⟩

/-- The results are those of the items, one by one. -/
theorem mapM_ok_iff {ε : Type} {f : α → Except ε β} {xs : List α} {ys : List β} :
    xs.mapM f = .ok ys ↔ List.Forall₂ (fun x y => f x = .ok y) xs ys := by
  induction xs generalizing ys with
  | nil => simp [pure, Except.pure, eq_comm]
  | cons x xs ih => simp only [mapM_cons_ok, ih, List.forall₂_cons_left_iff]

theorem mapM_isOk_iff {ε : Type} {f : α → Except ε β} {xs : List α} :
    (∃ ys, xs.mapM f = .ok ys) ↔ ∀ x ∈ xs, ∃ y, f x = .ok y := by
  simp only [mapM_ok_iff]
  exact exists_forall₂_iff

theorem length_of_mapM {ε : Type} {f : α → Except ε β} {xs : List α} {ys : List β}
    (h : xs.mapM f = .ok ys) : ys.length = xs.length := (mapM_ok_iff.mp h).length_eq.symm

theorem mem_mapM_ok {ε : Type} {f : α → Except ε β} {xs : List α} {ys : List β}
    (h : xs.mapM f = .ok ys) (y : β) : y ∈ ys ↔ ∃ x ∈ xs, f x = .ok y := by
  induction mapM_ok_iff.mp h with
  | nil => simp
  | cons hx hrest ih => simp [hx, ih (mapM_ok_iff.mpr hrest), eq_comm]

/-- An error that no item raises. -/
theorem mapM_ne_error {ε : Type} {f : α → Except ε β} {e : ε} {xs : List α}
    (hf : ∀ x, f x ≠ .error e) : xs.mapM f ≠ .error e := by
  induction xs with
  | nil =>
    intro h
    cases h
  | cons x xs ih =>
    rw [List.mapM_cons]
    intro h
    rcases hx : f x with e' | y
    · simp only [hx, bind, Except.bind] at h
      obtain rfl := Except.error.inj h
      exact hf x hx
    · rcases hxs : xs.mapM f with e' | ys
      · simp only [hx, hxs, bind, Except.bind] at h
        obtain rfl := Except.error.inj h
        exact ih hxs
      · simp only [hx, hxs, bind, Except.bind, pure, Except.pure] at h
        cases h

/-! Invariants: `x` keeps `I` whether it returns or raises. -/

def Keeps (I : σ → Prop) (x : Py σ α) : Prop := ∀ s, I s → I (x.exec s).2

theorem Keeps.pure (a : α) : Keeps I (Pure.pure a : Py σ α) := fun _ h => h

theorem Keeps.throw (e : Exc) : Keeps I (throw e : Py σ α) := fun _ h => h

theorem Keeps.get : Keeps I (MonadState.get : Py σ σ) := fun _ h => h

theorem Keeps.modify {f : σ → σ} (hf : ∀ s, I s → I (f s)) :
    Keeps I (modify f : Py σ Unit) := hf

theorem Keeps.ofOption (e : Exc) (o : Option α) : Keeps I (ofOption e o : Py σ α) := by
  cases o
  · exact Keeps.throw e
  · exact Keeps.pure _

theorem Keeps.ofExcept (r : Except Exc α) : Keeps I (ofExcept r : Py σ α) := by
  cases r
  · exact Keeps.throw _
  · exact Keeps.pure _

/-- What `x` establishes, whatever its outcome, and the rest keeps. -/
theorem Keeps.after {x : Py σ α} {f : α → Py σ β} {s : σ} (hx : I (x.exec s).2)
    (hf : ∀ a, Keeps I (f a)) : I ((x >>= f).exec s).2 := by
  rw [exec_bind]
  rcases h : x.exec s with ⟨e | a, t⟩
  · simpa [h] using hx
  · simpa [h] using hf a t (by simpa [h] using hx)

theorem Keeps.bind {x : Py σ α} {f : α → Py σ β} (hx : Keeps I x)
    (hf : ∀ a, Keeps I (f a)) : Keeps I (x >>= f) := fun s hs => Keeps.after (hx s hs) hf

theorem Keeps.map {x : Py σ α} (hx : Keeps I x) {g : α → β} : Keeps I (g <$> x) := by
  intro s hs
  rw [exec_map]
  exact hx s hs

theorem Keeps.zoom {τ : Type} {read : σ → τ} {write : σ → τ → σ} {J : τ → Prop} {x : Py τ α}
    (hx : Keeps J x) (hread : ∀ s, I s → J (read s))
    (hwrite : ∀ s t, I s → J t → I (write s t)) : Keeps I (zoom read write x) := by
  intro s hs
  rw [exec_zoom]
  exact hwrite s _ hs (hx _ (hread s hs))

/-- What writes to one part only keeps what is said of the others. -/
theorem Keeps.zoom_frame {τ : Type} {read : σ → τ} {write : σ → τ → σ}
    (hwrite : ∀ s t, I s → I (write s t)) (x : Py τ α) : Keeps I (Py.zoom read write x) :=
  Keeps.zoom (J := fun _ => True) (fun _ _ => trivial) (fun _ _ => trivial)
    fun s t hs _ => hwrite s t hs

theorem Keeps.ite {p : Prop} [Decidable p] {x y : Py σ α} (hx : Keeps I x)
    (hy : Keeps I y) : Keeps I (if p then x else y) := by
  split
  · exact hx
  · exact hy

theorem Keeps.forM {xs : List β} {f : β → Py σ PUnit} (hf : ∀ b ∈ xs, Keeps I (f b)) :
    Keeps I (xs.forM f) := by
  induction xs with
  | nil => exact Keeps.pure _
  | cons b xs ih =>
    refine Keeps.bind (hf b (by simp)) fun _ => ih fun c hc => hf c (by simp [hc])

theorem Keeps.foldlM {xs : List β} {f : α → β → Py σ α} (hf : ∀ a, ∀ b ∈ xs, Keeps I (f a b))
    (a : α) : Keeps I (xs.foldlM f a) := by
  induction xs generalizing a with
  | nil => exact Keeps.pure _
  | cons b xs ih =>
    exact Keeps.bind (hf a b (by simp)) fun a => ih (fun a c hc => hf a c (by simp [hc])) a

theorem Keeps.mapM {xs : List β} {f : β → Py σ α} (hf : ∀ b ∈ xs, Keeps I (f b)) :
    Keeps I (xs.mapM f) := by
  induction xs with
  | nil => exact Keeps.pure _
  | cons b xs ih =>
    rw [List.mapM_cons]
    exact Keeps.bind (hf b (by simp)) fun _ =>
      Keeps.bind (ih fun c hc => hf c (by simp [hc])) fun _ => Keeps.pure _

/-! Computations that only read, and what holds of their results. -/

def Reads (x : Py σ α) (Q : α → Prop) : Prop :=
  ∀ s, (x.exec s).2 = s ∧ ∀ a, (x.exec s).1 = .ok a → Q a

namespace Reads
variable {x : Py σ α} {f : α → Py σ β} {Q : α → Prop} {R : β → Prop}

theorem pure {a : α} (h : Q a) : Reads (Pure.pure a : Py σ α) Q := by
  refine fun s => ⟨rfl, fun b hb => ?_⟩
  cases hb
  exact h

theorem ofOption {e : Exc} {o : Option α} (h : ∀ a, o = some a → Q a) :
    Reads (Py.ofOption e o : Py σ α) Q := by
  cases o with
  | some a => exact pure (h a rfl)
  | none =>
    refine fun s => ⟨rfl, fun b hb => ?_⟩
    cases hb

theorem ofExcept {r : Except Exc α} (h : ∀ a, r = .ok a → Q a) :
    Reads (Py.ofExcept r : Py σ α) Q := by
  refine fun s => ⟨by rw [exec_ofExcept], fun a ha => h a ?_⟩
  rwa [exec_ofExcept] at ha

theorem bind (hx : Reads x Q) (hf : ∀ a, Q a → Reads (f a) R) : Reads (x >>= f) R := by
  intro s
  obtain ⟨hs, hQ⟩ := hx s
  rw [exec_bind]
  rcases h : x.exec s with ⟨e | a, t⟩
  · rw [h] at hs
    refine ⟨hs, fun b hb => ?_⟩
    cases hb
  · rw [h] at hs hQ
    obtain rfl : t = s := hs
    exact hf a (hQ a rfl) t

theorem map {g : α → β} (hx : Reads x Q) (hg : ∀ a, Q a → R (g a)) : Reads (g <$> x) R := by
  rw [map_eq_pure_bind]
  exact hx.bind fun a ha => pure (hg a ha)

theorem mapM {xs : List β} {f : β → Py σ α} {R : β → α → Prop}
    (hf : ∀ b ∈ xs, Reads (f b) (R b)) :
    Reads (xs.mapM f) fun ys => ∀ a ∈ ys, ∃ b ∈ xs, R b a := by
  induction xs with
  | nil => exact pure (by simp)
  | cons b xs ih =>
    rw [List.mapM_cons]
    refine (hf b (by simp)).bind fun a ha => ?_
    refine (ih fun c hc => hf c (by simp [hc])).bind fun ys hys => pure fun c hc => ?_
    rcases List.mem_cons.mp hc with rfl | hc
    · exact ⟨b, by simp, ha⟩
    · obtain ⟨b', hb', hR⟩ := hys c hc
      exact ⟨b', by simp [hb'], hR⟩

end Reads

theorem Keeps.afterReads {x : Py σ α} {f : α → Py σ β} {Q : α → Prop} (hx : Reads x Q)
    (hf : ∀ a, Q a → Keeps I (f a)) : Keeps I (x >>= f) := by
  intro s hs
  obtain ⟨hstate, hQ⟩ := hx s
  rw [exec_bind]
  rcases h : x.exec s with ⟨e | a, t⟩
  · rw [h] at hstate
    exact hstate ▸ hs
  · rw [h] at hstate hQ
    obtain rfl : t = s := hstate
    exact hf a (hQ a rfl) t hs

/-! Whether a computation returns, when that does not depend on the state. -/

def Returns (x : Py σ α) (s : σ) : Prop := ∃ a t, x.exec s = (.ok a, t)

def ReturnsIff (x : Py σ α) (P : Prop) : Prop := ∀ s, x.Returns s ↔ P

namespace ReturnsIff
variable {x : Py σ α} {f : α → Py σ β} {P Q : Prop}

theorem congr (h : ReturnsIff x P) (hpq : P ↔ Q) : ReturnsIff x Q := fun s => (h s).trans hpq

theorem pure (a : α) : ReturnsIff (Pure.pure a : Py σ α) True :=
  fun s => iff_of_true ⟨a, s, rfl⟩ trivial

theorem modify (f : σ → σ) : ReturnsIff (modify f : Py σ PUnit) True :=
  fun s => iff_of_true ⟨_, f s, rfl⟩ trivial

theorem ofOption (e : Exc) (o : Option α) :
    ReturnsIff (ofOption e o : Py σ α) (∃ a, o = some a) := by
  intro s
  simp [Returns, exec_ofOption_ok]

theorem bind (hx : ReturnsIff x P) (hf : ∀ a, ReturnsIff (f a) Q) :
    ReturnsIff (x >>= f) (P ∧ Q) := by
  intro s
  constructor
  · rintro ⟨b, u, h⟩
    obtain ⟨a, t, ha, hb⟩ := exec_bind_ok.mp h
    exact ⟨(hx s).mp ⟨a, t, ha⟩, (hf a t).mp ⟨b, u, hb⟩⟩
  · rintro ⟨hp, hq⟩
    obtain ⟨a, t, ha⟩ := (hx s).mpr hp
    obtain ⟨b, u, hb⟩ := (hf a t).mpr hq
    exact ⟨b, u, exec_bind_ok.mpr ⟨a, t, ha, hb⟩⟩

/-- A lookup whose result the rest depends on. -/
theorem ofOption_bind {e : Exc} {o : Option α} {R : α → Prop}
    (hf : ∀ a, o = some a → ReturnsIff (f a) (R a)) :
    ReturnsIff (Py.ofOption e o >>= f) (∃ a, o = some a ∧ R a) := by
  intro s
  cases o with
  | none =>
    refine iff_of_false ?_ (by simp)
    rintro ⟨b, u, h⟩
    cases h
  | some a => simpa using hf a rfl s

theorem ofExcept_bind {r : Except Exc α} {R : α → Prop}
    (hf : ∀ a, r = .ok a → ReturnsIff (f a) (R a)) :
    ReturnsIff (Py.ofExcept r >>= f) (∃ a, r = .ok a ∧ R a) := by
  intro s
  cases r with
  | error e =>
    refine iff_of_false ?_ (by simp)
    rintro ⟨b, u, h⟩
    cases h
  | ok a => simpa [Py.ofExcept] using hf a rfl s

theorem ite {p : Prop} [Decidable p] {y : Py σ α} (hx : ReturnsIff x P) (hy : ReturnsIff y P) :
    ReturnsIff (if p then x else y) P := by
  split
  · exact hx
  · exact hy

theorem map {g : α → β} (h : ReturnsIff x P) : ReturnsIff (g <$> x) P := by
  rw [map_eq_pure_bind]
  exact (h.bind fun a => pure (g a)).congr (and_iff_left trivial)

theorem foldlM {xs : List β} {f : α → β → Py σ α} {R : β → Prop}
    (hf : ∀ a, ∀ b ∈ xs, ReturnsIff (f a b) (R b)) (a : α) :
    ReturnsIff (xs.foldlM f a) (∀ b ∈ xs, R b) := by
  induction xs generalizing a with
  | nil => exact (pure a).congr (by simp)
  | cons b xs ih =>
    rw [List.foldlM_cons]
    exact ((hf a b (by simp)).bind fun a => ih (fun a c hc => hf a c (by simp [hc])) a).congr
      (by simp)

theorem forM {xs : List β} {f : β → Py σ PUnit} {R : β → Prop}
    (hf : ∀ b ∈ xs, ReturnsIff (f b) (R b)) : ReturnsIff (xs.forM f) (∀ b ∈ xs, R b) := by
  induction xs with
  | nil => exact (pure _).congr (by simp)
  | cons b xs ih =>
    exact ((hf b (by simp)).bind fun _ => ih fun c hc => hf c (by simp [hc])).congr (by simp)

theorem mapM {xs : List β} {f : β → Py σ α} {R : β → Prop}
    (hf : ∀ b ∈ xs, ReturnsIff (f b) (R b)) : ReturnsIff (xs.mapM f) (∀ b ∈ xs, R b) := by
  induction xs with
  | nil => exact (pure _).congr (by simp)
  | cons b xs ih =>
    rw [List.mapM_cons]
    have hxs := ih fun c hc => hf c (by simp [hc])
    exact ((hf b (by simp)).bind fun _ => hxs.bind fun _ => pure _).congr (by simp)

end ReturnsIff

end Py
end SDRoute
