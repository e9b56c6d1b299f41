import SDRoute.Lib.Py

/-! Triples: from a state with `P`, a computation returns with `Q`, or raises one of the
exceptions `E`. -/
namespace SDRoute.Py

variable {σ α β : Type} {P R : σ → Prop} {Q : α → σ → Prop} {S : β → σ → Prop} {E : Exc → Prop}

def Triple (P : σ → Prop) (x : Py σ α) (Q : α → σ → Prop) (E : Exc → Prop) : Prop :=
  ∀ s, P s → match x.exec s with
    | (.ok a, t) => Q a t
    | (.error e, _) => E e

namespace Triple

theorem pure {a : α} (h : ∀ s, P s → Q a s) : Triple P (Pure.pure a) Q E := h

theorem throw {e : Exc} (he : E e) : Triple P (throw e : Py σ α) Q E := fun _ _ => he

theorem get {Q : σ → σ → Prop} (h : ∀ s, P s → Q s s) :
    Triple P (MonadState.get : Py σ σ) Q E := h

theorem set {Q : PUnit → σ → Prop} {t : σ} (h : ∀ s, P s → Q ⟨⟩ t) :
    Triple P (MonadStateOf.set t : Py σ PUnit) Q E := h

theorem modify {Q : PUnit → σ → Prop} {f : σ → σ} (h : ∀ s, P s → Q ⟨⟩ (f s)) :
    Triple P (modify f : Py σ PUnit) Q E := h

theorem ofOption {e : Exc} {o : Option α} (hnone : o = none → E e)
    (hsome : ∀ a, o = some a → ∀ s, P s → Q a s) : Triple P (ofOption e o) Q E := by
  cases o with
  | none => exact throw (hnone rfl)
  | some a => exact pure (hsome a rfl)

theorem ofExcept {r : Except Exc α} (herror : ∀ e, r = .error e → E e)
    (hok : ∀ a, r = .ok a → ∀ s, P s → Q a s) : Triple P (ofExcept r) Q E := by
  cases r with
  | error e => exact throw (herror e rfl)
  | ok a => exact pure (hok a rfl)

theorem bind {x : Py σ α} {f : α → Py σ β} (hx : Triple P x Q E)
    (hf : ∀ a, Triple (Q a) (f a) S E) : Triple P (x >>= f) S E := by
  intro s hs
  have hQ := hx s hs
  rw [exec_bind]
  rcases h : x.exec s with ⟨e | a, t⟩
  · rwa [h] at hQ
  · rw [h] at hQ
    exact hf a t hQ

theorem conseq {x : Py σ α} {Q' : α → σ → Prop} {E' : Exc → Prop} (h : Triple P x Q E)
    (hpre : ∀ s, R s → P s) (hpost : ∀ a s, Q a s → Q' a s) (hexc : ∀ e, E e → E' e) :
    Triple R x Q' E' := by
  intro s hs
  have hQ := h s (hpre s hs)
  rcases hx : x.exec s with ⟨e | a, t⟩
  · rw [hx] at hQ
    exact hexc e hQ
  · rw [hx] at hQ
    exact hpost a t hQ

theorem pre {x : Py σ α} (h : Triple P x Q E) (hpre : ∀ s, R s → P s) : Triple R x Q E :=
  h.conseq hpre (fun _ _ h => h) fun _ h => h

theorem post {x : Py σ α} {Q' : α → σ → Prop} (h : Triple P x Q E)
    (hpost : ∀ a s, Q a s → Q' a s) : Triple P x Q' E :=
  h.conseq (fun _ h => h) hpost fun _ h => h

theorem exc {x : Py σ α} {E' : Exc → Prop} (h : Triple P x Q E) (hexc : ∀ e, E e → E' e) :
    Triple P x Q E' :=
  h.conseq (fun _ h => h) (fun _ _ h => h) hexc

theorem ite {p : Prop} [Decidable p] {x y : Py σ α} (hx : p → Triple P x Q E)
    (hy : ¬ p → Triple P y Q E) : Triple P (if p then x else y) Q E := by
  split
  · exact hx ‹_›
  · exact hy ‹_›

/-- Facts that hold of the state before can be used as facts of the proof. -/
theorem intro {x : Py σ α} (h : ∀ s, P s → Triple (· = s) x Q E) : Triple P x Q E :=
  fun s hs => h s hs s rfl

/-- Nothing but such facts is used. -/
theorem facts {x : Py σ α} (h : ∀ s, P s → Triple (fun _ => True) x Q E) : Triple P x Q E :=
  fun s hs => h s hs s trivial

/-- The state that a computation starts with is read. -/
theorem reads {f : σ → Py σ α} (h : ∀ s, P s → Triple (· = s) (f s) Q E) :
    Triple P (MonadState.get >>= f) Q E := fun s hs => h s hs s rfl

/-- A part of the state is changed, the rest is kept. -/
theorem zoom {τ : Type} {read : σ → τ} {write : σ → τ → σ} {x : Py τ α} {J : τ → Prop}
    {K : α → τ → Prop} (hx : Triple J x K E) (hread : ∀ s, P s → J (read s))
    (hwrite : ∀ a s t, P s → K a t → Q a (write s t)) : Triple P (zoom read write x) Q E := by
  intro s hs
  have hK := hx (read s) (hread s hs)
  rw [exec_zoom]
  rcases h : x.exec (read s) with ⟨e | a, t⟩
  · rwa [h] at hK
  · rw [h] at hK
    exact hwrite a s t hs hK

/-- A loop over a list, with the rounds before and the rounds to come. -/
theorem forM_split (xs : List α) {f : α → Py σ PUnit} {J : List α → σ → Prop}
    (hf : ∀ ys x zs, xs = ys ++ x :: zs → Triple (J ys) (f x) (fun _ => J (ys ++ [x])) E) :
    Triple (J []) (xs.forM f) (fun _ => J xs) E := by
  suffices hgen : ∀ zs ys, xs = ys ++ zs → Triple (J ys) (zs.forM f) (fun _ => J xs) E from
    hgen xs [] rfl
  intro zs
  induction zs with
  | nil =>
    intro ys hys
    rw [List.append_nil] at hys
    exact pure fun s h => hys ▸ h
  | cons z zs ih =>
    intro ys hys
    exact bind (hf ys z zs hys) fun _ => ih (ys ++ [z]) (by simpa using hys)

/-- A loop over a list, under an invariant of the rounds so far. -/
theorem forM {xs : List α} {f : α → Py σ PUnit} {J : List α → σ → Prop}
    (hf : ∀ ys, ∀ x ∈ xs, Triple (J ys) (f x) (fun _ => J (ys ++ [x])) E) :
    Triple (J []) (xs.forM f) (fun _ => J xs) E := by
  refine forM_split xs fun ys x zs hxs => hf ys x ?_
  simp [hxs]

theorem foldlM {xs : List β} {f : α → β → Py σ α} {J : List β → α → σ → Prop}
    (hf : ∀ ys a, ∀ x ∈ xs, Triple (J ys a) (f a x) (J (ys ++ [x])) E) (a : α) :
    Triple (J [] a) (xs.foldlM f a) (J xs) E := by
  suffices hgen : ∀ zs ⊆ xs, ∀ ys a, Triple (J ys a) (zs.foldlM f a) (J (ys ++ zs)) E from
    hgen xs (List.Subset.refl xs) [] a
  intro zs
  induction zs with
  | nil => exact fun _ ys a => pure fun s h => by simpa using h
  | cons z zs ih =>
    intro hzs ys a
    rw [List.foldlM_cons]
    refine bind (hf ys a z (hzs (by simp))) fun b => ?_
    exact (ih (fun y hy => hzs (by simp [hy])) (ys ++ [z]) b).post fun _ s h => by simpa using h

/-- A loop over the first numbers, under an invariant of the number reached. -/
theorem foldlM_range {n : ℕ} {f : α → ℕ → Py σ α} {J : ℕ → α → σ → Prop}
    (hf : ∀ i < n, ∀ a, Triple (J i a) (f a i) (J (i + 1)) E) (a : α) :
    Triple (J 0 a) ((List.range n).foldlM f a) (J n) E := by
  suffices hgen : ∀ m k a, k + m = n →
      Triple (J k a) ((List.range' k m).foldlM f a) (J n) E by
    rw [List.range_eq_range']
    exact hgen n 0 a (Nat.zero_add n)
  intro m
  induction m with
  | zero =>
    rintro k a rfl
    exact pure fun _ h => h
  | succ m ih =>
    intro k a hk
    rw [List.range'_succ, List.foldlM_cons]
    exact bind (hf k (by omega) a) fun b => ih (k + 1) b (by omega)

/-- A loop over a list that collects results. -/
theorem mapM {xs : List β} {f : β → Py σ α} {R : α → β → Prop} {J : σ → Prop}
    (hf : ∀ x ∈ xs, Triple J (f x) (fun y s => J s ∧ R y x) E) :
    Triple J (xs.mapM f) (fun ys s => J s ∧ List.Forall₂ R ys xs) E := by
  induction xs with
  | nil => exact pure fun s hs => ⟨hs, .nil⟩
  | cons x xs ih =>
    rw [List.mapM_cons]
    refine bind (hf x (by simp)) fun y => intro fun s hy => ?_
    refine bind ((ih fun z hz => hf z (by simp [hz])).pre ?_) fun ys => pure fun t hys => ?_
    · rintro _ rfl
      exact hy.1
    · exact ⟨hys.1, .cons hy.2 hys.2⟩

/-- A loop over the first numbers, under an invariant of the number reached. -/
theorem forM_range {n : ℕ} {f : ℕ → Py σ PUnit} {J : ℕ → σ → Prop}
    (hf : ∀ i < n, Triple (J i) (f i) (fun _ => J (i + 1)) E) :
    Triple (J 0) ((List.range n).forM f) (fun _ => J n) E := by
  suffices hgen : ∀ m k, k + m = n →
      Triple (J k) ((List.range' k m).forM f) (fun _ => J n) E by
    rw [List.range_eq_range']
    exact hgen n 0 (Nat.zero_add n)
  intro m
  induction m with
  | zero =>
    rintro k rfl
    exact pure fun _ h => h
  | succ m ih =>
    intro k hk
    rw [List.range'_succ]
    exact bind (hf k (by omega)) fun _ => ih (k + 1) (by omega)

theorem ok {x : Py σ α} {s t : σ} {a : α} (h : Triple P x Q E) (hs : P s)
    (hx : x.exec s = (.ok a, t)) : Q a t := by
  have hQ := h s hs
  rwa [hx] at hQ

/-- Without exceptions it returns. -/
theorem returns {x : Py σ α} {s : σ} (h : Triple P x Q fun _ => False) (hs : P s) :
    ∃ a t, x.exec s = (.ok a, t) ∧ Q a t := by
  have hQ := h s hs
  rcases hx : x.exec s with ⟨e | a, t⟩
  · rw [hx] at hQ
    exact hQ.elim
  · rw [hx] at hQ
    exact ⟨a, t, rfl, hQ⟩

end Triple

/-! Triples that also say what an exception leaves. -/

def Ensures (P : σ → Prop) (x : Py σ α) (Q : α → σ → Prop) (I : σ → Prop) : Prop :=
  ∀ s, P s → match x.exec s with
    | (.ok a, t) => Q a t
    | (.error _, t) => I t

namespace Ensures
variable {I : σ → Prop}

theorem of_keeps {x : Py σ α} (h : Keeps I x) : Ensures I x (fun _ => I) I := by
  intro s hs
  have ht := h s hs
  rcases hx : x.exec s with ⟨e | a, t⟩ <;> rwa [hx] at ht

theorem keeps {x : Py σ α} (h : Ensures I x (fun _ => I) I) : Keeps I x := by
  intro s hs
  have ht := h s hs
  rcases hx : x.exec s with ⟨e | a, t⟩ <;> rwa [hx] at ht

/-- What a computation keeps, and what it returns. -/
theorem of_triple {x : Py σ α} (hx : Keeps I x) (h : Triple P x Q E) (hP : ∀ s, P s → I s) :
    Ensures P x (fun a t => I t ∧ Q a t) I := by
  intro s hs
  have hI := hx s (hP s hs)
  have hQ := h s hs
  rcases hexec : x.exec s with ⟨e | a, t⟩
  · rwa [hexec] at hI
  · rw [hexec] at hI hQ
    exact ⟨hI, hQ⟩

theorem of_total {x : Py σ α} (h : Triple P x Q fun _ => False) : Ensures P x Q I := by
  intro s hs
  obtain ⟨a, t, hexec, hQ⟩ := h.returns hs
  rwa [hexec]

theorem bind {x : Py σ α} {f : α → Py σ β} (hx : Ensures P x Q I)
    (hf : ∀ a, Ensures (Q a) (f a) S I) : Ensures P (x >>= f) S I := by
  intro s hs
  have hQ := hx s hs
  rw [exec_bind]
  rcases h : x.exec s with ⟨e | a, t⟩
  · rwa [h] at hQ
  · rw [h] at hQ
    exact hf a t hQ

theorem conseq {x : Py σ α} {Q' : α → σ → Prop} (h : Ensures P x Q I)
    (hpre : ∀ s, R s → P s) (hpost : ∀ a s, Q a s → Q' a s) : Ensures R x Q' I := by
  intro s hs
  have hQ := h s (hpre s hs)
  rcases hx : x.exec s with ⟨e | a, t⟩
  · rwa [hx] at hQ
  · rw [hx] at hQ
    exact hpost a t hQ

theorem exc {x : Py σ α} {J : σ → Prop} (h : Ensures P x Q I) (hI : ∀ s, I s → J s) :
    Ensures P x Q J := by
  intro s hs
  have hQ := h s hs
  rcases hx : x.exec s with ⟨e | a, t⟩
  · rw [hx] at hQ
    exact hI t hQ
  · rwa [hx] at hQ

theorem intro {x : Py σ α} (h : ∀ s, P s → Ensures (· = s) x Q I) : Ensures P x Q I :=
  fun s hs => h s hs s rfl

theorem reads {f : σ → Py σ α} (h : ∀ s, P s → Ensures (· = s) (f s) Q I) :
    Ensures P (MonadState.get >>= f) Q I := fun s hs => h s hs s rfl

theorem pure {a : α} (h : ∀ s, P s → Q a s) : Ensures P (Pure.pure a) Q I := h

theorem modify {Q : PUnit → σ → Prop} {f : σ → σ} (h : ∀ s, P s → Q ⟨⟩ (f s)) :
    Ensures P (modify f : Py σ PUnit) Q I := h

theorem ofOption {e : Exc} {o : Option α} (hnone : ∀ s, P s → I s)
    (hsome : ∀ a, o = some a → ∀ s, P s → Q a s) : Ensures P (ofOption e o) Q I := by
  cases o with
  | none => exact hnone
  | some a => exact hsome a rfl

theorem ofExcept {r : Except Exc α} (herror : ∀ s, P s → I s)
    (hok : ∀ a, r = .ok a → ∀ s, P s → Q a s) : Ensures P (ofExcept r) Q I := by
  cases r with
  | error e => exact herror
  | ok a => exact hok a rfl

theorem ite {p : Prop} [Decidable p] {x y : Py σ α} (hx : p → Ensures P x Q I)
    (hy : ¬ p → Ensures P y Q I) : Ensures P (if p then x else y) Q I := by
  split
  · exact hx ‹_›
  · exact hy ‹_›

/-- A loop over a list, under an invariant of the number of rounds so far. -/
theorem forM {xs : List α} {f : α → Py σ PUnit} {J : ℕ → σ → Prop}
    (hf : ∀ n, ∀ x ∈ xs, Ensures (J n) (f x) (fun _ => J (n + 1)) I) (n : ℕ) :
    Ensures (J n) (xs.forM f) (fun _ => J (n + xs.length)) I := by
  induction xs generalizing n with
  | nil => exact pure fun _ h => h
  | cons x xs ih =>
    refine bind (hf n x (by simp)) fun _ => ?_
    refine (ih (fun m y hy => hf m y (by simp [hy])) (n + 1)).conseq (fun _ h => h) fun _ s h => ?_
    rwa [List.length_cons, Nat.add_comm xs.length, ← Nat.add_assoc]

end Ensures
end SDRoute.Py
