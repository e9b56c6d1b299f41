import Mathlib.Data.List.Induction
import Mathlib.Order.Lattice
import Mathlib.Data.List.Perm.Basic

/-! Insertion sort in place: a key sinks to its place among the entries before it. The scan does
not stop there, but nothing further down is greater than the key. -/
namespace SDRoute.InPlace

variable {α : Type} {greater : α → α → Bool} {key : α} {xs ys l : List α} {n : ℕ}

/-- The entry at each place below `n`, from the last one on, changes places with the key above
it if it is greater. -/
def sink (greater : α → α → Bool) (key : α) : ℕ → List α → List α
  | 0, l => l
  | j + 1, l => sink greater key j (match l[j]? with
    | some a => if greater a key then (l.set (j + 1) a).set j key else l
    | none => l)

def sortRound (greater : α → α → Bool) (l : List α) (i : ℕ) : List α :=
  match l[i]? with
  | some key => sink greater key i l
  | none => l

def sort (greater : α → α → Bool) (l : List α) : List α :=
  (List.range' 1 (l.length - 1)).foldl (sortRound greater) l

/-- The comparison of a linear order. -/
structure Compares (greater : α → α → Bool) : Prop where
  asymm {a b} : greater a b = true → greater b a = false
  trans {a b c} : greater a b = false → greater b c = false → greater a c = false

def Sorted (greater : α → α → Bool) : List α → Prop :=
  List.Pairwise fun a b => greater a b = false

theorem compares_lt {K : Type} [LinearOrder K] (f : α → K) :
    Compares fun a b => decide (f b < f a) := by
  refine ⟨fun h => ?_, fun hab hbc => ?_⟩
  · simp only [decide_eq_true_eq, decide_eq_false_iff_not, not_lt] at h ⊢
    exact h.le
  · simp only [decide_eq_false_iff_not, not_lt] at hab hbc ⊢
    exact hab.trans hbc

theorem sink_of_le (h : ∀ a ∈ l.take n, greater a key = false) : sink greater key n l = l := by
  induction n with
  | zero => rfl
  | succ n ih =>
    have hstays : (match l[n]? with
        | some a => if greater a key then (l.set (n + 1) a).set n key else l
        | none => l) = l := by
      split
      · rename_i a ha
        have hmem : a ∈ l.take (n + 1) := by
          rw [List.take_add_one, ha]
          simp
        simp [h a hmem]
      · rfl
    rw [sink, hstays]
    exact ih fun a ha => h a ((List.take_subset_take_left l (Nat.le_succ n)) ha)

namespace Compares

/-- The key ends between the entries that are greater and those that are not. -/
theorem sink_sorted (h : Compares greater) (hsorted : Sorted greater xs) :
    sink greater key xs.length (xs ++ key :: ys) =
      xs.filter (!greater · key) ++ key :: (xs.filter (greater · key) ++ ys) := by
  induction xs using List.reverseRecOn generalizing ys with
  | nil => rfl
  | append_singleton xs a ih =>
    obtain ⟨hxs, -, hlast⟩ := List.pairwise_append.mp hsorted
    have ha : ((xs ++ [a]) ++ key :: ys)[xs.length]? = some a := by simp
    by_cases hgreater : greater a key
    · have hswap : (((xs ++ [a]) ++ key :: ys).set (xs.length + 1) a).set xs.length key =
          xs ++ key :: (a :: ys) := by
        simp
      rw [List.length_append, List.length_singleton, sink, ha]
      simp only [hgreater, if_true]
      rw [hswap, ih hxs]
      simp [hgreater]
    · rw [Bool.not_eq_true] at hgreater
      have hbelow : ∀ b ∈ xs ++ [a], greater b key = false := by
        intro b hb
        rcases List.mem_append.mp hb with hb | hb
        · exact h.trans (hlast b hb a (by simp)) hgreater
        · rwa [List.mem_singleton.mp hb]
      have hnone : (xs ++ [a]).filter (greater · key) = [] :=
        List.filter_eq_nil_iff.mpr fun b hb => by simp [hbelow b hb]
      have hall : (xs ++ [a]).filter (!greater · key) = xs ++ [a] :=
        List.filter_eq_self.mpr fun b hb => by simp [hbelow b hb]
      rw [hnone, hall, List.nil_append]
      refine sink_of_le fun b hb => hbelow b ?_
      rwa [List.take_left] at hb

/-- In a sorted list what is not greater than the key stands before what is greater. -/
theorem filter_append_filter (h : Compares greater) (hsorted : Sorted greater xs) :
    xs.filter (!greater · key) ++ xs.filter (greater · key) = xs := by
  induction xs with
  | nil => rfl
  | cons a xs ih =>
    obtain ⟨hlast, hxs⟩ := List.pairwise_cons.mp hsorted
    by_cases hgreater : greater a key
    · have hall : ∀ b ∈ a :: xs, greater b key = true := by
        intro b hb
        rcases List.mem_cons.mp hb with rfl | hb
        · exact hgreater
        · by_contra hle
          rw [Bool.not_eq_true] at hle
          rw [h.trans (hlast b hb) hle] at hgreater
          cases hgreater
      rw [List.filter_eq_nil_iff.mpr fun b hb => by simp [hall b hb],
        List.filter_eq_self.mpr hall, List.nil_append]
    · simp [hgreater, ih hxs]

theorem sorted_sink (h : Compares greater) (hsorted : Sorted greater xs) :
    Sorted greater (xs.filter (!greater · key) ++ key :: xs.filter (greater · key)) := by
  refine List.pairwise_append.mpr ⟨hsorted.filter _, List.pairwise_cons.mpr
    ⟨fun a ha => h.asymm (List.mem_filter.mp ha).2, hsorted.filter _⟩, fun a ha b hb => ?_⟩
  have hle : greater a key = false := by simpa using (List.mem_filter.mp ha).2
  rcases List.mem_cons.mp hb with rfl | hb
  · exact hle
  · exact h.trans hle (h.asymm (List.mem_filter.mp hb).2)

end Compares

theorem sink_perm (greater : α → α → Bool) (key : α) (xs ys : List α) :
    (xs.filter (!greater · key) ++ key :: (xs.filter (greater · key) ++ ys)).Perm
      (xs ++ key :: ys) := by
  have hparts := (List.perm_append_comm.trans (List.filter_append_perm (greater · key) xs))
  refine List.perm_middle.trans (List.Perm.trans ?_ List.perm_middle.symm)
  rw [← List.append_assoc]
  exact (hparts.append_right ys).cons key

/-- Entries of which none is greater than another one. -/
def Tied (greater : α → α → Bool) (p : α → Bool) : Prop :=
  ∀ a b, p a = true → p b = true → greater a b = false

/-- The key passes no entry that it is tied with. -/
theorem filter_sink (h : Compares greater) (hsorted : Sorted greater xs) {p : α → Bool}
    (hp : Tied greater p) :
    (xs.filter (!greater · key) ++ key :: xs.filter (greater · key)).filter p =
      (xs ++ [key]).filter p := by
  have hparts : (xs.filter (!greater · key) ++ xs.filter (greater · key)).filter p = xs.filter p :=
    congrArg (List.filter p) (h.filter_append_filter hsorted)
  rw [List.filter_append] at hparts
  rw [List.filter_append, List.filter_append, List.filter_cons]
  by_cases hkey : p key
  · have hnone : (xs.filter (greater · key)).filter p = [] := by
      refine List.filter_eq_nil_iff.mpr fun a ha hpa => ?_
      have hgreater := (List.mem_filter.mp ha).2
      rw [hp a key hpa hkey] at hgreater
      cases hgreater
    rw [hnone, List.append_nil] at hparts
    simp only [hkey, hnone, hparts, List.filter_cons, if_true, List.filter_nil]
  · simp only [hkey, hparts, List.filter_cons, List.filter_nil, Bool.false_eq_true, if_false,
      List.append_nil]

/-- After `n` rounds the first `n + 1` places are sorted, and ties stand as they did. -/
theorem sorted_rounds (h : Compares greater) (hn : n + 1 ≤ l.length) :
    ∃ xs ys, (List.range' 1 n).foldl (sortRound greater) l = xs ++ ys ∧ xs.length = n + 1 ∧
      Sorted greater xs ∧ (xs ++ ys).Perm l ∧
      ∀ p, Tied greater p → (xs ++ ys).filter p = l.filter p := by
  induction n with
  | zero =>
    cases l with
    | nil => simp at hn
    | cons a l =>
      exact ⟨[a], l, rfl, rfl, List.pairwise_singleton _ _, .refl _, fun _ _ => rfl⟩
  | succ n ih =>
    obtain ⟨xs, ys, hfold, hxs, hsorted, hperm, htied⟩ := ih (by omega)
    have hlength := hperm.length_eq
    rw [List.length_append] at hlength
    cases ys with
    | nil =>
      rw [List.length_nil] at hlength
      omega
    | cons key ys =>
      have hkey : (xs ++ key :: ys)[1 + n]? = some key := by
        rw [show 1 + n = xs.length by omega]
        simp
      refine ⟨xs.filter (!greater · key) ++ key :: xs.filter (greater · key), ys, ?_, ?_,
        h.sorted_sink hsorted, ?_, fun p hp => ?_⟩
      · rw [List.range'_concat, List.foldl_append, hfold]
        simp only [Nat.one_mul, List.foldl_cons, List.foldl_nil, sortRound, hkey]
        rw [show 1 + n = xs.length by omega, h.sink_sorted hsorted]
        simp
      · have hparts := (sink_perm greater key xs []).length_eq
        simp only [List.append_nil] at hparts
        rw [hparts, List.length_append, hxs]
        rfl
      · refine List.Perm.trans ?_ hperm
        simpa using sink_perm greater key xs ys
      · rw [← htied p hp, List.filter_append, filter_sink h hsorted hp, ← List.filter_append]
        simp

/-- The sort returns its list, sorted, and leaves ties in their order. -/
theorem sort_spec (h : Compares greater) (l : List α) :
    (sort greater l).Perm l ∧ Sorted greater (sort greater l) ∧
      ∀ p, Tied greater p → (sort greater l).filter p = l.filter p := by
  cases hl : l.length with
  | zero =>
    obtain rfl := List.length_eq_zero_iff.mp hl
    exact ⟨.refl _, .nil, fun _ _ => rfl⟩
  | succ n =>
    have hlen : n + 1 ≤ l.length := by omega
    obtain ⟨xs, ys, hfold, hxs, hsorted, hperm, htied⟩ := sorted_rounds h hlen
    have hys : ys = [] := by
      have hlength := hperm.length_eq
      rw [List.length_append] at hlength
      exact List.length_eq_zero_iff.mp (by omega)
    rw [hys, List.append_nil] at hfold hperm htied
    rw [sort, hl, Nat.add_sub_cancel, hfold]
    exact ⟨hperm, hsorted, htied⟩

theorem sort_perm (h : Compares greater) (l : List α) : (sort greater l).Perm l :=
  (sort_spec h l).1

theorem sort_sorted (h : Compares greater) (l : List α) : Sorted greater (sort greater l) :=
  (sort_spec h l).2.1

theorem sort_stable (h : Compares greater) (l : List α) {p : α → Bool} (hp : Tied greater p) :
    (sort greater l).filter p = l.filter p := (sort_spec h l).2.2 p hp

end SDRoute.InPlace
