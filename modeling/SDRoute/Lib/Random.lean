import Mathlib.Data.Rat.Floor
import Mathlib.Algebra.Order.Field.Rat
import SDRoute.Lib.Triple

/-! Random draws: a stream of numbers that is consumed from the front. A property of every
stream is a property of every sequence of draws. -/
namespace SDRoute

/-- A number of the interval [0, 1). -/
structure Draw where
  val : ℚ
  nonneg : 0 ≤ val
  lt_one : val < 1

namespace Draw

def zero : Draw := ⟨0, le_rfl, zero_lt_one⟩

def half : Draw := ⟨1 / 2, by norm_num, by norm_num⟩

def nineTenths : Draw := ⟨9 / 10, by norm_num, by norm_num⟩

@[simp] theorem val_zero : zero.val = 0 := rfl

@[simp] theorem val_half : half.val = 1 / 2 := rfl

@[simp] theorem val_nineTenths : nineTenths.val = 9 / 10 := rfl

end Draw

abbrev Rng := ℕ → Draw

namespace Rng
variable {α : Type} {E : Exc → Prop}

def random : Py Rng ℚ := do
  let draws ← get
  set (fun n => draws (n + 1) : Rng)
  return (draws 0).val

/-- `int(random() * n)`: an index below `n`. -/
def index (n : ℕ) : Py Rng ℕ := do
  let r ← random
  return ⌊r * n⌋.toNat

def randint (a b : ℤ) : Py Rng ℤ := do
  if b + 1 - a ≤ 0 then throw .valueError
  let r ← random
  return a + ⌊r * (b + 1 - a)⌋

def swap (xs : List α) (i j : ℕ) : List α :=
  match xs[i]?, xs[j]? with
  | some a, some b => (xs.set i b).set j a
  | _, _ => xs

/-- From the last place to the second one, each entry is swapped with one up to it. -/
def shuffle (xs : List α) : Py Rng (List α) :=
  (List.range' 1 (xs.length - 1)).reverse.foldlM (fun xs i => do
    let j ← index (i + 1)
    return swap xs i j) xs

theorem triple_random :
    Py.Triple (fun _ => True) random (fun r _ => 0 ≤ r ∧ r < 1) E := by
  refine Py.Triple.bind (Q := fun _ _ => True) (Py.Triple.get fun _ _ => trivial) fun draws => ?_
  refine Py.Triple.bind (Q := fun _ _ => True) (Py.Triple.set fun _ _ => trivial) fun _ => ?_
  exact Py.Triple.pure fun _ _ => ⟨(draws 0).nonneg, (draws 0).lt_one⟩

theorem floor_lt {r : ℚ} {n : ℤ} (h0 : 0 ≤ r) (h1 : r < 1) (hn : 0 < n) :
    0 ≤ ⌊r * n⌋ ∧ ⌊r * n⌋ < n := by
  have hn' : (0 : ℚ) < n := by exact_mod_cast hn
  refine ⟨Int.floor_nonneg.mpr (mul_nonneg h0 hn'.le), Int.floor_lt.mpr ?_⟩
  nlinarith

theorem triple_index {n : ℕ} (hn : 0 < n) :
    Py.Triple (fun _ => True) (index n) (fun i _ => i < n) E := by
  refine Py.Triple.bind triple_random fun r => Py.Triple.pure fun _ hr => ?_
  have hfloor := floor_lt (n := n) hr.1 hr.2 (by omega)
  simp only [Int.cast_natCast] at hfloor
  omega

/-- There is nothing below zero, which is drawn then. -/
theorem triple_index_le (n : ℕ) : Py.Triple (fun _ => True) (index n) (fun i _ => i ≤ n) E := by
  rcases n.eq_zero_or_pos with rfl | hn
  · refine Py.Triple.bind triple_random fun r => Py.Triple.pure fun _ _ => ?_
    simp
  · exact (triple_index hn).post fun i _ hi => hi.le

/-- An empty range is an error. -/
theorem triple_randint {a b : ℤ} (h : b < a → E .valueError) :
    Py.Triple (fun _ => True) (randint a b) (fun r _ => a ≤ r ∧ r ≤ b) E := by
  unfold randint
  split
  · exact Py.Triple.bind (Q := fun _ _ => False) (Py.Triple.throw (h (by omega)))
      fun _ _ hs => hs.elim
  · refine Py.Triple.bind triple_random fun r => Py.Triple.pure fun _ hr => ?_
    have hfloor := floor_lt (n := b + 1 - a) hr.1 hr.2 (by omega)
    push_cast at hfloor
    omega

theorem swap_perm (xs : List α) (i j : ℕ) : (swap xs i j).Perm xs := by
  unfold swap
  split
  · rename_i a b ha hb
    obtain ⟨hi, rfl⟩ := List.getElem?_eq_some_iff.mp ha
    obtain ⟨hj, rfl⟩ := List.getElem?_eq_some_iff.mp hb
    exact List.set_set_perm hi hj
  · exact .refl _

/-- Swaps at drawn places. -/
theorem triple_swaps (is : List ℕ) (bound : ℕ → ℕ) (xs : List α) :
    Py.Triple (fun _ => True)
      (is.foldlM (fun xs i => do
        let j ← index (bound i)
        return swap xs i j) xs) (fun ys _ => ys.Perm xs) E := by
  refine (Py.Triple.foldlM (J := fun _ ys _ => ys.Perm xs) (fun _ ys i _ => ?_) xs).pre
    fun _ _ => .refl _
  refine Py.Triple.intro fun draws hperm => ?_
  refine Py.Triple.bind ((triple_index_le (bound i)).pre fun _ _ => trivial) fun j => ?_
  exact Py.Triple.pure fun _ _ => (swap_perm ys i j).trans hperm

theorem triple_shuffle (xs : List α) :
    Py.Triple (fun _ => True) (shuffle xs) (fun ys _ => ys.Perm xs) E :=
  triple_swaps _ (· + 1) xs

end Rng
end SDRoute
