import Mathlib.Algebra.Order.Field.Power
import Mathlib.Data.Int.Log
import Mathlib.Data.Rat.Floor
import Mathlib.Tactic.FieldSimp
import Mathlib.Tactic.Linarith
import Mathlib.Tactic.Positivity

/-! Arithmetic whose results are rounded: exact rationals, and doubles. -/
namespace SDRoute

/-- How the result of an operation is rounded. It keeps the order, is rounded already when it is
rounded again, and integers of 53 bits are kept. -/
structure Rounding where
  round : ℚ → ℚ
  mono : Monotone round
  round_round : ∀ q, round (round q) = round q
  round_int : ∀ n : ℤ, |n| ≤ 2 ^ 53 → round n = n

namespace Rounding

/-- Nothing is rounded. -/
def rat : Rounding where
  round q := q
  mono := monotone_id
  round_round _ := rfl
  round_int _ _ := rfl

section operations
variable (A : Rounding)

def add (a b : ℚ) : ℚ := A.round (a + b)

def sub (a b : ℚ) : ℚ := A.round (a - b)

def mul (a b : ℚ) : ℚ := A.round (a * b)

def div (a b : ℚ) : ℚ := A.round (a / b)

/-- The terms are added one after the other. -/
def sum (qs : List ℚ) : ℚ := qs.foldl A.add 0

@[simp] theorem rat_add (a b : ℚ) : rat.add a b = a + b := rfl

end operations

variable {A : Rounding} {a b c d q : ℚ} {n : ℕ}

@[simp] theorem round_add : A.round (A.add a b) = A.add a b := A.round_round _

@[simp] theorem round_natCast (hn : n ≤ 2 ^ 53) : A.round n = n := by
  have hint := A.round_int n (by rw [Nat.abs_cast]; exact_mod_cast hn)
  simpa using hint

@[simp] theorem round_zero : A.round 0 = 0 := by
  simpa using round_natCast (A := A) (n := 0) (by positivity)

theorem round_one : A.round 1 = 1 := by
  simpa using round_natCast (A := A) (n := 1) (by norm_num)

theorem round_nonneg (hq : 0 ≤ q) : 0 ≤ A.round q := by
  simpa using A.mono hq

/-- A result that is not above an integer does not become larger than it. -/
theorem round_le_natCast (hq : q ≤ n) (hn : n ≤ 2 ^ 53) : A.round q ≤ n := by
  rw [← round_natCast (A := A) hn]
  exact A.mono hq

theorem add_mono (hab : a ≤ b) (hcd : c ≤ d) : A.add a c ≤ A.add b d :=
  A.mono (add_le_add hab hcd)

/-- What is added to a rounded number does not make it smaller, unless it is negative. -/
theorem le_add (ha : A.round a = a) (hb : 0 ≤ b) : a ≤ A.add a b := by
  conv_lhs => rw [← ha]
  exact A.mono (le_add_of_nonneg_right hb)

theorem nonneg_add (ha : 0 ≤ a) (hb : 0 ≤ b) : 0 ≤ A.add a b := round_nonneg (by positivity)

theorem nonneg_mul (ha : 0 ≤ a) (hb : 0 ≤ b) : 0 ≤ A.mul a b := round_nonneg (by positivity)

theorem nonneg_div (ha : 0 ≤ a) (hb : 0 ≤ b) : 0 ≤ A.div a b := round_nonneg (by positivity)

/-- What is at most one is, rounded, still not above one. -/
theorem one_sub_nonneg (ha : a ≤ 1) : 0 ≤ A.sub 1 (A.round a) := by
  have hround := A.mono ha
  rw [round_one] at hround
  exact round_nonneg (sub_nonneg.mpr hround)

theorem sum_concat (qs : List ℚ) (q : ℚ) : A.sum (qs ++ [q]) = A.add (A.sum qs) q :=
  List.foldl_concat ..

theorem nonneg_sum {qs : List ℚ} (h : ∀ q ∈ qs, 0 ≤ q) : 0 ≤ A.sum qs := by
  induction qs using List.reverseRecOn with
  | nil => exact le_rfl
  | append_singleton qs q ih =>
    rw [sum_concat]
    exact nonneg_add (ih fun r hr => h r (by simp [hr])) (h q (by simp))

/-- Few terms with a bound have a sum with a bound, however they are rounded. -/
theorem sum_le {qs : List ℚ} {bound : ℕ} (h : ∀ q ∈ qs, q ≤ bound)
    (hbound : qs.length * bound ≤ 2 ^ 53) : A.sum qs ≤ (qs.length * bound : ℕ) := by
  induction qs using List.reverseRecOn with
  | nil => exact Nat.cast_nonneg _
  | append_singleton qs q ih =>
    rw [List.length_append, List.length_singleton, Nat.succ_mul] at hbound ⊢
    rw [sum_concat]
    refine round_le_natCast ?_ hbound
    push_cast
    have hsum := ih (fun r hr => h r (by simp [hr])) ((Nat.le_add_right _ _).trans hbound)
    push_cast at hsum
    exact add_le_add hsum (h q (by simp))

/-! Doubles: the nearest number with 53 bits, and an even one if two are as near. -/

/-- The nearest integer, and the even one if two are as near. -/
def halfEven (q : ℚ) : ℤ :=
  if q - ⌊q⌋ < 1 / 2 ∨ q - ⌊q⌋ = 1 / 2 ∧ ⌊q⌋ % 2 = 0 then ⌊q⌋ else ⌊q⌋ + 1

theorem halfEven_intCast (n : ℤ) : halfEven n = n := by
  simp [halfEven]

theorem floor_le_halfEven (q : ℚ) : ⌊q⌋ ≤ halfEven q := by
  unfold halfEven
  split <;> omega

theorem halfEven_le_floor_succ (q : ℚ) : halfEven q ≤ ⌊q⌋ + 1 := by
  unfold halfEven
  split <;> omega

theorem halfEven_mono (hab : a ≤ b) : halfEven a ≤ halfEven b := by
  rcases Int.lt_or_eq_of_le (Int.floor_le_floor hab) with hlt | heq
  · have ha := halfEven_le_floor_succ a
    have hb := floor_le_halfEven b
    omega
  · unfold halfEven
    rw [heq]
    -- The fraction of the larger number is the larger one.
    split
    · split <;> omega
    · rename_i hup
      rw [if_neg]
      rw [not_or, not_and_or, not_lt] at hup ⊢
      obtain ⟨hhalf, hodd⟩ := hup
      refine ⟨by linarith, ?_⟩
      rcases hodd with hne | hodd
      · refine .inl fun hb => hne ?_
        linarith
      · exact .inr hodd

/-- The exponent of the last bit that a number of this size keeps. -/
def lastBit (q : ℚ) : ℤ := max (Int.log 2 q - 52) (-1074)

/-- A number that is not negative, with the bits that are kept. -/
def magnitude (q : ℚ) : ℚ := halfEven (q / 2 ^ lastBit q) * 2 ^ lastBit q

theorem two_zpow_pos (k : ℤ) : (0 : ℚ) < 2 ^ k := by positivity

/-- A power of two, counted in smaller powers, is an integer. -/
theorem zpow_div_zpow {j k : ℤ} (h : j ≤ k) :
    (2 : ℚ) ^ k = ((2 ^ (k - j).toNat : ℕ) : ℤ) * 2 ^ j := by
  rw [Nat.cast_pow, Nat.cast_ofNat, Int.cast_pow, Int.cast_ofNat, ← zpow_natCast,
    Int.toNat_of_nonneg (by omega), ← zpow_add₀ (by norm_num), Int.sub_add_cancel]

theorem magnitude_le {m : ℤ} (h : q ≤ m * 2 ^ lastBit q) :
    magnitude q ≤ m * 2 ^ lastBit q := by
  have hpos := two_zpow_pos (lastBit q)
  have hle := halfEven_mono ((div_le_iff₀ hpos).mpr h)
  rw [halfEven_intCast] at hle
  exact mul_le_mul_of_nonneg_right (by exact_mod_cast hle) hpos.le

theorem le_magnitude {m : ℤ} (h : m * 2 ^ lastBit q ≤ q) :
    m * 2 ^ lastBit q ≤ magnitude q := by
  have hpos := two_zpow_pos (lastBit q)
  have hle := halfEven_mono ((le_div_iff₀ hpos).mpr h)
  rw [halfEven_intCast] at hle
  exact mul_le_mul_of_nonneg_right (by exact_mod_cast hle) hpos.le

/-- What is a multiple of the last bit is kept. -/
theorem magnitude_eq {m : ℤ} (h : q = m * 2 ^ lastBit q) : magnitude q = q := by
  apply le_antisymm
  · conv_rhs => rw [h]
    exact magnitude_le h.le
  · conv_lhs => rw [h]
    exact le_magnitude h.ge

theorem magnitude_nonneg (hq : 0 ≤ q) : 0 ≤ magnitude q := by
  simpa using le_magnitude (q := q) (m := 0) (by simpa using hq)

@[simp] theorem magnitude_zero : magnitude 0 = 0 := magnitude_eq (m := 0) (by simp)

theorem lt_zpow_lastBit (q : ℚ) : q < 2 ^ (lastBit q + 53) := by
  refine (Int.lt_zpow_succ_log_self (by norm_num : 1 < 2) q).trans_le ?_
  refine zpow_le_zpow_right₀ (by norm_num) ?_
  unfold lastBit
  omega

/-- Above the smallest exponent the first of the 53 bits is one. -/
theorem zpow_lastBit_le (hq : 0 < q) (hlarge : -1074 < lastBit q) : 2 ^ (lastBit q + 52) ≤ q := by
  have hlog : lastBit q + 52 = Int.log 2 q := by
    unfold lastBit at hlarge ⊢
    omega
  rw [hlog]
  exact Int.zpow_log_le_self (by norm_num : 1 < 2) hq

theorem magnitude_mono (ha : 0 ≤ a) (hab : a ≤ b) : magnitude a ≤ magnitude b := by
  rcases ha.eq_or_lt with rfl | hpos
  · rw [magnitude_zero]
    exact magnitude_nonneg hab
  · have hlast : lastBit a ≤ lastBit b :=
      max_le_max (sub_le_sub_right (Int.log_mono_right hpos hab) _) le_rfl
    rcases hlast.lt_or_eq with hlt | heq
    · -- The first bit of the larger number is between the two.
      have hlow : -1074 ≤ lastBit a := le_max_right ..
      have hmid : (2 : ℚ) ^ (lastBit a + 53) ≤ 2 ^ (lastBit b + 52) :=
        zpow_le_zpow_right₀ (by norm_num) (by omega)
      calc magnitude a
          ≤ ((2 ^ (lastBit a + 53 - lastBit a).toNat : ℕ) : ℤ) * 2 ^ lastBit a :=
            magnitude_le (by
              rw [← zpow_div_zpow (by omega)]
              exact (lt_zpow_lastBit a).le)
        _ = 2 ^ (lastBit a + 53) := (zpow_div_zpow (by omega)).symm
        _ ≤ 2 ^ (lastBit b + 52) := hmid
        _ = ((2 ^ (lastBit b + 52 - lastBit b).toNat : ℕ) : ℤ) * 2 ^ lastBit b :=
            zpow_div_zpow (by omega)
        _ ≤ magnitude b := le_magnitude (by
              rw [← zpow_div_zpow (by omega)]
              exact zpow_lastBit_le (hpos.trans_le hab) (by omega))
    · rw [magnitude, magnitude, heq]
      have hdiv := div_le_div_of_nonneg_right hab (two_zpow_pos (lastBit b)).le
      exact mul_le_mul_of_nonneg_right (by exact_mod_cast halfEven_mono hdiv)
        (two_zpow_pos _).le

/-- The numbers with 53 bits are kept. -/
theorem magnitude_of_bits {m : ℕ} {k : ℤ} (hm : m ≤ 2 ^ 53) (hk : -1074 ≤ k) :
    magnitude (m * 2 ^ k) = m * 2 ^ k := by
  rcases Nat.eq_zero_or_pos m with rfl | hpos
  · simp
  generalize hq : (m : ℚ) * 2 ^ k = q
  rcases le_or_gt (lastBit q) k with hle | hlt
  · refine magnitude_eq (m := (m * 2 ^ (k - lastBit q).toNat : ℕ)) ?_
    conv_lhs => rw [← hq, zpow_div_zpow hle]
    push_cast
    ring
  · -- Only the power of two has an exponent that is larger.
    have hqpos : 0 < q := by
      rw [← hq]
      exact mul_pos (by exact_mod_cast hpos) (two_zpow_pos k)
    have hfirst := zpow_lastBit_le hqpos (hk.trans_lt hlt)
    have hlast : q = ((2 ^ 53 : ℕ) : ℚ) * 2 ^ k := by
      refine le_antisymm ?_ ?_
      · rw [← hq]
        exact mul_le_mul_of_nonneg_right (by exact_mod_cast hm) (two_zpow_pos k).le
      · refine le_trans (le_of_eq ?_) ((zpow_le_zpow_right₀ (by norm_num)
          (by omega : k + 53 ≤ lastBit q + 52)).trans hfirst)
        rw [zpow_add₀ (by norm_num), mul_comm]
        norm_num
    have hpower : q = 2 ^ (k + 53) := by
      rw [hlast, zpow_add₀ (by norm_num), mul_comm]
      norm_num
    have hbit : lastBit q ≤ k + 53 := by
      have hlog : Int.log 2 q = k + 53 := by
        rw [hpower]
        exact Int.log_zpow (by norm_num : 1 < 2) _
      unfold lastBit
      omega
    refine magnitude_eq (m := (2 ^ (k + 53 - lastBit q).toNat : ℕ)) ?_
    conv_lhs => rw [hpower]
    exact zpow_div_zpow hbit

theorem magnitude_magnitude (hq : 0 ≤ q) : magnitude (magnitude q) = magnitude q := by
  have hnonneg : 0 ≤ halfEven (q / 2 ^ lastBit q) :=
    (Int.floor_nonneg.mpr (div_nonneg hq (two_zpow_pos _).le)).trans (floor_le_halfEven _)
  obtain ⟨m, hm⟩ := Int.eq_ofNat_of_zero_le hnonneg
  have hbits : m ≤ 2 ^ 53 := by
    have hlt : q / 2 ^ lastBit q ≤ ((2 ^ 53 : ℤ) : ℚ) := by
      rw [div_le_iff₀ (two_zpow_pos _)]
      refine (lt_zpow_lastBit q).le.trans (le_of_eq ?_)
      rw [zpow_add₀ (by norm_num), mul_comm]
      norm_num
    have hle := halfEven_mono hlt
    rw [halfEven_intCast, hm] at hle
    exact_mod_cast hle
  have heq : magnitude q = m * 2 ^ lastBit q := by
    rw [magnitude, hm]
    norm_num
  rw [heq]
  exact magnitude_of_bits hbits (le_max_right ..)

/-- Doubles, as if there were no largest one. -/
def double : Rounding where
  round q := if 0 ≤ q then magnitude q else -magnitude (-q)
  mono := by
    intro a b hab
    dsimp only
    split
    · rename_i ha
      rw [if_pos (ha.trans hab)]
      exact magnitude_mono ha hab
    · rename_i ha
      rw [not_le] at ha
      split
      · rename_i hb
        exact (neg_nonpos.mpr (magnitude_nonneg (by linarith))).trans (magnitude_nonneg hb)
      · rename_i hb
        exact neg_le_neg (magnitude_mono (by linarith) (by linarith))
  round_round q := by
    by_cases hq : 0 ≤ q
    · simp only [if_pos hq, if_pos (magnitude_nonneg hq)]
      exact magnitude_magnitude hq
    · have hneg : 0 ≤ -q := by linarith
      simp only [if_neg hq]
      rcases (magnitude_nonneg hneg).eq_or_lt with hzero | hpos
      · simp [← hzero]
      · rw [if_neg (by linarith), neg_neg, magnitude_magnitude hneg]
  round_int n hn := by
    have hnat : ∀ m : ℕ, m ≤ 2 ^ 53 → magnitude m = m := fun m hm => by
      simpa using magnitude_of_bits (k := 0) hm (by norm_num)
    rcases Int.eq_nat_or_neg n with ⟨m, rfl | rfl⟩
    · rw [Nat.abs_cast] at hn
      have hm : magnitude m = m := hnat m (by exact_mod_cast hn)
      simp [hm]
    · rw [abs_neg, Nat.abs_cast] at hn
      have hm : magnitude m = m := hnat m (by exact_mod_cast hn)
      rcases Nat.eq_zero_or_pos m with rfl | hpos
      · simp
      · have hlt : ¬ (0 : ℚ) ≤ ((-(m : ℤ) : ℤ) : ℚ) := by
          push_cast
          have : (0 : ℚ) < m := by exact_mod_cast hpos
          linarith
        rw [if_neg hlt]
        push_cast
        rw [neg_neg, hm]

-- The literal 0.02.
example : double.round (2 / 100) = 5764607523034235 / 2 ^ 58 := by decide +kernel

end Rounding
end SDRoute
