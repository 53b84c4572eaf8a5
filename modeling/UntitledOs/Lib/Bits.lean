import Mathlib.Data.Nat.Bitwise
import Mathlib.Tactic

/-!
# Fields of machine words

Masks and shifts of words as natural numbers, in terms of division.
-/

namespace UntitledOs.Lib

theorem shiftRight_and_mask (x s k : Nat) : (x >>> s) &&& ((1 <<< k) - 1) = x / 2 ^ s % 2 ^ k := by
  rw [Nat.one_shiftLeft, Nat.and_two_pow_sub_one_eq_mod, Nat.shiftRight_eq_div_pow]

/-- A mask of `k` bits from bit `s` on. -/
theorem and_mask (x s k : Nat) : x &&& ((2 ^ k - 1) <<< s) = 2 ^ s * (x / 2 ^ s % 2 ^ k) := by
  refine Nat.eq_of_testBit_eq fun i => ?_
  rw [Nat.testBit_and, Nat.testBit_shiftLeft, Nat.testBit_two_pow_sub_one, Nat.testBit_two_pow_mul,
    Nat.testBit_mod_two_pow, Nat.testBit_div_two_pow]
  by_cases hi : s ≤ i
  · rw [Nat.sub_add_cancel hi, decide_eq_true (show i ≥ s from hi)]
    cases x.testBit i <;> simp
  · simp [hi]

theorem or_eq_add {y : Nat} (f k : Nat) (h : y < 2 ^ k) : 2 ^ k * f ||| y = 2 ^ k * f + y :=
  (Nat.two_pow_add_eq_or_of_lt h f).symm

/-- A flag is set when its bit is. -/
theorem and_flag_ne_zero (x k : Nat) : x &&& (1 <<< k) ≠ 0 ↔ x.testBit k = true := by
  rw [Nat.one_shiftLeft, Nat.and_two_pow]
  cases x.testBit k <;> simp

/-- Setting a flag that is set. -/
theorem or_flag {x k : Nat} (h : x.testBit k = true) : x ||| (1 <<< k) = x := by
  refine Nat.eq_of_testBit_eq fun i => ?_
  rw [Nat.testBit_or, Nat.one_shiftLeft, Nat.testBit_two_pow]
  by_cases hi : k = i
  · subst hi
    simp [h]
  · simp [hi]

end UntitledOs.Lib
