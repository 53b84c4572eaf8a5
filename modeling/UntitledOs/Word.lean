import Mathlib.Data.Nat.Basic
import Mathlib.Tactic

/-!
Unsigned machine words as natural numbers.  Addresses, sizes and counters of
the kernel are `uint64_t`/`size_t`; the model keeps them as `Nat` and reduces
with `u64` wherever the source computes in 64-bit arithmetic.
-/

namespace UntitledOs

def u64 (x : Nat) : Nat := x % 2 ^ 64

theorem u64_of_lt {x : Nat} (h : x < 2 ^ 64) : u64 x = x := Nat.mod_eq_of_lt h

/-- `a - b` on `uint64_t`. -/
def sub64 (a b : Nat) : Nat := u64 (a + 2 ^ 64 - b)

theorem sub64_of_le {a b : Nat} (h : b ≤ a) (ha : a < 2 ^ 64) :
    sub64 a b = a - b := by
  unfold sub64 u64
  rw [show a + 2 ^ 64 - b = (a - b) + 2 ^ 64 by omega, Nat.add_mod_right]
  exact Nat.mod_eq_of_lt (by omega)

end UntitledOs
