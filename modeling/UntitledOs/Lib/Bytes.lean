import Mathlib.Tactic

/-!
# Byte memories

The memory behind a pointer, and the medium of a drive, as a byte for every
offset.  Words are stored with their least significant byte first.
-/

namespace UntitledOs.Lib

abbrev Byte := BitVec 8

abbrev Bytes := Nat → Byte

/-- `memcpy(dst + off, src, n)`. -/
def copyTo (dst : Bytes) (off : Nat) (src : Bytes) (n : Nat) : Bytes := fun i =>
  if off ≤ i ∧ i < off + n then src (i - off) else dst i

/-- The `n` bytes at `a` as one number. -/
def getLe (m : Bytes) (a : Nat) : Nat → Nat
  | 0 => 0
  | n + 1 => (m a).toNat + 256 * getLe m (a + 1) n

def setLe (m : Bytes) (a n v : Nat) : Bytes :=
  copyTo m a (fun i => BitVec.ofNat 8 (v / 256 ^ i)) n

theorem copyTo_of_lt {dst src : Bytes} {off n i : Nat} (h : i < off) :
    copyTo dst off src n i = dst i := by
  unfold copyTo
  exact if_neg (by omega)

theorem copyTo_of_ge {dst src : Bytes} {off n i : Nat} (h : off + n ≤ i) :
    copyTo dst off src n i = dst i := by
  unfold copyTo
  exact if_neg (by omega)

theorem copyTo_add {dst src : Bytes} {off n i : Nat} (h : i < n) :
    copyTo dst off src n (off + i) = src i := by
  unfold copyTo
  rw [if_pos (by omega), Nat.add_sub_cancel_left]

theorem getLe_congr {m m' : Bytes} {a n : Nat} (h : ∀ i < n, m' (a + i) = m (a + i)) :
    getLe m' a n = getLe m a n := by
  induction n generalizing a with
  | zero => rfl
  | succ n ih =>
      have htail := ih (a := a + 1) fun i hi => by
        have := h (i + 1) (by omega)
        rwa [show a + (i + 1) = a + 1 + i by omega] at this
      have hhead := h 0 (by omega)
      rw [Nat.add_zero] at hhead
      rw [getLe, getLe, htail, hhead]

/-- The word at the same offset of a copy. -/
theorem getLe_copyTo {dst src : Bytes} {off a n k : Nat} (h : a + n ≤ k) :
    getLe (copyTo dst off src k) (off + a) n = getLe src a n := by
  induction n generalizing a with
  | zero => rfl
  | succ n ih =>
      have htail := ih (a := a + 1) (by omega)
      rw [getLe, getLe, copyTo_add (by omega), Nat.add_assoc, htail]

theorem getLe_shift (m : Bytes) (o a n : Nat) :
    getLe (fun i => m (o + i)) a n = getLe m (o + a) n := by
  induction n generalizing a with
  | zero => rfl
  | succ n ih =>
      rw [getLe, getLe, ih]
      rfl

theorem getLe_zero {m : Bytes} {a n : Nat} (h : ∀ i < n, m (a + i) = 0) : getLe m a n = 0 := by
  induction n generalizing a with
  | zero => rfl
  | succ n ih =>
      have htail := ih (a := a + 1) fun i hi => by
        have := h (i + 1) (by omega)
        rwa [show a + (i + 1) = a + 1 + i by omega] at this
      have hhead := h 0 (by omega)
      rw [Nat.add_zero] at hhead
      rw [getLe, htail, hhead]
      rfl

theorem getLe_lt (m : Bytes) (a n : Nat) : getLe m a n < 256 ^ n := by
  induction n generalizing a with
  | zero => exact Nat.one_pos
  | succ n ih =>
      have hhead := (m a).isLt
      have htail := ih (a + 1)
      rw [getLe, pow_succ]
      omega

/-- The word over two ranges of bytes, one behind the other. -/
theorem getLe_add (m : Bytes) (a j k : Nat) :
    getLe m a (j + k) = getLe m a j + 256 ^ j * getLe m (a + j) k := by
  induction j generalizing a with
  | zero => simp [getLe]
  | succ j ih =>
      rw [Nat.succ_add, getLe, getLe, ih, show a + 1 + j = a + (j + 1) by omega, pow_succ]
      ring

/-- A byte of a word. -/
theorem getLe_byte (m : Bytes) (a : Nat) {i n : Nat} (h : i < n) :
    BitVec.ofNat 8 (getLe m a n / 256 ^ i) = m (a + i) := by
  induction n generalizing a i with
  | zero => omega
  | succ n ih =>
      have hhead := (m a).isLt
      rw [getLe]
      cases i with
      | zero =>
          apply BitVec.eq_of_toNat_eq
          rw [pow_zero, Nat.div_one, BitVec.toNat_ofNat]
          change _ = (m a).toNat
          omega
      | succ i =>
          have htail := ih (a + 1) (show i < n by omega)
          rw [pow_succ', ← Nat.div_div_eq_div_mul,
            show ((m a).toNat + 256 * getLe m (a + 1) n) / 256 = getLe m (a + 1) n by omega, htail]
          exact congrArg m (by omega)

theorem getLe_digits (v s n : Nat) :
    getLe (fun i => BitVec.ofNat 8 (v / 256 ^ i)) s n = v / 256 ^ s % 256 ^ n := by
  induction n generalizing s with
  | zero => simp [getLe, Nat.mod_one]
  | succ n ih =>
      have hdiv : v / 256 ^ (s + 1) = v / 256 ^ s / 256 := by
        rw [Nat.pow_succ, Nat.div_div_eq_div_mul]
      rw [getLe, ih, hdiv, Nat.pow_succ', Nat.mod_mul, BitVec.toNat_ofNat]

theorem getLe_setLe_le (m : Bytes) (a v : Nat) {n k : Nat} (h : k ≤ n) :
    getLe (setLe m a n v) a k = v % 256 ^ k := by
  have hcopy := @getLe_copyTo m (fun i => BitVec.ofNat 8 (v / 256 ^ i)) a 0 k n (by omega)
  rw [Nat.add_zero, getLe_digits, Nat.pow_zero, Nat.div_one] at hcopy
  exact hcopy

/-- A word that was stored is read back. -/
theorem getLe_setLe (m : Bytes) (a n v : Nat) : getLe (setLe m a n v) a n = v % 256 ^ n :=
  getLe_setLe_le m a v (le_refl n)

theorem setLe_of_outside {m : Bytes} {a n v i : Nat} (h : i < a ∨ a + n ≤ i) :
    setLe m a n v i = m i := by
  unfold setLe
  rcases h with h | h
  · exact copyTo_of_lt h
  · exact copyTo_of_ge h

theorem getLe_setLe_of_disjoint {m : Bytes} {a n v b k : Nat} (h : b + k ≤ a ∨ a + n ≤ b) :
    getLe (setLe m a n v) b k = getLe m b k := by
  exact getLe_congr fun i hi => setLe_of_outside (by omega)

theorem copyTo_copyTo {dst src : Bytes} {off a b : Nat} :
    copyTo (copyTo dst off src a) (off + a) (fun i => src (a + i)) b = copyTo dst off src (a + b) := by
  funext i
  unfold copyTo
  by_cases hlow : i < off + a
  · rw [if_neg (by omega)]
    by_cases hin : off ≤ i
    · rw [if_pos ⟨hin, hlow⟩, if_pos (by omega)]
    · rw [if_neg (by omega), if_neg (by omega)]
  · by_cases hin : i < off + a + b
    · rw [if_pos (by omega), if_pos (by omega)]
      exact congrArg src (by omega)
    · rw [if_neg (by omega), if_neg (by omega), if_neg (by omega)]

theorem copyTo_congr {dst src src' : Bytes} {off n : Nat} (h : ∀ i < n, src i = src' i) :
    copyTo dst off src n = copyTo dst off src' n := by
  funext i
  unfold copyTo
  split
  · exact h _ (by omega)
  · rfl

/-- `k` units of `w` bytes within one memory, copied one after another from the front. -/
def copyUnits (w : Nat) : Nat → Bytes → Nat → Nat → Bytes
  | 0, m, _, _ => m
  | k + 1, m, dst, src =>
      copyUnits w k (copyTo m dst (fun i => m (src + i)) w) (dst + w) (src + w)

/-- A copy from the front is exact when it does not run into bytes still to be read. -/
theorem copyUnits_eq (w k : Nat) (m : Bytes) {dst src : Nat}
    (h : dst ≤ src ∨ src + w * k ≤ dst) :
    copyUnits w k m dst src = copyTo m dst (fun i => m (src + i)) (w * k) := by
  induction k generalizing m dst src with
  | zero =>
      funext i
      unfold copyUnits copyTo
      rw [if_neg (by omega)]
  | succ k ih =>
      have hsucc : w * (k + 1) = w + w * k := by ring
      unfold copyUnits
      rw [ih _ (by omega), hsucc, ← copyTo_copyTo]
      refine copyTo_congr fun i hi => ?_
      rw [Nat.add_assoc src w i]
      rcases h with h | h
      · exact copyTo_of_ge (by omega)
      · exact copyTo_of_lt (by omega)

/-- `memcpy` within one memory: words first, then the rest byte by byte. -/
def memcpy (m : Bytes) (dst src n : Nat) : Bytes :=
  copyUnits 1 (n % 8) (copyUnits 8 (n / 8) m dst src) (dst + 8 * (n / 8)) (src + 8 * (n / 8))

theorem memcpy_eq (m : Bytes) {dst src n : Nat} (h : dst ≤ src ∨ src + n ≤ dst) :
    memcpy m dst src n = copyTo m dst (fun i => m (src + i)) n := by
  have hn := Nat.div_add_mod n 8
  unfold memcpy
  rw [copyUnits_eq 8 _ m (by omega), copyUnits_eq 1 _ _ (by omega), Nat.one_mul]
  conv_rhs => rw [← hn, ← copyTo_copyTo]
  refine copyTo_congr fun i hi => ?_
  rw [Nat.add_assoc src]
  rcases h with h | h
  · exact copyTo_of_ge (by omega)
  · exact copyTo_of_lt (by omega)

theorem copyUnits_of_outside (w k : Nat) (m : Bytes) {dst src i : Nat}
    (h : i < dst ∨ dst + w * k ≤ i) : copyUnits w k m dst src i = m i := by
  induction k generalizing m dst src with
  | zero => rfl
  | succ k ih =>
      have hsucc : w * (k + 1) = w + w * k := by ring
      unfold copyUnits
      rw [ih _ (by omega)]
      rcases h with h | h
      · exact copyTo_of_lt h
      · exact copyTo_of_ge (by omega)

theorem memcpy_of_outside (m : Bytes) {dst src n i : Nat} (h : i < dst ∨ dst + n ≤ i) :
    memcpy m dst src n i = m i := by
  have hn := Nat.div_add_mod n 8
  unfold memcpy
  rw [copyUnits_of_outside 1 _ _ (by omega), copyUnits_of_outside 8 _ _ (by omega)]

/-- Bit `k` of a bitmap: the bits of a byte count from its most significant one. -/
def bitAt (m : Bytes) (k : Nat) : Bool := (m (k / 8)).getMsbD (k % 8)

/-- One byte of a memory replaced. -/
def setByte (m : Bytes) (a : Nat) (b : Byte) : Bytes := fun i => if i = a then b else m i

def bitMask (bit : Nat) : Byte := 1#8 <<< (7 - bit)

theorem getMsbD_bitMask {i j : Nat} (hi : i < 8) (hj : j < 8) :
    (bitMask j).getMsbD i = decide (i = j) := by
  have h : ∀ i < 8, ∀ j < 8, (bitMask j).getMsbD i = decide (i = j) := by decide
  exact h i hi j hj

theorem bitAt_or (m : Bytes) (a : Nat) {j : Nat} (hj : j < 8) (k : Nat) :
    bitAt (setByte m a (m a ||| bitMask j)) k = (bitAt m k || decide (k = 8 * a + j)) := by
  unfold bitAt setByte
  have hk : k % 8 < 8 := Nat.mod_lt _ (by decide)
  by_cases ha : k / 8 = a
  · rw [if_pos ha, BitVec.getMsbD_or, getMsbD_bitMask hk hj, ha]
    congr 1
    exact decide_eq_decide.mpr (by omega)
  · rw [if_neg ha, show decide (k = 8 * a + j) = false from decide_eq_false (by omega),
      Bool.or_false]

theorem bitAt_andNot (m : Bytes) (a : Nat) {j : Nat} (hj : j < 8) (k : Nat) :
    bitAt (setByte m a (m a &&& ~~~bitMask j)) k = (bitAt m k && !decide (k = 8 * a + j)) := by
  unfold bitAt setByte
  have hk : k % 8 < 8 := Nat.mod_lt _ (by decide)
  by_cases ha : k / 8 = a
  · rw [if_pos ha, BitVec.getMsbD_and, BitVec.getMsbD_not, getMsbD_bitMask hk hj, ha]
    have hdec : decide (k % 8 = j) = decide (k = 8 * a + j) := decide_eq_decide.mpr (by omega)
    rw [hdec, decide_eq_true hk, Bool.true_and]
  · rw [if_neg ha, show decide (k = 8 * a + j) = false from decide_eq_false (by omega),
      Bool.not_false, Bool.and_true]

end UntitledOs.Lib
