import Mathlib.Data.Nat.Basic
import Mathlib.Tactic

/-!
Printing of numbers: the helpers behind `boot_log_printf` and `uart_printf`.
Every helper divides the value down into `int nums[24]` and replays the digits
backwards.  The array is uninitialised stack memory (`stack`).  What C leaves
undefined is `none`: an access outside the 24 entries, and a signed product that
overflows.
-/

namespace UntitledOs.Log

section Macros

variable {σ : Type*} (putchar : σ → Char → σ)

/-- The character constant `c` plus an `int`. -/
def charAdd (c : Char) (n : Int) : Char := Char.ofNat (c.toNat + n).toNat

/-- `while(num > 0){ nums[nums_i++] = num % base; num /= base; }`, for a base
above one. -/
def fillNums (base : Int) (num : Int) (nums : Vector Int 24) (nums_i : Nat) :
    Option (Vector Int 24 × Nat) :=
  if _h : 0 < num ∧ 1 < base then
    if nums_i < 24 then
      fillNums base (num / base) (nums.setIfInBounds nums_i (num % base)) (nums_i + 1)
    else none
  else some (nums, nums_i)
termination_by num.toNat
decreasing_by
  have hlt : num / base < num := Int.ediv_lt_self_of_pos_of_ne_one _h.1 (by omega)
  omega

/-- The `while(1)` loop that puts the digits, the most significant one first. -/
def replayNums (digit : Int → Char) (nums : Vector Int 24) (nums_i : Nat) (s : σ) : Option σ :=
  match nums[nums_i]? with
  | none => none
  | some n =>
      if nums_i = 0 then some (putchar s (digit n))
      else replayNums digit nums (nums_i - 1) (putchar s (digit n))
termination_by nums_i

/-- From the declaration of `nums` to the end; `nums_i--` is on `size_t`. -/
def putDigits (base : Int) (digit : Int → Char) (stack : Vector Int 24) (num : Int) (s : σ) :
    Option σ :=
  match fillNums base num stack 0 with
  | none => none
  | some (nums, nums_i) =>
      replayNums putchar digit nums (if nums_i = 0 then 2 ^ 64 - 1 else nums_i - 1) s

/-- A product in a signed type of `w` bits. -/
def mulSigned (w : Nat) (a b : Int) : Option Int :=
  if -2 ^ (w - 1) ≤ a * b ∧ a * b < 2 ^ (w - 1) then some (a * b) else none

/-- `DEF_*_PUT_NUM` -/
def putNum {w : Nat} (stack : Vector Int 24) (num : BitVec w) (s : σ) : Option σ :=
  if num = 0 then some (putchar s '0')
  else if num.toInt < 0 then
    (mulSigned w num.toInt (-1)).bind fun num =>
      putDigits putchar 10 (charAdd '0') stack num (putchar s '-')
  else putDigits putchar 10 (charAdd '0') stack num.toInt s

/-- `DEF_*_PUT_UNUM`. -/
def putUnum {w : Nat} (stack : Vector Int 24) (num : BitVec w) (s : σ) : Option σ :=
  if num = 0 then some (putchar s '0')
  else putDigits putchar 10 (charAdd '0') stack num.toNat s

/-- `DEF_*_PUT_NUM_HEXL` for `letter = 'a'`, `DEF_*_PUT_NUM_HEXU` for `letter = 'A'`. -/
def putNumHex (letter : Char) {w : Nat} (stack : Vector Int 24) (num : BitVec w) (s : σ) :
    Option σ :=
  if num = 0 then some (putchar s '0')
  else
    putDigits putchar 16
      (fun n => if n ≤ 9 then charAdd '0' n else charAdd letter (n - 10)) stack num.toNat s

end Macros

/-! ## The two families of helpers -/

/-- What has been written to the UART port, first byte first. -/
abbrev Uart := List Char

def uartPutchar (u : Uart) (c : Char) : Uart := u ++ [c]

/-- `boot_log_write` sends every byte to the terminal and then to the UART. -/
structure BootLog where
  term : List Char
  uart : Uart

def bootLogPutchar (l : BootLog) (c : Char) : BootLog where
  term := l.term ++ [c]
  uart := uartPutchar l.uart c

variable (stack : Vector Int 24)

def bootLogPuti (num : BitVec 32) := putNum bootLogPutchar stack num
def bootLogPutu (num : BitVec 32) := putUnum bootLogPutchar stack num
def bootLogPutl (num : BitVec 64) := putNum bootLogPutchar stack num
def bootLogPutlu (num : BitVec 64) := putUnum bootLogPutchar stack num
def bootLogPutll (num : BitVec 64) := putNum bootLogPutchar stack num
def bootLogPutllu (num : BitVec 64) := putUnum bootLogPutchar stack num
def bootLogPutx (num : BitVec 32) := putNumHex bootLogPutchar 'a' stack num
def bootLogPutX (num : BitVec 32) := putNumHex bootLogPutchar 'A' stack num
def bootLogPutp (num : BitVec 64) := putNumHex bootLogPutchar 'a' stack num
def bootLogPutP (num : BitVec 64) := putNumHex bootLogPutchar 'A' stack num

def uartPuti (num : BitVec 32) := putNum uartPutchar stack num
def uartPutu (num : BitVec 32) := putUnum uartPutchar stack num
def uartPutl (num : BitVec 64) := putNum uartPutchar stack num
def uartPutlu (num : BitVec 64) := putUnum uartPutchar stack num
def uartPutll (num : BitVec 64) := putNum uartPutchar stack num
def uartPutllu (num : BitVec 64) := putUnum uartPutchar stack num
def uartPutx (num : BitVec 32) := putNumHex uartPutchar 'a' stack num
def uartPutX (num : BitVec 32) := putNumHex uartPutchar 'A' stack num
def uartPutp (num : BitVec 64) := putNumHex uartPutchar 'a' stack num
def uartPutP (num : BitVec 64) := putNumHex uartPutchar 'A' stack num

/-- The suffixes of the helpers' names. -/
inductive Helper
  | i | u | l | lu | ll | llu | x | X | p | P
  deriving DecidableEq, Repr

def Helper.width : Helper → Nat
  | .i | .u | .x | .X => 32
  | .l | .lu | .ll | .llu | .p | .P => 64

def Helper.signed : Helper → Bool
  | .i | .l | .ll => true
  | _ => false

def bootLogPut : (k : Helper) → BitVec k.width → BootLog → Option BootLog
  | .i => bootLogPuti stack
  | .u => bootLogPutu stack
  | .l => bootLogPutl stack
  | .lu => bootLogPutlu stack
  | .ll => bootLogPutll stack
  | .llu => bootLogPutllu stack
  | .x => bootLogPutx stack
  | .X => bootLogPutX stack
  | .p => bootLogPutp stack
  | .P => bootLogPutP stack

def uartPut : (k : Helper) → BitVec k.width → Uart → Option Uart
  | .i => uartPuti stack
  | .u => uartPutu stack
  | .l => uartPutl stack
  | .lu => uartPutlu stack
  | .ll => uartPutll stack
  | .llu => uartPutllu stack
  | .x => uartPutx stack
  | .X => uartPutX stack
  | .p => uartPutp stack
  | .P => uartPutP stack

/-! ## The canonical numerals -/

def signedNumeral (n : Int) : List Char :=
  if n < 0 then '-' :: Nat.toDigits 10 n.natAbs else Nat.toDigits 10 n.natAbs

def hexUpper (n : Nat) : List Char := (Nat.toDigits 16 n).map Char.toUpper

def Helper.numeral : (k : Helper) → BitVec k.width → List Char
  | .i, num | .l, num | .ll, num => signedNumeral num.toInt
  | .u, num | .lu, num | .llu, num => Nat.toDigits 10 num.toNat
  | .x, num | .p, num => Nat.toDigits 16 num.toNat
  | .X, num | .P, num => hexUpper num.toNat

/-! ## Filling and replaying -/

section Replay

variable {σ : Type*} (putchar : σ → Char → σ) (digit : Int → Char)

/-- Replaying the `k` lowest digits. -/
def replayBelow (nums : Vector Int 24) (k : Nat) (s : σ) : Option σ :=
  if k = 0 then some s else replayNums putchar digit nums (k - 1) s

theorem replayBelow_succ {nums : Vector Int 24} {k : Nat} (hk : k < 24) (s : σ) :
    replayBelow putchar digit nums (k + 1) s =
      replayBelow putchar digit nums k (putchar s (digit nums[k])) := by
  rw [replayBelow, if_neg (by omega), Nat.add_sub_cancel, replayNums]
  simp only [Vector.getElem?_eq_getElem hk, replayBelow]

theorem replayBelow_congr {nums nums' : Vector Int 24} {k : Nat} (hk : k ≤ 24)
    (heq : ∀ j (h : j < k), nums[j] = nums'[j]) (s : σ) :
    replayBelow putchar digit nums k s = replayBelow putchar digit nums' k s := by
  induction k generalizing s with
  | zero => simp [replayBelow]
  | succ k ih =>
      rw [replayBelow_succ putchar digit (by omega), replayBelow_succ putchar digit (by omega),
        heq k (by omega)]
      exact ih (by omega) (fun j h => heq j (by omega)) _

theorem fillNums_pos {b n i : Nat} (hb : 1 < b) (hn : 0 < n) (hi : i < 24) (nums : Vector Int 24) :
    fillNums b n nums i =
      fillNums b (n / b : Nat) (nums.setIfInBounds i (n % b : Nat)) (i + 1) := by
  have hpos : (0 : Int) < n ∧ (1 : Int) < b := by omega
  rw [fillNums, dif_pos hpos, if_pos hi]
  push_cast
  rfl

theorem fillNums_zero (b i : Nat) (nums : Vector Int 24) :
    fillNums b (0 : Nat) nums i = some (nums, i) := by
  rw [fillNums, dif_neg (by simp)]

/-- Filling `n` from cell `i` on and replaying down to cell `i` puts the
numeral of `n`. -/
theorem fillNums_replay {b n i : Nat} (hb : 1 < b) (hn : 0 < n) (hi : n < b ^ (24 - i))
    (nums : Vector Int 24) :
    ∃ nums' i', fillNums b n nums i = some (nums', i') ∧ i < i' ∧ i' ≤ 24 ∧
      ∀ s, replayBelow putchar digit nums' i' s =
        replayBelow putchar digit nums i
          (((b.digits n).reverse.map fun d : Nat => digit d).foldl putchar s) := by
  have hi24 : i < 24 := by
    by_contra h
    rw [show 24 - i = 0 by omega, pow_zero] at hi
    omega
  induction n using Nat.strong_induction_on generalizing i nums with
  | _ n ih =>
      have hcell : ∀ s, replayBelow putchar digit (nums.setIfInBounds i (n % b : Nat)) (i + 1) s =
          replayBelow putchar digit nums i (putchar s (digit (n % b : Nat))) := by
        intro s
        rw [replayBelow_succ putchar digit hi24, Vector.getElem_setIfInBounds_self]
        apply replayBelow_congr putchar digit (by omega)
        intro j hj
        rw [Vector.getElem_setIfInBounds_ne _ (by omega)]
      rw [fillNums_pos hb hn hi24, Nat.digits_def' hb hn]
      rcases Nat.eq_zero_or_pos (n / b) with hq | hq
      · refine ⟨_, _, by rw [hq]; exact fillNums_zero b _ _, by omega, by omega, fun s => ?_⟩
        rw [hcell, hq]
        simp
      · have hlt : n / b < b ^ (24 - (i + 1)) := by
          rw [Nat.div_lt_iff_lt_mul (by omega), ← pow_succ]
          rwa [show 24 - (i + 1) + 1 = 24 - i by omega]
        have hi1 : i + 1 < 24 := by
          by_contra h
          rw [show 24 - (i + 1) = 0 by omega, pow_zero] at hlt
          omega
        obtain ⟨nums', i', hfill, hii, hle, hrep⟩ :=
          ih (n / b) (Nat.div_lt_self hn hb) hq hlt
            (nums.setIfInBounds i (n % b : Nat)) hi1
        refine ⟨nums', i', hfill, by omega, hle, fun s => ?_⟩
        rw [hrep, hcell]
        simp

theorem putDigits_pos {b n : Nat} (hb : 1 < b) (hn : 0 < n) (hlt : n < b ^ 24)
    (stack : Vector Int 24) (s : σ) :
    putDigits putchar b digit stack n s =
      some (((b.digits n).reverse.map fun d : Nat => digit d).foldl putchar s) := by
  obtain ⟨nums', i', hfill, hii, -, hrep⟩ :=
    fillNums_replay putchar digit hb hn (i := 0) hlt stack
  have hrep' := hrep s
  rw [replayBelow, if_neg (by omega), replayBelow, if_pos rfl] at hrep'
  simp only [putDigits, hfill, if_neg (show ¬ i' = 0 by omega), hrep']

end Replay

/-! ## Each helper puts the numeral of its value -/

theorem toDigits_eq_digits {b n : Nat} (hb : 1 < b) (hn : 0 < n) :
    Nat.toDigits b n = (b.digits n).reverse.map Nat.digitChar := by
  induction n using Nat.strong_induction_on with
  | _ n ih =>
      rw [Nat.toDigits_eq_if hb, Nat.digits_def' hb hn]
      by_cases hlt : n < b
      · simp [hlt, Nat.div_eq_of_lt hlt, Nat.mod_eq_of_lt hlt]
      · have hq : 0 < n / b := Nat.div_pos (by omega) (by omega)
        simp [hlt, ih (n / b) (Nat.div_lt_self hn hb) hq]

theorem digits_map_congr {b n : Nat} {f g : Nat → Char} (hb : 1 < b)
    (heq : ∀ d < b, f d = g d) : (b.digits n).reverse.map f = (b.digits n).reverse.map g := by
  apply List.map_congr_left
  intro d hd
  exact heq d (Nat.digits_lt_base hb (by simpa using hd))

theorem decimal_digit (d : Nat) (hd : d < 10) : charAdd '0' d = Nat.digitChar d := by
  interval_cases d <;> decide

theorem hexLower_digit (d : Nat) (hd : d < 16) :
    (if (d : Int) ≤ 9 then charAdd '0' d else charAdd 'a' (d - 10)) = Nat.digitChar d := by
  interval_cases d <;> decide

theorem hexUpper_digit (d : Nat) (hd : d < 16) :
    (if (d : Int) ≤ 9 then charAdd '0' d else charAdd 'A' (d - 10)) =
      (Nat.digitChar d).toUpper := by
  interval_cases d <;> decide

section Helpers

variable {σ : Type*} (putchar : σ → Char → σ) (stack : Vector Int 24) {w : Nat}

theorem putDigits_decimal {n : Nat} (hn : 0 < n) (hlt : n < 2 ^ 64) (s : σ) :
    putDigits putchar 10 (charAdd '0') stack n s =
      some ((Nat.toDigits 10 n).foldl putchar s) := by
  have hput := putDigits_pos putchar (charAdd '0') (b := 10) (by norm_num) hn
    (lt_of_lt_of_le hlt (by norm_num)) stack s
  rw [digits_map_congr (by norm_num) decimal_digit, ← toDigits_eq_digits (by norm_num) hn] at hput
  exact hput

theorem putUnum_numeral (num : BitVec w) (hw : w ≤ 64) (s : σ) :
    putUnum putchar stack num s = some ((Nat.toDigits 10 num.toNat).foldl putchar s) := by
  have hlt : num.toNat < 2 ^ 64 := lt_of_lt_of_le num.isLt (Nat.pow_le_pow_right (by norm_num) hw)
  by_cases h0 : num = 0
  · simp [putUnum, h0]
  · have hpos : 0 < num.toNat := by
      rw [Nat.pos_iff_ne_zero]
      intro h
      exact h0 (BitVec.eq_of_toNat_eq (by simpa using h))
    rw [putUnum, if_neg h0, putDigits_decimal putchar stack hpos hlt]

theorem putNumHex_numeral {letter : Char} (cap : Char → Char) (hcap : cap '0' = '0')
    (hdigit : ∀ d : Nat, d < 16 →
      (if (d : Int) ≤ 9 then charAdd '0' d else charAdd letter (d - 10)) = cap (Nat.digitChar d))
    (num : BitVec w) (hw : w ≤ 64) (s : σ) :
    putNumHex putchar letter stack num s =
      some (((Nat.toDigits 16 num.toNat).map cap).foldl putchar s) := by
  have hlt : num.toNat < 2 ^ 64 := lt_of_lt_of_le num.isLt (Nat.pow_le_pow_right (by norm_num) hw)
  by_cases h0 : num = 0
  · simp [putNumHex, h0, hcap]
  · have hpos : 0 < num.toNat := by
      rw [Nat.pos_iff_ne_zero]
      intro h
      exact h0 (BitVec.eq_of_toNat_eq (by simpa using h))
    have hput := putDigits_pos putchar
      (fun n => if n ≤ 9 then charAdd '0' n else charAdd letter (n - 10))
      (b := 16) (by norm_num) hpos (lt_of_lt_of_le hlt (by norm_num)) stack s
    rw [digits_map_congr (by norm_num) hdigit] at hput
    rw [putNumHex, if_neg h0, toDigits_eq_digits (by norm_num) hpos, List.map_map]
    exact hput

/-- Every value but the smallest one has a negation. -/
theorem mulSigned_minus_one (num : BitVec w) (hw : 0 < w) :
    mulSigned w num.toInt (-1) =
      if num = BitVec.intMin w then none else some (-num.toInt) := by
  have hlow := BitVec.le_toInt num
  have hhigh := BitVec.toInt_lt (x := num)
  have hint : (BitVec.intMin w).toInt = -2 ^ (w - 1) := BitVec.toInt_intMin_of_pos hw
  have hpow : (0 : Int) < 2 ^ (w - 1) := by positivity
  unfold mulSigned
  rw [Int.mul_neg_one]
  by_cases hmin : num = BitVec.intMin w
  · rw [if_pos hmin, if_neg]
    rw [hmin, hint]
    omega
  · have hne : num.toInt ≠ -2 ^ (w - 1) := fun heq =>
      hmin (BitVec.eq_of_toInt_eq (heq.trans hint.symm))
    rw [if_neg hmin, if_pos]
    omega

theorem putNum_numeral (num : BitVec w) (hw : w ≤ 64) (hmin : num ≠ BitVec.intMin w) (s : σ) :
    putNum putchar stack num s = some ((signedNumeral num.toInt).foldl putchar s) := by
  have habs : num.toInt.natAbs < 2 ^ 64 := by
    have hpow : (2 : Nat) ^ w ≤ 2 ^ 64 := Nat.pow_le_pow_right (by norm_num) hw
    have hlt := num.isLt
    rw [BitVec.toInt]
    split <;> omega
  by_cases h0 : num = 0
  · simp [putNum, signedNumeral, h0]
  · have hne : num.toInt ≠ 0 := by
      intro h
      exact h0 (BitVec.eq_of_toInt_eq (by simpa using h))
    have hpos : 0 < w := by
      rw [Nat.pos_iff_ne_zero]
      rintro rfl
      exact h0 (Subsingleton.elim _ _)
    by_cases hlt : num.toInt < 0
    · have hval : -num.toInt = (num.toInt.natAbs : Int) := by omega
      rw [putNum, if_neg h0, if_pos hlt, mulSigned_minus_one num hpos, if_neg hmin, Option.bind_some,
        hval, putDigits_decimal putchar stack (by omega) habs, signedNumeral, if_pos hlt]
      rfl
    · have hval : num.toInt = (num.toInt.natAbs : Int) := by omega
      have hput := putDigits_decimal putchar stack (n := num.toInt.natAbs) (by omega) habs s
      rw [← hval] at hput
      rw [putNum, if_neg h0, if_neg hlt, signedNumeral, if_neg hlt, hput]

/-- The negation of the smallest value of a signed type overflows. -/
theorem putNum_intMin (hw : 0 < w) (s : σ) :
    putNum putchar stack (BitVec.intMin w) s = none := by
  have hint : (BitVec.intMin w).toInt = -2 ^ (w - 1) := BitVec.toInt_intMin_of_pos hw
  have hpow : (0 : Int) < 2 ^ (w - 1) := by positivity
  have h0 : BitVec.intMin w ≠ 0 := by
    intro h
    exact absurd (BitVec.intMin_eq_zero_iff.mp h) (by omega)
  rw [putNum, if_neg h0, if_pos (by omega), mulSigned_minus_one _ hw, if_pos rfl, Option.bind_none]

end Helpers

theorem uartPutchar_foldl (cs : List Char) (u : Uart) : cs.foldl uartPutchar u = u ++ cs := by
  induction cs generalizing u with
  | nil => simp
  | cons c cs ih => simp [uartPutchar, ih]

theorem bootLogPutchar_foldl (cs : List Char) (l : BootLog) :
    cs.foldl bootLogPutchar l = ⟨l.term ++ cs, l.uart ++ cs⟩ := by
  induction cs generalizing l with
  | nil => simp
  | cons c cs ih => simp [bootLogPutchar, uartPutchar, ih]

theorem Helper.width_le (k : Helper) : k.width ≤ 64 := by
  cases k <;> decide

/-- The macro behind each helper. -/
def Helper.put {σ : Type*} (putchar : σ → Char → σ) (stack : Vector Int 24) :
    (k : Helper) → BitVec k.width → σ → Option σ
  | .i, num | .l, num | .ll, num => putNum putchar stack num
  | .u, num | .lu, num | .llu, num => putUnum putchar stack num
  | .x, num | .p, num => putNumHex putchar 'a' stack num
  | .X, num | .P, num => putNumHex putchar 'A' stack num

theorem bootLogPut_eq (stack : Vector Int 24) (k : Helper) (num : BitVec k.width) (l : BootLog) :
    bootLogPut stack k num l = k.put bootLogPutchar stack num l := by
  cases k <;> rfl

theorem uartPut_eq (stack : Vector Int 24) (k : Helper) (num : BitVec k.width) (u : Uart) :
    uartPut stack k num u = k.put uartPutchar stack num u := by
  cases k <;> rfl

theorem Helper.put_numeral {σ : Type*} (putchar : σ → Char → σ) (stack : Vector Int 24)
    (k : Helper) (num : BitVec k.width)
    (hmin : ¬ (k.signed = true ∧ num = BitVec.intMin k.width)) (s : σ) :
    k.put putchar stack num s = some ((k.numeral num).foldl putchar s) := by
  have hw := k.width_le
  cases k with
  | i | l | ll => exact putNum_numeral putchar stack num hw (fun h => hmin ⟨rfl, h⟩) s
  | u | lu | llu => exact putUnum_numeral putchar stack num hw s
  | x | p =>
      have hput := putNumHex_numeral putchar stack id rfl hexLower_digit num hw s
      rwa [List.map_id] at hput
  | X | P => exact putNumHex_numeral putchar stack Char.toUpper rfl hexUpper_digit num hw s

theorem Helper.put_intMin {σ : Type*} (putchar : σ → Char → σ) (stack : Vector Int 24)
    (k : Helper) (hk : k.signed = true) (s : σ) :
    k.put putchar stack (BitVec.intMin k.width) s = none := by
  cases k with
  | i | l | ll => exact putNum_intMin putchar stack (by decide) s
  | u | lu | llu | x | X | p | P => cases hk

/-- `some` is a run that ends, indexes `nums` within its bounds only and does not overflow. -/
theorem put_numeral_iff (stack : Vector Int 24) (k : Helper) (num : BitVec k.width)
    (l : BootLog) (u : Uart) :
    (bootLogPut stack k num l = some ⟨l.term ++ k.numeral num, l.uart ++ k.numeral num⟩ ↔
      ¬ (k.signed = true ∧ num = BitVec.intMin k.width)) ∧
    (uartPut stack k num u = some (u ++ k.numeral num) ↔
      ¬ (k.signed = true ∧ num = BitVec.intMin k.width)) := by
  rw [bootLogPut_eq, uartPut_eq, ← bootLogPutchar_foldl, ← uartPutchar_foldl]
  by_cases hmin : k.signed = true ∧ num = BitVec.intMin k.width
  · have hnum := hmin.2
    subst hnum
    simp [Helper.put_intMin _ _ _ hmin.1, hmin.1]
  · simp [Helper.put_numeral _ _ _ _ hmin, hmin]

theorem put_intMin_fails :
    bootLogPut (Vector.replicate 24 0) .i 0x80000000#32 ⟨[], []⟩ = none ∧
    uartPut (Vector.replicate 24 0) .i 0x80000000#32 [] = none ∧
    Helper.numeral .i 0x80000000#32 = "-2147483648".toList :=
  ⟨Helper.put_intMin bootLogPutchar _ .i rfl _, Helper.put_intMin uartPutchar _ .i rfl _,
    by decide⟩

end UntitledOs.Log
