import UntitledOs.Lib.Fuel
import UntitledOs.Lib.Memory

/-!
# The copy of memory

`memcpy` moves words while eight bytes are left and the rest byte by byte.  Both
loops end when the source pointer meets an end pointer, which is derived from the
length; nothing else stops them.
-/

namespace UntitledOs.Cstdlib

open UntitledOs.Lib

/-- A memory, and the addresses of the bytes that were read and written. -/
structure Traced where
  mem : Memory
  read : List Addr
  written : List Addr

section Code

/-- The value of the `w` bytes at `a`. -/
def Traced.load (s : Traced) (a : Addr) (w : Nat) : Nat × Traced :=
  (getLe (s.mem.view a) 0 w, { s with read := s.read ++ addrs a w })

def Traced.store (s : Traced) (a : Addr) (w v : Nat) : Traced :=
  { s with
    mem := s.mem.put a (fun i => BitVec.ofNat 8 (v / 256 ^ i)) w
    written := s.written ++ addrs a w }

/-- `*dest = *src` for objects of `w` bytes. -/
def Traced.assign (s : Traced) (dest src : Addr) (w : Nat) : Traced :=
  let r := s.load src w
  r.2.store dest w r.1

/-- A loop of `memcpy` over objects of `w` bytes, with `dest` and `src` where it leaves them. -/
def copyLoop (w : Nat) (srcEnd : Addr) : Nat → Traced → Addr → Addr → Option (Traced × Addr × Addr)
  | 0, _, _, _ => none
  | fuel + 1, s, dest, src =>
      if src = srcEnd then some (s, dest, src)
      else copyLoop w srcEnd fuel (s.assign dest src w) (dest + BitVec.ofNat 64 w) (src + BitVec.ofNat 64 w)

/-- `memcpy`; `sizeof(size_t)` is eight. -/
def memcpy (fuel : Nat) (s : Traced) (dest src n : BitVec 64) : Option (Addr × Traced) :=
  let destret := dest
  let srcEnd1 := src + 8 * (n / 8)
  (copyLoop 8 srcEnd1 fuel s dest src).bind fun r =>
    let srcEnd := srcEnd1 + n % 8
    (copyLoop 1 srcEnd fuel r.1 r.2.1 r.2.2).map fun r => (destret, r.1)

end Code

section Turns

variable {s : Traced} {dest src : Addr} {w k n fuel : Nat}

theorem assign_eq (s : Traced) (dest src : Addr) (w : Nat) :
    s.assign dest src w =
      ⟨s.mem.copy dest src w, s.read ++ addrs src w, s.written ++ addrs dest w⟩ := by
  have hbytes : s.mem.put dest (fun i => BitVec.ofNat 8 (getLe (s.mem.view src) 0 w / 256 ^ i)) w =
      s.mem.copy dest src w := by
    refine Memory.put_congr fun i hi => ?_
    rw [getLe_byte _ _ hi, Nat.zero_add]
  simp only [Traced.assign, Traced.load, Traced.store, hbytes]

/-- `k` turns of a loop. -/
def afterTurns (w : Nat) : Nat → Traced → Addr → Addr → Traced
  | 0, s, _, _ => s
  | k + 1, s, dest, src =>
      afterTurns w k (s.assign dest src w) (dest + BitVec.ofNat 64 w) (src + BitVec.ofNat 64 w)

/-- The loop meets an end pointer `k` objects away after `k` turns, and not before. -/
theorem copyLoop_turns (hw : 0 < w) (hk : w * k < 2 ^ 64) (hfuel : k < fuel) :
    copyLoop w (src + BitVec.ofNat 64 (w * k)) fuel s dest src =
      some (afterTurns w k s dest src, dest + BitVec.ofNat 64 (w * k), src + BitVec.ofNat 64 (w * k)) := by
  obtain ⟨fuel, rfl⟩ : ∃ j, fuel = j + 1 := ⟨fuel - 1, by omega⟩
  induction k generalizing s dest src fuel with
  | zero => simp [copyLoop, afterTurns]
  | succ k ih =>
      obtain ⟨fuel, rfl⟩ : ∃ j, fuel = j + 1 := ⟨fuel - 1, by omega⟩
      have hsucc : w * (k + 1) = w + w * k := by ring
      have hmore : src ≠ src + BitVec.ofNat 64 (w * (k + 1)) := by
        intro heq
        have hdist := @distance src _ hk
        rw [← heq, BitVec.sub_self] at hdist
        have hpos : 0 < w * (k + 1) := Nat.mul_pos hw k.succ_pos
        simp at hdist
        omega
      rw [copyLoop, if_neg hmore, afterTurns, hsucc, ← add_ofNat, ← add_ofNat]
      exact ih (by omega) fuel (by omega)

theorem afterTurns_eq (hapart : Apart dest src (w * k)) (hk : w * k < 2 ^ 64) :
    afterTurns w k s dest src = ⟨s.mem.copy dest src (w * k), s.read ++ addrs src (w * k),
      s.written ++ addrs dest (w * k)⟩ := by
  induction k generalizing s dest src with
  | zero => simp [afterTurns, Memory.copy, addrs]
  | succ k ih =>
      have hsucc : w * (k + 1) = w + w * k := by ring
      rw [hsucc] at hapart hk ⊢
      rw [afterTurns, ih (hapart.right (by omega)) (by omega), assign_eq, addrs_add, addrs_add,
        Memory.copy_copy hapart (by omega), List.append_assoc, List.append_assoc]

/-- What `memcpy` leaves behind: whole words first, then the bytes behind them. -/
def afterMemcpy (s : Traced) (dest src : Addr) (n : Nat) : Traced :=
  afterTurns 1 (n % 8) (afterTurns 8 (n / 8) s dest src) (dest + BitVec.ofNat 64 (8 * (n / 8)))
    (src + BitVec.ofNat 64 (8 * (n / 8)))

theorem memcpy_returns (s : Traced) (dest src n : BitVec 64) :
    Returns (fun fuel => memcpy fuel s dest src n) (dest, afterMemcpy s dest src n.toNat) := by
  have hwords : 8 * (n / 8) = BitVec.ofNat 64 (8 * (n.toNat / 8)) := by
    apply BitVec.eq_of_toNat_eq
    simp
  have hbytes : n % 8 = BitVec.ofNat 64 (1 * (n.toNat % 8)) := by
    apply BitVec.eq_of_toNat_eq
    simp
    omega
  have hn := n.isLt
  refine ⟨n.toNat / 8 + 8, fun fuel hfuel => ?_⟩
  simp only [memcpy, hwords, hbytes]
  rw [copyLoop_turns (by omega) (by omega) (by omega), Option.bind_some]
  simp only
  rw [copyLoop_turns (by omega) (by omega) (by omega)]
  rfl

theorem afterMemcpy_eq (hapart : Apart dest src n) (hn : n < 2 ^ 64) :
    afterMemcpy s dest src n =
      ⟨s.mem.copy dest src n, s.read ++ addrs src n, s.written ++ addrs dest n⟩ := by
  have hparts : n = 8 * (n / 8) + 1 * (n % 8) := by omega
  have hwords : Apart dest src (8 * (n / 8)) := Apart.left (hparts ▸ hapart) (by omega)
  have hbytes := Apart.right (hparts ▸ hapart) (by omega)
  unfold afterMemcpy
  rw [afterTurns_eq hwords (by omega), afterTurns_eq hbytes (by omega),
    Memory.copy_copy (hparts ▸ hapart) (by omega), List.append_assoc, List.append_assoc,
    ← addrs_add, ← addrs_add, ← hparts]

end Turns

section Copy

/-- `s'` is `s` with the `n` bytes from `src` copied to `dest`, and nothing else was touched. -/
structure Copied (s s' : Traced) (dest src : Addr) (n : Nat) : Prop where
  bytes : ∀ i < n, s'.mem (dest + BitVec.ofNat 64 i) = s.mem (src + BitVec.ofNat 64 i)
  others : ∀ x, ¬ InRange dest n x → s'.mem x = s.mem x
  reads : ∃ l, s'.read = s.read ++ l ∧ ∀ a ∈ l, InRange src n a
  writes : ∃ l, s'.written = s.written ++ l ∧ ∀ a ∈ l, InRange dest n a

theorem Copied.of_copy {s : Traced} {dest src : Addr} {n : Nat} (hn : n ≤ 2 ^ 64) :
    Copied s ⟨s.mem.copy dest src n, s.read ++ addrs src n, s.written ++ addrs dest n⟩ dest src n where
  bytes _ hi := Memory.put_add hn hi
  others _ hx := Memory.put_of_outside hx
  reads := ⟨addrs src n, rfl, fun _ ha => (mem_addrs hn).mp ha⟩
  writes := ⟨addrs dest n, rfl, fun _ ha => (mem_addrs hn).mp ha⟩

/--
Between ranges apart `memcpy` returns its destination and leaves what the loop
over single bytes leaves: the copy, with no other byte read or written.
-/
theorem memcpy_copies (s : Traced) (dest src n : BitVec 64) (hapart : Apart dest src n.toNat) :
    ∃ s', Returns (fun fuel => memcpy fuel s dest src n) (dest, s') ∧
      Returns (fun fuel => copyLoop 1 (src + n) fuel s dest src) (s', dest + n, src + n) ∧
      Copied s s' dest src n.toNat := by
  have hn := n.isLt
  have hbytewise : afterTurns 1 n.toNat s dest src = afterMemcpy s dest src n.toNat := by
    rw [afterMemcpy_eq hapart hn, afterTurns_eq (by rwa [Nat.one_mul]) (by omega), Nat.one_mul]
  refine ⟨afterMemcpy s dest src n.toNat, memcpy_returns s dest src n, ?_, ?_⟩
  · refine ⟨n.toNat + 1, fun fuel hfuel => ?_⟩
    have hturns := @copyLoop_turns s dest src 1 n.toNat fuel Nat.one_pos (by omega) (by omega)
    rwa [Nat.one_mul, BitVec.ofNat_toNat, BitVec.setWidth_eq, hbytewise] at hturns
  · rw [afterMemcpy_eq hapart hn]
    exact Copied.of_copy (by omega)

/-- Eleven bytes between odd addresses. -/
theorem memcpy_copies_eleven :
    ∃ s', Returns (fun fuel => memcpy fuel ⟨fun a => a.setWidth 8, [], []⟩ 33 5 11) (33, s') ∧
      Returns (fun fuel => copyLoop 1 (5 + 11) fuel ⟨fun a => a.setWidth 8, [], []⟩ 33 5)
        (s', 33 + 11, 5 + 11) ∧
      Copied ⟨fun a => a.setWidth 8, [], []⟩ s' 33 5 11 := by
  refine memcpy_copies ⟨fun a => a.setWidth 8, [], []⟩ 33 5 11 ?_
  intro x hdest hsrc
  simp only [InRange] at hdest hsrc
  bv_omega

end Copy

section Heap

variable {b : Bytes} {s : Traced} {dest src : Addr} {w k n : Nat}

/-- The turns of a loop in a memory addressed by numbers. -/
theorem shows_afterTurns (h : s.mem.Shows b) (hw : 0 < w) (hdest : dest.toNat + w * k ≤ 2 ^ 64)
    (hsrc : src.toNat + w * k ≤ 2 ^ 64) :
    (afterTurns w k s dest src).mem.Shows (copyUnits w k b dest.toNat src.toNat) := by
  induction k generalizing s b dest src with
  | zero => exact h
  | succ k ih =>
      have hsucc : w * (k + 1) = w + w * k := by ring
      have hunit : (s.assign dest src w).mem.Shows
          (copyTo b dest.toNat (fun i => b (src.toNat + i)) w) := by
        rw [assign_eq]
        exact h.put (fun i hi => h.view (by omega)) (by omega)
      obtain rfl | hk := Nat.eq_zero_or_pos k
      · exact hunit
      have hpos : 0 < w * k := Nat.mul_pos hw hk
      have hdest' : (dest + BitVec.ofNat 64 w).toNat = dest.toNat + w := toNat_add_ofNat (by omega)
      have hsrc' : (src + BitVec.ofNat 64 w).toNat = src.toNat + w := toNat_add_ofNat (by omega)
      rw [afterTurns, copyUnits, ← hdest', ← hsrc']
      exact ih hunit (by omega) (by omega)

/-- In a memory addressed by numbers `memcpy` is the copy of words and bytes there. -/
theorem memcpy_shows (h : s.mem.Shows b) (dest src n : BitVec 64)
    (hdest : dest.toNat + n.toNat ≤ 2 ^ 64) (hsrc : src.toNat + n.toNat ≤ 2 ^ 64) :
    ∃ s', Returns (fun fuel => memcpy fuel s dest src n) (dest, s') ∧
      s'.mem.Shows (Lib.memcpy b dest.toNat src.toNat n.toNat) := by
  refine ⟨_, memcpy_returns s dest src n, ?_⟩
  have hwords : (afterTurns 8 (n.toNat / 8) s dest src).mem.Shows
      (copyUnits 8 (n.toNat / 8) b dest.toNat src.toNat) :=
    shows_afterTurns h (by omega) (by omega) (by omega)
  unfold afterMemcpy Lib.memcpy
  obtain hrest | hrest := Nat.eq_zero_or_pos (n.toNat % 8)
  · rw [hrest]
    exact hwords
  have hdest' : (dest + BitVec.ofNat 64 (8 * (n.toNat / 8))).toNat =
      dest.toNat + 8 * (n.toNat / 8) := toNat_add_ofNat (by omega)
  have hsrc' : (src + BitVec.ofNat 64 (8 * (n.toNat / 8))).toNat =
      src.toNat + 8 * (n.toNat / 8) := toNat_add_ofNat (by omega)
  rw [← hdest', ← hsrc']
  exact shows_afterTurns hwords Nat.one_pos (by omega) (by omega)

end Heap

end UntitledOs.Cstdlib
