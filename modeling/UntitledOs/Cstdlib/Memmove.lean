import UntitledOs.Cstdlib.String

/-!
# The move of memory

`memmove` is `memcpy`: it copies forward, word by word and then byte by byte.  A byte is read at the
start of the turn that copies its word, so a destination that begins behind the source and within it
gets bytes that were already written.
-/

namespace UntitledOs.Cstdlib

open UntitledOs.Lib

variable {s : Traced} {dest src a : Addr} {w k n j x z : Nat}

/-- `memmove`. -/
def memmove (fuel : Nat) (s : Traced) (dest src n : BitVec 64) : Option (Addr × Traced) :=
  memcpy fuel s dest src n

/-- `n` bytes stand at `dest` as they stood at `src`, and the others are as before. -/
def Moved (s s' : Traced) (dest src : Addr) (n : Nat) : Prop :=
  (∀ i < n, s'.mem (dest + BitVec.ofNat 64 i) = s.mem (src + BitVec.ofNat 64 i)) ∧
    ∀ x, ¬ InRange dest n x → s'.mem x = s.mem x

section Turns

theorem not_inRange_tail (hx : x < j) (hn : j + k ≤ 2 ^ 64) :
    ¬ InRange (a + BitVec.ofNat 64 j) k (a + BitVec.ofNat 64 x) := by
  intro h
  obtain ⟨i, hi, heq⟩ := h.exists_add
  rw [add_ofNat] at heq
  have hleft := @distance a x (by omega)
  have hright := @distance a (j + i) (by omega)
  rw [heq, hright] at hleft
  omega

theorem mem_assign (s : Traced) (dest src : Addr) (w : Nat) :
    (s.assign dest src w).mem = s.mem.copy dest src w := by
  rw [assign_eq]

theorem afterTurns_outside (hk : w * k ≤ 2 ^ 64) {y : Addr} (h : ¬ InRange dest (w * k) y) :
    (afterTurns w k s dest src).mem y = s.mem y := by
  induction k generalizing s dest src with
  | zero => rfl
  | succ k ih =>
      rw [Nat.mul_succ, Nat.add_comm] at hk h
      rw [inRange_split hk, not_or] at h
      rw [afterTurns, ih (by omega) h.2, mem_assign]
      exact Memory.put_of_outside h.1

/-- A byte that no earlier turn wrote over is copied. -/
theorem afterTurns_fresh (hk : w * k ≤ 2 ^ 64) (hx : x < w * k)
    (h : ¬ InRange dest (w * (x / w)) (src + BitVec.ofNat 64 x)) :
    (afterTurns w k s dest src).mem (dest + BitVec.ofNat 64 x) =
      s.mem (src + BitVec.ofNat 64 x) := by
  induction k generalizing s dest src x with
  | zero => exact absurd hx (by omega)
  | succ k ih =>
      rw [Nat.mul_succ, Nat.add_comm] at hk hx
      rw [afterTurns]
      by_cases hlow : x < w
      · rw [afterTurns_outside (by omega) (not_inRange_tail hlow hk), mem_assign]
        exact Memory.put_add (by omega) hlow
      · obtain ⟨y, rfl⟩ := Nat.exists_eq_add_of_le (Nat.le_of_not_lt hlow)
        have hw : 0 < w := Nat.pos_of_ne_zero fun h0 => by simp [h0] at hx
        have hle : w * (y / w) ≤ y := Nat.mul_div_le y w
        rw [Nat.add_div_left _ hw, Nat.mul_succ, Nat.add_comm (w * _), inRange_split (by omega),
          not_or] at h
        rw [← add_ofNat, ← add_ofNat, ih (by omega) (by omega) (by rw [add_ofNat]; exact h.2),
          mem_assign, add_ofNat]
        exact Memory.put_of_outside h.1

/-- A byte that an earlier turn wrote over gets what was written there. -/
theorem afterTurns_clobbered (hk : w * k ≤ 2 ^ 64) (hx : x < w * k) (hz : z < w * (x / w))
    (hsame : src + BitVec.ofNat 64 x = dest + BitVec.ofNat 64 z) :
    (afterTurns w k s dest src).mem (dest + BitVec.ofNat 64 x) =
      (afterTurns w k s dest src).mem (dest + BitVec.ofNat 64 z) := by
  induction k generalizing s dest src x z with
  | zero => exact absurd hx (by omega)
  | succ k ih =>
      rw [Nat.mul_succ, Nat.add_comm] at hk hx
      have hw : 0 < w := Nat.pos_of_ne_zero fun h0 => by simp [h0] at hz
      have hhigh : w ≤ x := by
        by_contra hlow
        rw [Nat.div_eq_of_lt (by omega)] at hz
        omega
      obtain ⟨y, rfl⟩ := Nat.exists_eq_add_of_le hhigh
      have hle : w * (y / w) ≤ y := Nat.mul_div_le y w
      rw [Nat.add_div_left _ hw, Nat.mul_succ, Nat.add_comm (w * _)] at hz
      rw [afterTurns]
      by_cases hlow : z < w
      · -- the first turn wrote it
        rw [afterTurns_outside (by omega) (not_inRange_tail hlow hk), ← hsame]
        rw [← add_ofNat, ← add_ofNat]
        refine afterTurns_fresh (by omega) (by omega) ?_
        rw [add_ofNat, hsame]
        exact not_inRange_tail hlow (by omega)
      · obtain ⟨z, rfl⟩ := Nat.exists_eq_add_of_le (Nat.le_of_not_lt hlow)
        rw [← add_ofNat, ← add_ofNat]
        refine ih (by omega) (by omega) (by omega) ?_
        rw [add_ofNat, add_ofNat, hsame]

end Turns

section Copy

/-- The offset at which the turn for byte `x` of `n` begins. -/
def turnStart (n x : Nat) : Nat := if x < 8 * (n / 8) then 8 * (x / 8) else x

theorem turnStart_le (n x : Nat) : turnStart n x ≤ x := by
  unfold turnStart
  split
  · exact Nat.mul_div_le x 8
  · exact le_rfl

theorem afterMemcpy_outside (hn : n < 2 ^ 64) {y : Addr} (h : ¬ InRange dest n y) :
    (afterMemcpy s dest src n).mem y = s.mem y := by
  have hparts : n = 8 * (n / 8) + 1 * (n % 8) := by omega
  rw [hparts, inRange_split (by omega), not_or] at h
  unfold afterMemcpy
  rw [afterTurns_outside (by omega) h.2, afterTurns_outside (by omega) h.1]

theorem afterMemcpy_fresh (hn : n < 2 ^ 64) (hx : x < n)
    (h : ¬ InRange dest (turnStart n x) (src + BitVec.ofNat 64 x)) :
    (afterMemcpy s dest src n).mem (dest + BitVec.ofNat 64 x) =
      s.mem (src + BitVec.ofNat 64 x) := by
  unfold turnStart at h
  unfold afterMemcpy
  split at h
  · rename_i hlow
    rw [afterTurns_outside (by omega) (not_inRange_tail hlow (by omega))]
    exact afterTurns_fresh (by omega) hlow h
  · rename_i hlow
    obtain ⟨y, rfl⟩ := Nat.exists_eq_add_of_le (Nat.le_of_not_lt hlow)
    rw [inRange_split (by omega), not_or] at h
    have hfresh := @afterTurns_fresh (afterTurns 8 (n / 8) s dest src)
      (dest + BitVec.ofNat 64 (8 * (n / 8))) (src + BitVec.ofNat 64 (8 * (n / 8))) 1 (n % 8) y
      (by omega) (by omega) (by rw [Nat.div_one, Nat.one_mul, add_ofNat]; exact h.2)
    rw [add_ofNat, add_ofNat] at hfresh
    rw [hfresh, afterTurns_outside (by omega) h.1]

theorem afterMemcpy_clobbered (hn : n < 2 ^ 64) (hx : x < n) (hz : z < turnStart n x)
    (hsame : src + BitVec.ofNat 64 x = dest + BitVec.ofNat 64 z) :
    (afterMemcpy s dest src n).mem (dest + BitVec.ofNat 64 x) =
      (afterMemcpy s dest src n).mem (dest + BitVec.ofNat 64 z) := by
  unfold turnStart at hz
  unfold afterMemcpy
  split at hz
  · rename_i hlow
    have hzlow : z < 8 * (n / 8) := by omega
    rw [afterTurns_outside (by omega) (not_inRange_tail hlow (by omega)),
      afterTurns_outside (by omega) (not_inRange_tail hzlow (by omega))]
    exact afterTurns_clobbered (by omega) hlow hz hsame
  · rename_i hlow
    obtain ⟨y, rfl⟩ := Nat.exists_eq_add_of_le (Nat.le_of_not_lt hlow)
    set s₁ := afterTurns 8 (n / 8) s dest src
    by_cases hzlow : z < 8 * (n / 8)
    · -- a word wrote it
      have hfresh := @afterTurns_fresh s₁ (dest + BitVec.ofNat 64 (8 * (n / 8)))
        (src + BitVec.ofNat 64 (8 * (n / 8))) 1 (n % 8) y (by omega) (by omega) (by
          rw [add_ofNat, hsame]
          exact not_inRange_tail hzlow (by omega))
      rw [add_ofNat, add_ofNat] at hfresh
      rw [hfresh, hsame, afterTurns_outside (by omega) (not_inRange_tail hzlow (by omega))]
    · obtain ⟨z, rfl⟩ := Nat.exists_eq_add_of_le (Nat.le_of_not_lt hzlow)
      have hclobbered := @afterTurns_clobbered s₁ (dest + BitVec.ofNat 64 (8 * (n / 8)))
        (src + BitVec.ofNat 64 (8 * (n / 8))) 1 (n % 8) y z (by omega) (by omega) (by omega)
        (by rw [add_ofNat, add_ofNat, hsame])
      rwa [add_ofNat, add_ofNat] at hclobbered

end Copy

section Move

/-- Where the read of byte `x` stands behind the destination. -/
theorem read_eq (hx : (dest - src).toNat ≤ x) :
    src + BitVec.ofNat 64 x = dest + BitVec.ofNat 64 (x - (dest - src).toNat) := by
  have hdest : dest = src + BitVec.ofNat 64 (dest - src).toNat := by
    rw [BitVec.ofNat_toNat, BitVec.setWidth_eq, BitVec.add_comm, BitVec.sub_add_cancel]
  calc src + BitVec.ofNat 64 x
      = src + BitVec.ofNat 64 (dest - src).toNat + BitVec.ofNat 64 (x - (dest - src).toNat) := by
        rw [add_ofNat, Nat.add_sub_cancel' hx]
    _ = dest + BitVec.ofNat 64 (x - (dest - src).toNat) := by rw [← hdest]

/-- The bytes that a move of `n` bytes reads in time. -/
theorem read_fresh {t : Nat} (ht : t ≤ x) (hx : x < 2 ^ 64)
    (h : x < (dest - src).toNat ∨ t ≤ x - (dest - src).toNat) :
    ¬ InRange dest t (src + BitVec.ofNat 64 x) := by
  rcases Nat.lt_or_ge x (dest - src).toNat with hlt | hge
  · unfold InRange
    bv_omega
  · rw [read_eq hge]
    unfold InRange
    rw [distance (by omega)]
    omega

/-- `memmove` moves every memory right exactly where the destination does not begin within the
bytes behind the first one of the source, or one word is moved. -/
theorem memmove_moves_iff (dest src n : Addr) :
    (∀ s, ∃ s', Returns (fun fuel => memmove fuel s dest src n) (dest, s') ∧
      Moved s s' dest src n.toNat) ↔
    dest = src ∨ n.toNat ≤ (dest - src).toNat ∨ n = 8 := by
  have hn := n.isLt
  have hreturns := fun s => memcpy_returns s dest src n
  constructor
  · intro h
    by_contra hnot
    simp only [not_or, not_le] at hnot
    obtain ⟨hne, hwithin, height⟩ := hnot
    set δ := (dest - src).toNat with hδ
    have hpos : 0 < δ := by
      refine Nat.pos_of_ne_zero fun h0 => hne ?_
      have := @read_eq dest src 0 (by omega)
      simpa [← hδ, h0] using this.symm
    have height' : n.toNat ≠ 8 := fun h8 => height (BitVec.eq_of_toNat_eq h8)
    -- the first byte that is read too late, and the one that stands there by then
    obtain ⟨x, hx, hδx, hfirst, hlate⟩ : ∃ x < n.toNat, δ ≤ x ∧ turnStart n.toNat (x - δ) = 0 ∧
        x - δ < turnStart n.toNat x := by
      unfold turnStart
      by_cases hword : δ < 8 ∧ 8 < n.toNat
      · refine ⟨8, hword.2, by omega, ?_, ?_⟩
        · rw [if_pos (by omega)]
          omega
        · split <;> omega
      · refine ⟨δ, hwithin, le_rfl, ?_, ?_⟩
        · split <;> omega
        · split <;> omega
    have hread := @read_eq dest src x hδx
    obtain ⟨s', hret, hmoved, -⟩ :=
      h ⟨fun a => if a = src + BitVec.ofNat 64 x then 1 else 0, [], []⟩
    obtain rfl := (Prod.mk.inj (hret.unique (hreturns _))).2
    have hright := hmoved x hx
    rw [afterMemcpy_clobbered hn hx hlate hread, afterMemcpy_fresh hn (by omega) (by
      rw [hfirst]
      exact Nat.not_lt_zero _)] at hright
    have hother : src + BitVec.ofNat 64 (x - δ) ≠ src + BitVec.ofNat 64 x := by
      intro heq
      have hleft := @distance src (x - δ) (by omega)
      rw [heq, distance (by omega)] at hleft
      omega
    simp [hother] at hright
  · intro h s
    refine ⟨_, hreturns s, fun i hi => ?_, fun x hx => afterMemcpy_outside hn hx⟩
    refine afterMemcpy_fresh hn hi (read_fresh (turnStart_le _ _) (by omega) ?_)
    rcases h with rfl | h | rfl
    · right
      rw [BitVec.sub_self]
      exact turnStart_le _ _
    · exact .inl (by omega)
    · right
      have hzero : turnStart (8 : Addr).toNat i = 0 := by
        have hi : i < 8 := hi
        have hword : (8 : Addr).toNat = 8 := rfl
        rw [turnStart, hword, if_pos (by omega)]
        omega
      omega

end Move

end UntitledOs.Cstdlib
