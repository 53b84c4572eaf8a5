import UntitledOs.Fs.Release

/-!
# Releasing a block against marking it

`fs_ext2_mark_unalloc_block` counts the blocks from 1 and its sibling counts them
from 0, so a release clears the bit below the one that the mark has set.
-/

namespace UntitledOs.Fs

open UntitledOs.Lib

variable {g : Gdata} {d : Bytes}

theorem bytes_eq_of_bitAt {m m' : Bytes} (h : ∀ k, bitAt m k = bitAt m' k) : m = m' := by
  funext a
  refine BitVec.eq_of_getMsbD_eq fun i hi => ?_
  have hbit := h (8 * a + i)
  unfold bitAt at hbit
  rwa [show (8 * a + i) / 8 = a by omega, show (8 * a + i) % 8 = i by omega] at hbit

/-- A release undoes the mark of a clear block exactly when both work on the same bit. -/
theorem markUnallocBlock_markAllocBlock (heap heap' : Bytes) {b : Nat}
    (hclear : bitAt d (blockBit g b) = false) :
    markUnallocBlock g (markAllocBlock g d heap b) heap' b = d ↔
      blockBit g b = blockBit g (pred32 b) := by
  constructor
  · intro hback
    have hbit := congrArg (fun m => bitAt m (blockBit g b)) hback
    simp only [bitAt_markUnallocBlock, bitAt_markAllocBlock, hclear] at hbit
    simpa using hbit
  · intro hsame
    refine bytes_eq_of_bitAt fun k => ?_
    rw [bitAt_markUnallocBlock, bitAt_markAllocBlock, ← hsame]
    by_cases hk : k = blockBit g b
    · rw [hk, hclear]
      simp
    · simp [hk]

/-- The bit of a marked block survives the release of block `b` unless it is the one that the
release clears. -/
theorem bitAt_markUnallocBlock_of_set (heap : Bytes) (b : Nat) {c : Nat}
    (hset : bitAt d (blockBit g c) = true) :
    bitAt (markUnallocBlock g d heap b) (blockBit g c) = true ↔
      blockBit g c ≠ blockBit g (pred32 b) := by
  rw [bitAt_markUnallocBlock, hset, Bool.true_and, Bool.not_eq_true', decide_eq_false_iff_not]

/-- What a release does to the block it is given and to the other marked blocks. -/
theorem release_block_iff (g : Gdata) (d heap heap' : Bytes) (b : Nat) :
    (b < g.sb.blocksTotal → bitAt d (blockBit g b) = false →
      (markUnallocBlock g (markAllocBlock g d heap b) heap' b = d ↔
        blockBit g b = blockBit g (pred32 b))) ∧
    ∀ marked : Set Nat, (∀ c ∈ marked, c < g.sb.blocksTotal ∧ bitAt d (blockBit g c) = true) →
      b ∈ marked →
      ((∀ c ∈ marked, c ≠ b → bitAt (markUnallocBlock g d heap b) (blockBit g c) = true) ↔
        ∀ c ∈ marked, c ≠ b → blockBit g c ≠ blockBit g (pred32 b)) := by
  refine ⟨fun _ hclear => markUnallocBlock_markAllocBlock heap heap' hclear,
    fun marked hmarked _ => ?_⟩
  refine forall_congr' fun c => forall_congr' fun hc => forall_congr' fun _ => ?_
  exact bitAt_markUnallocBlock_of_set heap b (hmarked c hc).2

/-- The blocks 6, 7 and 9 are marked. -/
def threeMarked : Bytes :=
  [6, 7, 9].foldl (fun d b => markAllocBlock (oneGroup 5) d blankMedium b) blankMedium

/-- The release of block 7 does not undo its mark; it keeps the mark of block 9 and loses that of
block 6. -/
theorem release_block_iff_neighbours :
    markUnallocBlock (oneGroup 5) (markAllocBlock (oneGroup 5) blankMedium blankMedium 7)
        blankMedium 7 ≠ blankMedium ∧
    (∀ c ∈ ({7, 9} : Set Nat), c ≠ 7 →
      bitAt (markUnallocBlock (oneGroup 5) threeMarked blankMedium 7) (blockBit (oneGroup 5) c) =
        true) ∧
    ¬ ∀ c ∈ ({6, 7} : Set Nat), c ≠ 7 →
      bitAt (markUnallocBlock (oneGroup 5) threeMarked blankMedium 7) (blockBit (oneGroup 5) c) =
        true := by
  have hbits : ∀ c ∈ [6, 7, 9], c < (oneGroup 5).sb.blocksTotal ∧
      bitAt threeMarked (blockBit (oneGroup 5) c) = true := by decide +kernel
  have hundone := (release_block_iff (oneGroup 5) blankMedium blankMedium blankMedium 7).1
    (by decide) (by decide +kernel)
  have hmarked := (release_block_iff (oneGroup 5) threeMarked blankMedium blankMedium 7).2
  refine ⟨fun hback => absurd (hundone.mp hback) (by decide +kernel), ?_, fun hall => ?_⟩
  · refine (hmarked {7, 9} (fun c hc => hbits c ?_) (by simp)).mpr ?_
    · rcases hc with rfl | rfl <;> simp
    · rintro c (rfl | rfl) hne
      · exact absurd rfl hne
      · decide +kernel
  · refine (hmarked {6, 7} (fun c hc => hbits c ?_) (by simp)).mp hall 6 (by simp) (by decide)
      (by decide +kernel)
    rcases hc with rfl | rfl <;> simp

/-- In a file system whose blocks have bits of their own no release undoes a mark, save that of
block 0. -/
theorem release_never_undoes (hbits : ∀ b < g.sb.blocksTotal, ∀ c < g.sb.blocksTotal,
      blockBit g b = blockBit g c → b = c) (heap heap' : Bytes) {b : Nat} (hb : b ≠ 0)
    (hlt : b < g.sb.blocksTotal) (hclear : bitAt d (blockBit g b) = false) :
    markUnallocBlock g (markAllocBlock g d heap b) heap' b ≠ d := by
  intro hback
  have htotal := g.sb.blocksTotal_lt
  have hpred := pred32_of_ne_zero hb (by omega)
  have hsame := (markUnallocBlock_markAllocBlock heap heap' hclear).mp hback
  have := hbits b hlt (pred32 b) (by omega) hsame
  omega

/-- Releasing block 1 clears the bit of block 0 and leaves its own. -/
theorem release_block_misses :
    ¬ ∀ (g : Gdata) (d heap : Bytes) (b : Nat),
      (b < g.sb.blocksTotal → bitAt d (blockBit g b) = false →
        markUnallocBlock g (markAllocBlock g d heap b) heap b = d) ∧
      ∀ marked : Set Nat, (∀ c ∈ marked, c < g.sb.blocksTotal ∧ bitAt d (blockBit g c) = true) →
        b ∈ marked →
        ∀ c ∈ marked, c ≠ b → bitAt (markUnallocBlock g d heap b) (blockBit g c) = true := by
  intro h
  have hback := (h (oneGroup 5) blankMedium blankMedium 1).1 (by decide) (by decide +kernel)
  have hsame := (markUnallocBlock_markAllocBlock blankMedium blankMedium (by decide +kernel)).mp hback
  exact absurd hsame (by decide +kernel)

end UntitledOs.Fs
