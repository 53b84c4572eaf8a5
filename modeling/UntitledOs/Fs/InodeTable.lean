import UntitledOs.Fs.BlockLookup

/-!
# The inode table

The reader takes an inode from its offset within the block of the table it stands
in.  The writer copies it to its offset within the whole table of the group.
-/

namespace UntitledOs.Fs

open UntitledOs.Lib

variable {g : Gdata} {d heap inode : Bytes} {i j total : Nat}

/-- The offset of an inode in the table of its group. -/
def inodeTableOffset (g : Gdata) (inodeNum : Nat) : Nat :=
  u32 (g.sb.inodeSize * (pred32 inodeNum % g.sb.inodesPerGroup))

/-- `fs_ext2_read_inode`: the inode in `out`, and the rest of `out` as it was.  The callers pass a
structure of 128 bytes, so an inode that is longer runs over what lies behind it. -/
def readInode (g : Gdata) (d heap : Bytes) (inodeNum : Nat) (out : Bytes) : Bytes :=
  let buf := readBlock g.sb d (inodeTableBlock g inodeNum) heap
  copyTo out 0 (fun k => buf (inodeTableOffset g inodeNum % g.sb.blockSize + k)) g.sb.inodeSize

/-- Where an inode stands on the medium. -/
def inodeStart (g : Gdata) (inodeNum : Nat) : Nat :=
  blockStart g.sb (inodeTableBlock g inodeNum) + inodeTableOffset g inodeNum % g.sb.blockSize

/-- The inodes 1 to `total` are 128 bytes each, whole ones in a block, each at its own place. -/
structure InodesApart (g : Gdata) (total : Nat) : Prop where
  size : g.sb.inodeSize = 128
  dvd : 128 ∣ g.sb.blockSize
  pos : 0 < g.sb.blockSize
  apart : ∀ i j, 1 ≤ i → i ≤ total → 1 ≤ j → j ≤ total → i ≠ j → inodeStart g i ≠ inodeStart g j

/-- After inode `i` was written it is read back, the other inodes are read as before, and
neither copy leaves the buffer of one block. -/
structure InodeRoundTrip (g : Gdata) (d heap : Bytes) (total i : Nat) (inode : Bytes) : Prop where
  same : ∀ heap' out, ∀ k < g.sb.inodeSize,
    readInode g (writeInode g d heap i inode) heap' i out k = inode k
  others : ∀ j, 1 ≤ j → j ≤ total → j ≠ i → ∀ heap' out, ∀ k < g.sb.inodeSize,
    readInode g (writeInode g d heap i inode) heap' j out k = readInode g d heap' j out k
  written : inodeTableOffset g i + g.sb.inodeSize ≤ g.sb.blockSize
  read : inodeTableOffset g i % g.sb.blockSize + g.sb.inodeSize ≤ g.sb.blockSize

section Places

theorem dvd_inodeTableOffset (h : InodesApart g total) (i : Nat) : 128 ∣ inodeTableOffset g i := by
  unfold inodeTableOffset u32
  rw [h.size]
  exact (Nat.dvd_mod_iff (by norm_num)).mpr (Nat.dvd_mul_right _ _)

theorem inode_fits (h : InodesApart g total) (i : Nat) :
    inodeTableOffset g i % g.sb.blockSize + g.sb.inodeSize ≤ g.sb.blockSize := by
  have hlt := Nat.mod_lt (inodeTableOffset g i) h.pos
  have hoff : 128 ∣ inodeTableOffset g i % g.sb.blockSize :=
    (Nat.dvd_mod_iff h.dvd).mpr (dvd_inodeTableOffset h i)
  have hsize := h.dvd
  rw [h.size]
  omega

theorem dvd_inodeStart (h : InodesApart g total) (i : Nat) : 128 ∣ inodeStart g i := by
  have hblock := h.dvd.trans (blockSize_dvd_blockStart g.sb (inodeTableBlock g i))
  exact Nat.dvd_add hblock ((Nat.dvd_mod_iff h.dvd).mpr (dvd_inodeTableOffset h i))

theorem readInode_eq (h : InodesApart g total) (i : Nat) {k : Nat} {out : Bytes}
    (hk : k < g.sb.inodeSize) : readInode g d heap i out k = d (inodeStart g i + k) := by
  have hfits := inode_fits h i
  have hcopy := @copyTo_add out (fun k => readBlock g.sb d (inodeTableBlock g i) heap
    (inodeTableOffset g i % g.sb.blockSize + k)) 0 _ k hk
  rw [Nat.zero_add] at hcopy
  unfold readInode
  rw [hcopy, readBlock_of_lt _ (by omega)]
  unfold inodeStart
  rw [Nat.add_assoc]

end Places

section Write

/-- An inode in the first block of its table is written to its place and nowhere else. -/
theorem writeInode_eq (h : InodesApart g total) (i : Nat)
    (hfirst : inodeTableOffset g i < g.sb.blockSize) (b : Nat) :
    writeInode g d heap i inode b =
      if inodeStart g i ≤ b ∧ b < inodeStart g i + g.sb.inodeSize then inode (b - inodeStart g i)
      else d b := by
  have hfits := inode_fits h i
  have hstart : inodeStart g i = blockStart g.sb (inodeTableBlock g i) + inodeTableOffset g i := by
    unfold inodeStart
    rw [Nat.mod_eq_of_lt hfirst]
  rw [Nat.mod_eq_of_lt hfirst] at hfits
  by_cases hin : InBlock g.sb (inodeTableBlock g i) b
  · -- inside the block: the bytes of the inode are replaced, the others written back
    obtain ⟨x, rfl⟩ := Nat.exists_eq_add_of_le hin.1
    have hx : x < g.sb.blockSize := by
      have := hin.2
      omega
    have hwrite : writeInode g d heap i inode (blockStart g.sb (inodeTableBlock g i) + x) =
        copyTo (readBlock g.sb d (inodeTableBlock g i) heap) (inodeTableOffset g i) inode
          g.sb.inodeSize x := copyTo_add (by rwa [blockSectors_mul])
    rw [hwrite, hstart]
    unfold copyTo
    by_cases hcopy : inodeTableOffset g i ≤ x ∧ x < inodeTableOffset g i + g.sb.inodeSize
    · rw [if_pos hcopy, if_pos (by omega)]
      exact congrArg inode (by omega)
    · rw [if_neg hcopy, if_neg (by omega), readBlock_of_lt _ hx]
  · have hout : ¬ (inodeStart g i ≤ b ∧ b < inodeStart g i + g.sb.inodeSize) := by
      unfold InBlock at hin
      omega
    rw [if_neg hout]
    exact writeBlock_of_outside hin

/-- The writer and the reader agree exactly on the inodes in the first block of a table. -/
theorem inode_round_trip_iff (g : Gdata) (d heap : Bytes) (total i : Nat) (inode : Bytes)
    (h : InodesApart g total) (hi : 1 ≤ i) (htotal : i ≤ total) :
    InodeRoundTrip g d heap total i inode ↔ inodeTableOffset g i < g.sb.blockSize := by
  constructor
  · intro hround
    have hsize := h.size
    have hwritten := hround.written
    omega
  · intro hfirst
    have hfits := inode_fits h i
    refine ⟨fun heap' out k hk => ?_, fun j hj hjt hne heap' out k hk => ?_, ?_, hfits⟩
    · rw [readInode_eq h i hk, writeInode_eq h i hfirst, if_pos (by omega), Nat.add_sub_cancel_left]
    · rw [readInode_eq h j hk, readInode_eq h j hk, writeInode_eq h i hfirst, if_neg]
      -- both places are multiples of 128, and they differ
      have hapart := h.apart j i hj hjt hi htotal hne
      have hdvd := dvd_inodeStart h i
      have hdvd' := dvd_inodeStart h j
      have hsize := h.size
      omega
    · rwa [Nat.mod_eq_of_lt hfirst] at hfits

end Write

section Examples

/-- Inode tables of 16 inodes in two blocks. -/
def twoBlockTable : Gdata where
  sb := { (oneGroup 5).sb with inodesPerGroup := 16 }
  bt := (oneGroup 5).bt

theorem twoBlockTable_apart : InodesApart twoBlockTable 16 where
  size := rfl
  dvd := by decide +kernel
  pos := by decide +kernel
  apart i j hi hit hj hjt hne := by
    have hstart : ∀ i ≤ 16, 1 ≤ i → inodeStart twoBlockTable i = 5120 + 128 * (i - 1) := by
      decide +kernel
    rw [hstart i hit hi, hstart j hjt hj]
    omega

theorem inode_round_trip_iff_eighth :
    InodeRoundTrip twoBlockTable blankMedium blankMedium 16 8 fullMedium ↔
      inodeTableOffset twoBlockTable 8 < twoBlockTable.sb.blockSize :=
  inode_round_trip_iff twoBlockTable blankMedium blankMedium 16 8 fullMedium twoBlockTable_apart
    (by decide) (by decide)

/-- The ninth inode is copied behind the buffer and is not stored. -/
theorem ninth_inode_lost :
    ¬ ∀ (g : Gdata) (d heap : Bytes) (total i : Nat) (inode : Bytes), InodesApart g total →
      1 ≤ i → i ≤ total → InodeRoundTrip g d heap total i inode := by
  intro h
  have hsame := (h twoBlockTable blankMedium blankMedium 16 9 fullMedium twoBlockTable_apart
    (by decide) (by decide)).same blankMedium blankMedium 0 (by decide +kernel)
  exact absurd hsame (by decide +kernel)

end Examples

end UntitledOs.Fs
