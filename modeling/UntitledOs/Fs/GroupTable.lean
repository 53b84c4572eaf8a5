import UntitledOs.Fs.BlockBitmap

/-!
# The table of block group descriptors

`fs_ext2_read_blkgrp_table` goes through the table block by block, and
`fs_ext2_write_blkgrp_table_index` writes back one of its sectors.  A descriptor
is its 32 packed bytes, and the table in memory is the memory behind `groups`.
-/

namespace UntitledOs.Fs

open UntitledOs.Lib

variable {sb : Superblock} {d groups : Bytes} {length i : Nat}

/-- `sizeof(fs_ext2_blkgrp)`. -/
def blkgrpSize : Nat := 32

/-- The first sector of the table: that of the block after the superblock. -/
def tableLba (sb : Superblock) : Nat :=
  if sb.blockSize ≤ 1024 then 2 * sb.blockSectors else sb.blockSectors

/-- `epb`, the descriptors in a block. -/
def descriptorsPerBlock (sb : Superblock) : Nat := sb.blockSize / blkgrpSize

/-- The loop of `fs_ext2_read_blkgrp_table` from descriptor `b` on. -/
def readTableLoop (sb : Superblock) (d : Bytes) (length : Nat) :
    Nat → Nat → Nat → Bytes → Bytes → Option Bytes
  | 0, _, _, _, _ => none
  | fuel + 1, b, lba, rbuf, groups =>
      if b < length then
        let epb := descriptorsPerBlock sb
        let db := if length < u32 (b + epb) then length - b else epb
        let rbuf := ataRead d lba sb.blockSectors rbuf
        readTableLoop sb d length fuel (u32 (b + db)) (lba + sb.blockSectors) rbuf
          (copyTo groups (blkgrpSize * b) rbuf (db * blkgrpSize))
      else some groups

/-- `fs_ext2_read_blkgrp_table` into the memory `groups`. -/
def readBlkgrpTable (sb : Superblock) (fuel : Nat) (d heap groups : Bytes) (length : Nat) :
    Option Bytes :=
  readTableLoop sb d length fuel 0 (tableLba sb) heap groups

/-- `fs_ext2_write_blkgrp_table_index`. -/
def writeBlkgrpTableIndex (sb : Superblock) (d groups : Bytes) (i : Nat) : Bytes :=
  let eps := ataSectorSize / blkgrpSize
  -- the sector number is multiplied by the size of a sector
  let baddr := u32 (tableLba sb + ataSectorSize * (i / eps))
  ataWrite d baddr 1 (fun a => groups (blkgrpSize * (i / eps * eps) + a))

def descriptor (groups : Bytes) (i : Nat) : Fin 32 → Byte := fun k => groups (blkgrpSize * i + k)

/-- The table as it lies on the medium. -/
def diskTable (sb : Superblock) (d : Bytes) : Bytes := fun a => d (tableLba sb * ataSectorSize + a)

theorem descriptor_congr {m m' : Bytes} (h : ∀ a, blkgrpSize * i ≤ a → a < blkgrpSize * (i + 1) →
    m a = m' a) : descriptor m i = descriptor m' i := by
  funext k
  have hk := k.isLt
  unfold blkgrpSize at h
  exact h _ (by unfold blkgrpSize; omega) (by unfold blkgrpSize; omega)

theorem descriptorsPerBlock_eq (sb : Superblock) :
    descriptorsPerBlock sb = 16 * sb.blockSectors := by
  have h := blockSectors_mul sb
  unfold descriptorsPerBlock blkgrpSize
  unfold ataSectorSize at h
  omega

section Reader

/-- The read of block `m` of the table extends what has been copied by that block. -/
theorem copyTo_table {m n : Nat} {rbuf : Bytes}
    (hdone : ∀ a < blkgrpSize * (m * descriptorsPerBlock sb), groups a = diskTable sb d a)
    (hn : n ≤ descriptorsPerBlock sb) {a : Nat}
    (ha : a < blkgrpSize * (m * descriptorsPerBlock sb + n)) :
    copyTo groups (blkgrpSize * (m * descriptorsPerBlock sb))
      (ataRead d (tableLba sb + m * sb.blockSectors) sb.blockSectors rbuf) (n * blkgrpSize) a =
      diskTable sb d a := by
  rw [descriptorsPerBlock_eq] at hdone hn ha ⊢
  have hunit : blkgrpSize * (m * (16 * sb.blockSectors)) =
      m * sb.blockSectors * ataSectorSize := by
    unfold blkgrpSize ataSectorSize
    ring
  have hsplit : blkgrpSize * (m * (16 * sb.blockSectors) + n) =
      m * sb.blockSectors * ataSectorSize + n * blkgrpSize := by
    rw [Nat.mul_add, hunit, Nat.mul_comm n]
  rw [hunit] at hdone ⊢
  rw [hsplit] at ha
  by_cases hlow : a < m * sb.blockSectors * ataSectorSize
  · rw [copyTo_of_lt hlow]
    exact hdone a hlow
  · obtain ⟨j, rfl⟩ := Nat.exists_eq_add_of_le (Nat.le_of_not_lt hlow)
    have hj : j < n * blkgrpSize := by omega
    have hblock : j < sb.blockSectors * ataSectorSize := by
      unfold blkgrpSize at hj
      unfold ataSectorSize
      omega
    rw [copyTo_add hj]
    have hread := @copyTo_add rbuf
      (fun i => d ((tableLba sb + m * sb.blockSectors) * ataSectorSize + i)) 0 _ j hblock
    rw [Nat.zero_add] at hread
    unfold ataRead diskTable
    rw [hread, Nat.add_mul, Nat.add_assoc]

theorem readTableLoop_spec (hsize : sb.blockSize ≠ 0)
    (hlen : length + descriptorsPerBlock sb ≤ 2 ^ 32) {fuel m : Nat} {rbuf groups : Bytes}
    (hfuel : length ≤ m * descriptorsPerBlock sb + fuel)
    (hdone : ∀ a < blkgrpSize * (m * descriptorsPerBlock sb), groups a = diskTable sb d a) :
    ∃ t, readTableLoop sb d length (fuel + 1) (m * descriptorsPerBlock sb)
        (tableLba sb + m * sb.blockSectors) rbuf groups = some t ∧
      ∀ a < blkgrpSize * length, t a = diskTable sb d a := by
  have hpos : 0 < descriptorsPerBlock sb := by
    have h := blockSectors_mul sb
    unfold ataSectorSize at h
    rw [descriptorsPerBlock_eq]
    omega
  induction fuel generalizing m rbuf groups with
  | zero =>
      rw [readTableLoop, if_neg (by omega)]
      refine ⟨groups, rfl, fun a ha => hdone a (lt_of_lt_of_le ha ?_)⟩
      exact Nat.mul_le_mul_left _ (by omega)
  | succ fuel ih =>
      rw [readTableLoop]
      by_cases hb : m * descriptorsPerBlock sb < length
      · have hwrap : u32 (m * descriptorsPerBlock sb + descriptorsPerBlock sb) =
            m * descriptorsPerBlock sb + descriptorsPerBlock sb := Nat.mod_eq_of_lt (by omega)
        simp only [if_pos hb, hwrap]
        by_cases hlast : length < m * descriptorsPerBlock sb + descriptorsPerBlock sb
        · -- the last block holds more descriptors than the table
          have hend : u32 (m * descriptorsPerBlock sb +
              (length - m * descriptorsPerBlock sb)) = length := by
            unfold u32
            omega
          rw [if_pos hlast, hend, readTableLoop, if_neg (lt_irrefl length)]
          refine ⟨_, rfl, fun a ha => copyTo_table hdone (by omega) ?_⟩
          rwa [show m * descriptorsPerBlock sb + (length - m * descriptorsPerBlock sb) = length
            by omega]
        · have hnext : m * descriptorsPerBlock sb + descriptorsPerBlock sb =
              (m + 1) * descriptorsPerBlock sb := by ring
          have hlba : tableLba sb + m * sb.blockSectors + sb.blockSectors =
              tableLba sb + (m + 1) * sb.blockSectors := by ring
          rw [if_neg hlast, hwrap, hnext, hlba]
          refine ih (by omega) fun a ha => copyTo_table hdone (le_refl _) ?_
          rwa [hnext]
      · rw [if_neg hb]
        refine ⟨groups, rfl, fun a ha => hdone a (lt_of_lt_of_le ha ?_)⟩
        exact Nat.mul_le_mul_left _ (by omega)

theorem descriptorsPerBlock_mul (sb : Superblock) :
    descriptorsPerBlock sb * blkgrpSize = sb.blockSize := by
  have h := blockSectors_mul sb
  rw [descriptorsPerBlock_eq]
  unfold blkgrpSize
  unfold ataSectorSize at h
  omega

theorem readTableLoop_steady (rbuf groups : Bytes) (b lba : Nat) :
    Steady fun fuel => readTableLoop sb d length fuel b lba rbuf groups := by
  intro fuel
  induction fuel generalizing rbuf groups b lba with
  | zero => exact Below.none _
  | succ fuel ih =>
      simp only [readTableLoop]
      split
      · exact ih _ _ _ _
      · exact Below.refl _

/-- Behind the last block that a `uint32_t` can count to, the loop starts over. -/
theorem readTableLoop_none (hsize : sb.blockSize ≠ 0) (hlt : length < 2 ^ 32)
    (hlen : 2 ^ 32 < length + descriptorsPerBlock sb) {fuel m lba : Nat} {rbuf groups : Bytes}
    (hb : m * descriptorsPerBlock sb < length) :
    readTableLoop sb d length fuel (m * descriptorsPerBlock sb) lba rbuf groups = none := by
  obtain ⟨e, he⟩ : descriptorsPerBlock sb ∣ 2 ^ 32 :=
    (Dvd.intro _ (descriptorsPerBlock_mul sb)).trans (blockSize_dvd hsize)
  induction fuel generalizing m lba rbuf groups with
  | zero => rfl
  | succ fuel ih =>
      have hm : m < e := by
        by_contra hge
        have := Nat.mul_le_mul_right (descriptorsPerBlock sb) (Nat.le_of_not_lt hge)
        rw [Nat.mul_comm e] at this
        omega
      have hsucc : (m + 1) * descriptorsPerBlock sb =
          m * descriptorsPerBlock sb + descriptorsPerBlock sb := by ring
      rw [readTableLoop]
      simp only [if_pos hb]
      by_cases hlast : m + 1 = e
      · -- the count reaches 2 ^ 32 and wraps to the first descriptor
        have hwrap : u32 (m * descriptorsPerBlock sb + descriptorsPerBlock sb) = 0 := by
          rw [← hsucc, hlast, Nat.mul_comm, ← he]
          rfl
        have := @ih 0
        rw [Nat.zero_mul] at this
        rw [hwrap, if_neg (Nat.not_lt_zero _), hwrap]
        exact this (by omega)
      · have hmul := Nat.mul_le_mul_right (descriptorsPerBlock sb) (show m + 2 ≤ e by omega)
        have htwo : (m + 2) * descriptorsPerBlock sb =
            (m + 1) * descriptorsPerBlock sb + descriptorsPerBlock sb := by ring
        rw [Nat.mul_comm e, ← he] at hmul
        have hwrap : u32 (m * descriptorsPerBlock sb + descriptorsPerBlock sb) =
            (m + 1) * descriptorsPerBlock sb := by
          rw [← hsucc]
          exact Nat.mod_eq_of_lt (by omega)
        rw [hwrap, if_neg (by omega), hwrap]
        exact ih (by omega)

end Reader

section RoundTrip

/-- What a reader sees after descriptor `i` of the table in memory has been written back: that
descriptor, the descriptors of all other sectors as they were, and no change outside the
table. -/
def DescriptorWritten (sb : Superblock) (d groups : Bytes) (length i : Nat) : Prop :=
  (∀ heap fresh, ∃ t,
    Returns (fun fuel =>
      readBlkgrpTable sb fuel (writeBlkgrpTableIndex sb d groups i) heap fresh length) t ∧
    descriptor t i = descriptor groups i ∧
    ∀ j < length, j / 16 ≠ i / 16 → descriptor t j = descriptor (diskTable sb d) j) ∧
  ∀ a, a / ataSectorSize < tableLba sb ∨ tableLba sb + (length + 15) / 16 ≤ a / ataSectorSize →
    writeBlkgrpTableIndex sb d groups i a = d a

theorem readBlkgrpTable_spec (hsize : sb.blockSize ≠ 0)
    (hlen : length + descriptorsPerBlock sb ≤ 2 ^ 32) (heap fresh : Bytes) :
    ∃ t, Returns (fun fuel => readBlkgrpTable sb fuel d heap fresh length) t ∧
      ∀ j < length, descriptor t j = descriptor (diskTable sb d) j := by
  have hloop := @readTableLoop_spec sb d length hsize hlen length 0 heap fresh (by omega)
    fun a ha => absurd ha (by omega)
  simp only [Nat.zero_mul, Nat.add_zero] at hloop
  obtain ⟨t, hread, ht⟩ := hloop
  refine ⟨t, (readTableLoop_steady heap fresh 0 (tableLba sb)).returns _ hread,
    fun j hj => descriptor_congr fun a _ ha => ht a (lt_of_lt_of_le ha ?_)⟩
  exact Nat.mul_le_mul_left _ hj

theorem tableLba_lt (sb : Superblock) : tableLba sb < 2 ^ 24 := by
  have hlt : sb.blockSize < 2 ^ 32 := Nat.mod_lt _ (by norm_num)
  have h := blockSectors_mul sb
  unfold ataSectorSize at h
  unfold tableLba
  split <;> omega

/-- Only in the first sector of the table the writer hits the sector of its descriptor. -/
theorem writeBlkgrpTableIndex_first (hi : i < 16) (a : Nat) :
    writeBlkgrpTableIndex sb d groups i a =
      if a / ataSectorSize = tableLba sb then groups (a - tableLba sb * ataSectorSize) else d a := by
  have hlba := tableLba_lt sb
  have hzero : i / (ataSectorSize / blkgrpSize) = 0 := Nat.div_eq_of_lt hi
  have haddr : u32 (tableLba sb) = tableLba sb := Nat.mod_eq_of_lt (by omega)
  unfold writeBlkgrpTableIndex ataWrite copyTo
  simp only [hzero, Nat.zero_mul, Nat.mul_zero, Nat.zero_add, Nat.add_zero, Nat.one_mul, haddr]
  by_cases ha : a / ataSectorSize = tableLba sb
  · rw [if_pos ha]
    exact if_pos (by unfold ataSectorSize at *; omega)
  · rw [if_neg ha]
    exact if_neg (by unfold ataSectorSize at *; omega)

theorem writeBlkgrpTableIndex_misses (hi : 16 ≤ i) (hlt : i < 2 ^ 32) :
    descriptor (diskTable sb (writeBlkgrpTableIndex sb d groups i)) i =
      descriptor (diskTable sb d) i := by
  have hlba := tableLba_lt sb
  refine descriptor_congr fun a hlow hhigh => ?_
  unfold diskTable writeBlkgrpTableIndex ataWrite copyTo
  simp only [show ataSectorSize / blkgrpSize = 16 from rfl]
  refine if_neg ?_
  unfold u32
  unfold ataSectorSize blkgrpSize at *
  omega

/-- The round trip of a changed descriptor works for the first sixteen, in a table that the
reader can finish. -/
theorem write_blkgrp_table_index_iff (sb : Superblock) (d groups : Bytes) (length i : Nat)
    (hsize : sb.blockSize ≠ 0) (hlength : length < 2 ^ 32) (hi : i < length)
    (hchanged : descriptor groups i ≠ descriptor (diskTable sb d) i) :
    DescriptorWritten sb d groups length i ↔
      i < 16 ∧ length + descriptorsPerBlock sb ≤ 2 ^ 32 := by
  constructor
  · rintro ⟨hread, -⟩
    obtain ⟨t, hret, hdesc, -⟩ := hread (fun _ => 0) fun _ => 0
    have hlen : length + descriptorsPerBlock sb ≤ 2 ^ 32 := by
      by_contra hover
      refine not_returns (fun fuel => ?_) t hret
      have hnone := @readTableLoop_none sb (writeBlkgrpTableIndex sb d groups i) length hsize hlength
        (by omega) fuel 0 (tableLba sb) (fun _ => 0) (fun _ => 0) (by omega)
      rwa [Nat.zero_mul] at hnone
    refine ⟨?_, hlen⟩
    by_contra hge
    obtain ⟨t', hret', ht'⟩ := @readBlkgrpTable_spec sb
      (writeBlkgrpTableIndex sb d groups i) length hsize hlen (fun _ => 0) fun _ => 0
    refine hchanged ?_
    rw [← hdesc, hret.unique hret', ht' i hi]
    exact writeBlkgrpTableIndex_misses (by omega) (by omega)
  · rintro ⟨hfirst, hlen⟩
    refine ⟨fun heap fresh => ?_, fun a ha => ?_⟩
    · obtain ⟨t, hread, ht⟩ := @readBlkgrpTable_spec sb
        (writeBlkgrpTableIndex sb d groups i) length hsize hlen heap fresh
      refine ⟨t, hread, ?_, fun j hj hsector => ?_⟩
      · rw [ht i hi]
        refine descriptor_congr fun a hlow hhigh => ?_
        unfold diskTable
        rw [writeBlkgrpTableIndex_first hfirst, if_pos, Nat.add_sub_cancel_left]
        unfold ataSectorSize blkgrpSize at *
        omega
      · rw [ht j hj]
        refine descriptor_congr fun a hlow hhigh => ?_
        unfold diskTable
        rw [writeBlkgrpTableIndex_first hfirst]
        refine if_neg ?_
        unfold ataSectorSize blkgrpSize at *
        omega
    · rw [writeBlkgrpTableIndex_first hfirst]
      exact if_neg (by omega)

/-- A table of 32 groups of which one descriptor has been filled in. -/
def changedTable (i : Nat) : Bytes := fun a => if a / 32 = i then 1#8 else 0#8

theorem changedTable_ne (i : Nat) :
    descriptor (changedTable i) i ≠ descriptor (diskTable (oneGroup 5).sb blankMedium) i := by
  intro h
  have hfirst := congrFun h 0
  unfold descriptor changedTable blkgrpSize at hfirst
  rw [if_pos (by simp)] at hfirst
  exact absurd (show 1#8 = 0#8 from hfirst) (by decide)

theorem write_blkgrp_table_index_second :
    DescriptorWritten (oneGroup 5).sb blankMedium (changedTable 1) 32 1 :=
  (write_blkgrp_table_index_iff (oneGroup 5).sb blankMedium (changedTable 1) 32 1 (by decide)
    (by decide) (by decide) (changedTable_ne 1)).mpr ⟨by decide, by decide +kernel⟩

/-- Descriptor 16 does not reach the medium. -/
theorem write_blkgrp_table_index_loses :
    ¬ ∀ (sb : Superblock) (d groups : Bytes) (length i : Nat), sb.blockSize ≠ 0 →
      length < 2 ^ 32 → i < length → descriptor groups i ≠ descriptor (diskTable sb d) i →
      DescriptorWritten sb d groups length i := by
  intro h
  obtain ⟨t, hret, hdesc, -⟩ := (h (oneGroup 5).sb blankMedium (changedTable 16) 32 16 (by decide)
    (by decide) (by decide) (changedTable_ne 16)).1 blankMedium blankMedium
  obtain ⟨t', hret', ht'⟩ := @readBlkgrpTable_spec (oneGroup 5).sb
    (writeBlkgrpTableIndex (oneGroup 5).sb blankMedium (changedTable 16) 16) 32 (by decide)
    (by decide +kernel) blankMedium blankMedium
  refine changedTable_ne 16 ?_
  rw [← hdesc, hret.unique hret', ht' 16 (by decide)]
  exact writeBlkgrpTableIndex_misses (by decide) (by decide)

end RoundTrip

end UntitledOs.Fs
