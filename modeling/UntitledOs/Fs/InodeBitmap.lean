import UntitledOs.Fs.Release

/-!
# Inode bitmaps

The search for a free inode and its marks.  The search passes over a whole byte
of the bitmap when the byte starts at a reserved inode, and counts the bytes anew
in each block of a bitmap.
-/

namespace UntitledOs.Fs

open UntitledOs.Lib

variable {g : Gdata} {d heap : Bytes} {first total : Nat}

section Search

/-- `while(b & 0x80 || base + bsh <= sb->first_unres_inode) { b <<= 1; ++bsh; }`.  After 256
rounds `bsh` is zero again, and a byte that is searched ends the loop there. -/
def skipUsed (first base : Nat) : Nat → Byte → Nat → Nat
  | 0, _, bsh => bsh
  | fuel + 1, b, bsh =>
      if b &&& 0x80#8 ≠ 0#8 ∨ u32 (base + bsh) ≤ first then
        skipUsed first base fuel (b <<< 1) ((bsh + 1) % 256)
      else bsh

/-- The scan of one block of an inode bitmap; `base` is `blkgrp * sb->inodes_per_group`. -/
def scanInodeBlock (first base : Nat) (buf : Bytes) : Nat → Nat → Option Nat
  | 0, _ => none
  | n + 1, bind =>
      if u32 (base + bind * 8) ≤ first then scanInodeBlock first base buf n (bind + 1)
      else if buf bind ≠ 255#8 then
        some (u32 (bind * 8 + skipUsed first (base + bind * 8) 256 (buf bind) 0 + 1))
      else scanInodeBlock first base buf n (bind + 1)

/-- The scan of `n` blocks from `bmb` on. -/
def scanInodeBitmap (sb : Superblock) (d : Bytes) (first base : Nat) :
    Nat → Nat → Bytes → Option Nat
  | 0, _, _ => none
  | n + 1, bmb, buf =>
      let buf := ataRead d (bmb * sb.blockSectors) sb.blockSectors buf
      match scanInodeBlock first base buf sb.blockSize 0 with
      | some u => some u
      | none => scanInodeBitmap sb d first base n (bmb + 1) buf

/-- The blocks of an inode bitmap. -/
def inodeBitmapBlocks (sb : Superblock) : Nat :=
  sb.inodesPerGroup / u32 (8 * sb.blockSize) +
    if sb.inodesPerGroup % u32 (8 * sb.blockSize) = 0 then 0 else 1

/-- `fs_ext2_find_grp_unalloc_inode`; `first` is `sb->first_unres_inode`. -/
def findGrpUnallocInode (g : Gdata) (first : Nat) (d heap : Bytes) (blkgrp : Nat) : Nat :=
  let addr := (g.bt.groups blkgrp).inodeBitmapAddr
  (scanInodeBitmap g.sb d first (blkgrp * g.sb.inodesPerGroup)
    (u32 (addr + inodeBitmapBlocks g.sb) - addr) addr heap).getD 0

/-- The first of `n` groups from `bi` on with a free inode, and the number of that inode within
the group. -/
def findInodeFrom (g : Gdata) (first : Nat) (d heap : Bytes) : Nat → Nat → Option (Nat × Nat)
  | 0, _ => none
  | n + 1, bi =>
      let inum := findGrpUnallocInode g first d heap bi
      if inum ≠ 0 then some (bi, inum) else findInodeFrom g first d heap n (bi + 1)

/-- `fs_ext2_find_unalloc_inode`.  As in `fs_ext2_find_unalloc_block`, the second search answers
with the number of the group `bi` behind the table. -/
def findUnallocInode (g : Gdata) (first : Nat) (d heap : Bytes) (blkgrpStart : Nat) : Nat :=
  match findInodeFrom g first d heap (g.bt.length - blkgrpStart) blkgrpStart with
  | some (bi, inum) => u32 (bi * g.sb.inodesPerGroup + inum)
  | none =>
      let bi := max blkgrpStart g.bt.length
      match findInodeFrom g first d heap bi 0 with
      | some (_, inum) => u32 (bi * g.sb.inodesPerGroup + inum)
      | none => 0

/-- `fs_ext2_mark_alloc_inode`. -/
def markAllocInode (g : Gdata) (d heap : Bytes) (inodeNum : Nat) : Bytes :=
  editBitmap g.sb d heap (g.bt.groups (pred32 inodeNum / g.sb.inodesPerGroup)).inodeBitmapAddr
    (pred32 inodeNum % g.sb.inodesPerGroup) (fun b mask => b ||| mask)

theorem bitAt_markAllocInode (inodeNum k : Nat) :
    bitAt (markAllocInode g d heap inodeNum) k = (bitAt d k || decide (k = inodeBit g inodeNum)) := by
  unfold markAllocInode
  rw [editBitmap_eq]
  exact bitAt_or d _ (Nat.mod_lt _ (by decide)) k

end Search

section Geometry

/-- Bit `t` of the inode bitmap of group `bi`, as the search reads it. -/
def groupBit (g : Gdata) (bi t : Nat) : Nat :=
  8 * bitmapAddr g.sb (g.bt.groups bi).inodeBitmapAddr (t / 8) + t % 8

/-- Inode bitmaps whose sectors have 32-bit numbers and whose bits are different ones. -/
structure InodeGeometry (g : Gdata) (total : Nat) : Prop where
  perGroup : 0 < g.sb.inodesPerGroup
  count : total = g.bt.length * g.sb.inodesPerGroup
  total_lt : total < 2 ^ 32
  blockSize_pos : 0 < g.sb.blockSize
  blockSize_lt : 8 * g.sb.blockSize < 2 ^ 32
  sectors : ∀ bi < g.bt.length, ∀ t < g.sb.inodesPerGroup,
    (g.bt.groups bi).inodeBitmapAddr * g.sb.blockSectors + t / 8 / ataSectorSize < 2 ^ 32
  blocks : ∀ bi < g.bt.length, (g.bt.groups bi).inodeBitmapAddr + inodeBitmapBlocks g.sb < 2 ^ 32
  bits : ∀ i, 1 ≤ i → i ≤ total → ∀ j, 1 ≤ j → j ≤ total → inodeBit g i = inodeBit g j → i = j

/-- The bits behind the inodes of a group are set. -/
def PaddingSet (g : Gdata) (d : Bytes) : Prop :=
  ∀ bi < g.bt.length, ∀ t, g.sb.inodesPerGroup ≤ t →
    t < 8 * (inodeBitmapBlocks g.sb * g.sb.blockSize) → bitAt d (groupBit g bi t) = true

def InodeFree (g : Gdata) (d : Bytes) (i : Nat) : Prop := bitAt d (inodeBit g i) = false

/-- Byte `k` of block `n` of the inode bitmap of group `bi` is searched and has a clear bit. -/
def FreeByte (g : Gdata) (first : Nat) (d : Bytes) (bi n k : Nat) : Prop :=
  first < u32 (bi * g.sb.inodesPerGroup + k * 8) ∧
    d (bitmapAddr g.sb ((g.bt.groups bi).inodeBitmapAddr + n) k) ≠ 255#8

theorem groupBit_block (g : Gdata) (bi n k : Nat) {j : Nat} (hj : j < 8) :
    groupBit g bi (8 * (n * g.sb.blockSize + k) + j) =
      8 * bitmapAddr g.sb ((g.bt.groups bi).inodeBitmapAddr + n) k + j := by
  have hlen := blockSectors_mul g.sb
  have hdiv : (8 * (n * g.sb.blockSize + k) + j) / 8 = n * g.sb.blockSize + k := by omega
  have hmod : (8 * (n * g.sb.blockSize + k) + j) % 8 = j := by omega
  unfold groupBit bitmapAddr
  rw [hdiv, hmod, Nat.add_mul, Nat.add_mul, Nat.mul_assoc n, hlen]
  ring

theorem bitAt_groupBit (bi n k : Nat) {j : Nat} (hj : j < 8) :
    bitAt d (groupBit g bi (8 * (n * g.sb.blockSize + k) + j)) =
      (d (bitmapAddr g.sb ((g.bt.groups bi).inodeBitmapAddr + n) k)).getMsbD j := by
  rw [groupBit_block g bi n k hj]
  unfold bitAt
  rw [Nat.mul_add_div (by decide), Nat.mul_add_mod, Nat.div_eq_of_lt hj, Nat.mod_eq_of_lt hj,
    Nat.add_zero]

namespace InodeGeometry

theorem group_le (h : InodeGeometry g total) {bi : Nat} (hbi : bi < g.bt.length) :
    bi * g.sb.inodesPerGroup + g.sb.inodesPerGroup ≤ total := by
  have := Nat.mul_le_mul_right g.sb.inodesPerGroup (Nat.succ_le_of_lt hbi)
  rw [h.count]
  rwa [Nat.succ_mul] at this

theorem inodeBit_eq (h : InodeGeometry g total) {bi t : Nat} (hbi : bi < g.bt.length)
    (ht : t < g.sb.inodesPerGroup) :
    inodeBit g (bi * g.sb.inodesPerGroup + t + 1) = groupBit g bi t := by
  have hle := h.group_le hbi
  have hlt := h.total_lt
  have hpred : pred32 (bi * g.sb.inodesPerGroup + t + 1) = bi * g.sb.inodesPerGroup + t := by
    rw [pred32_of_ne_zero (by omega) (by omega), Nat.add_sub_cancel]
  have hgroup : (bi * g.sb.inodesPerGroup + t) / g.sb.inodesPerGroup = bi := by
    rw [Nat.mul_comm, Nat.mul_add_div h.perGroup, Nat.div_eq_of_lt ht, Nat.add_zero]
  have htind : (bi * g.sb.inodesPerGroup + t) % g.sb.inodesPerGroup = t := by
    rw [Nat.mul_comm, Nat.mul_add_mod, Nat.mod_eq_of_lt ht]
  unfold inodeBit bitmapBit bitmapByte bitmapSector groupBit bitmapAddr
  rw [hpred, hgroup, htind, u32, Nat.mod_eq_of_lt (h.sectors bi hbi t ht)]
  unfold ataSectorSize
  omega

theorem blocks_mul (h : InodeGeometry g total) :
    g.sb.inodesPerGroup ≤ 8 * (inodeBitmapBlocks g.sb * g.sb.blockSize) := by
  have hw : u32 (8 * g.sb.blockSize) = 8 * g.sb.blockSize := Nat.mod_eq_of_lt h.blockSize_lt
  have hdiv := Nat.div_add_mod g.sb.inodesPerGroup (8 * g.sb.blockSize)
  have hmod := Nat.mod_lt g.sb.inodesPerGroup
    (show 8 * g.sb.blockSize > 0 by have := h.blockSize_pos; omega)
  have hmul : 8 * (inodeBitmapBlocks g.sb * g.sb.blockSize) =
      8 * g.sb.blockSize * inodeBitmapBlocks g.sb := by ring
  rw [hmul]
  unfold inodeBitmapBlocks
  rw [hw]
  split
  · rw [Nat.add_zero]
    omega
  · rw [Nat.mul_add, Nat.mul_one]
    omega

/-- The first clear bit of a searched byte is a free inode behind the reserved ones. -/
theorem freeByte_inode (h : InodeGeometry g total) (hpad : PaddingSet g d) {bi n k : Nat}
    (hbi : bi < g.bt.length) (hn : n < inodeBitmapBlocks g.sb) (hk : k < g.sb.blockSize)
    (hfree : FreeByte g first d bi n k) :
    ∃ j < 8, j = leadingOnes 8 (d (bitmapAddr g.sb ((g.bt.groups bi).inodeBitmapAddr + n) k)) ∧
      8 * (n * g.sb.blockSize + k) + j < g.sb.inodesPerGroup ∧
      first < bi * g.sb.inodesPerGroup + 8 * k ∧
      InodeFree g d (bi * g.sb.inodesPerGroup + (8 * (n * g.sb.blockSize + k) + j) + 1) := by
  obtain ⟨hj, hclear⟩ := leadingOnes_spec hfree.2
  have hbit := (bitAt_groupBit (d := d) (g := g) bi n k hj).trans hclear
  have hinside : 8 * (n * g.sb.blockSize + k) +
      leadingOnes 8 (d (bitmapAddr g.sb ((g.bt.groups bi).inodeBitmapAddr + n) k)) <
      g.sb.inodesPerGroup := by
    by_contra hge
    have hblock := Nat.mul_le_mul_right g.sb.blockSize (Nat.succ_le_of_lt hn)
    rw [Nat.succ_mul] at hblock
    have hset := hpad bi hbi _ (Nat.le_of_not_lt hge) (by omega)
    rw [hbit] at hset
    exact Bool.false_ne_true hset
  have hle := h.group_le hbi
  have hlt := h.total_lt
  refine ⟨_, hj, rfl, hinside, ?_, ?_⟩
  · have hfirst := hfree.1
    rw [u32, Nat.mod_eq_of_lt (by omega)] at hfirst
    omega
  · unfold InodeFree
    rw [h.inodeBit_eq hbi hinside]
    exact hbit

end InodeGeometry

end Geometry

section Specs

theorem skipUsed_eq {base : Nat} {n fuel bsh : Nat} {b : Byte} (hfuel : n < fuel)
    (hones : leadingOnes n b < n) (hbase : first < base)
    (hwrap : base + bsh + leadingOnes n b < 2 ^ 32) (hbsh : bsh + n < 256) :
    skipUsed first base fuel b bsh = bsh + leadingOnes n b := by
  induction n generalizing fuel b bsh with
  | zero => omega
  | succ n ih =>
      obtain ⟨fuel, rfl⟩ := Nat.exists_eq_succ_of_ne_zero (show fuel ≠ 0 by omega)
      rw [skipUsed]
      rw [leadingOnes] at hones hwrap ⊢
      by_cases hbit : b &&& 0x80#8 ≠ 0#8
      · rw [if_pos hbit] at hones hwrap ⊢
        rw [if_pos (.inl hbit), Nat.mod_eq_of_lt (by omega),
          ih (by omega) (by omega) (by omega) (by omega)]
        omega
      · have hgt : ¬ u32 (base + bsh) ≤ first := by
          rw [u32, Nat.mod_eq_of_lt (by omega)]
          omega
        rw [if_neg hbit, if_neg (not_or.mpr ⟨hbit, hgt⟩), Nat.add_zero]

/-- Byte `k` of a block in memory is searched and has a clear bit. -/
def Searched (first base : Nat) (buf : Bytes) (k : Nat) : Prop :=
  first < u32 (base + k * 8) ∧ buf k ≠ 255#8

theorem scanInodeBlock_cases (first base : Nat) (buf : Bytes) (n bind : Nat) :
    (scanInodeBlock first base buf n bind = none ∧
      ∀ k, bind ≤ k → k < bind + n → ¬ Searched first base buf k) ∨
    ∃ k, bind ≤ k ∧ k < bind + n ∧ Searched first base buf k ∧
      (∀ i, bind ≤ i → i < k → ¬ Searched first base buf i) ∧
      scanInodeBlock first base buf n bind =
        some (u32 (k * 8 + skipUsed first (base + k * 8) 256 (buf k) 0 + 1)) := by
  induction n generalizing bind with
  | zero => exact .inl ⟨rfl, fun k hk hlt => absurd hlt (by omega)⟩
  | succ n ih =>
      by_cases hbyte : Searched first base buf bind
      · refine .inr ⟨bind, le_rfl, by omega, hbyte, fun i hi hlt => absurd hlt (by omega), ?_⟩
        rw [scanInodeBlock, if_neg (by have := hbyte.1; omega), if_pos hbyte.2]
      · have hstep : scanInodeBlock first base buf (n + 1) bind =
            scanInodeBlock first base buf n (bind + 1) := by
          rw [scanInodeBlock]
          split
          · rfl
          · rename_i hgt
            rw [if_neg fun hne => hbyte ⟨by omega, hne⟩]
        have hlater : ∀ {i}, bind ≤ i → Searched first base buf i → bind + 1 ≤ i := by
          intro i hi hsearched
          by_contra hlt
          exact hbyte (by rwa [show bind = i by omega])
        rw [hstep]
        obtain ⟨hnone, hall⟩ | ⟨k, hk, hlt, hsearched, hbefore, hsome⟩ := ih (bind + 1)
        · exact .inl ⟨hnone, fun k hk hlt hs => hall k (hlater hk hs) (by omega) hs⟩
        · exact .inr ⟨k, by omega, by omega, hsearched,
            fun i hi hik hs => hbefore i (hlater hi hs) hik hs, hsome⟩

/-- The first free byte of a bitmap, and what the scan answers for it. -/
structure ScanHit (sb : Superblock) (first base : Nat) (d : Bytes) (bmb n m k u : Nat) : Prop where
  block : m < n
  byte : k < sb.blockSize
  searched : Searched first base (fun i => d (bitmapAddr sb (bmb + m) i)) k
  before : ∀ m' < m, ∀ k' < sb.blockSize,
    ¬ Searched first base (fun i => d (bitmapAddr sb (bmb + m') i)) k'
  within : ∀ k' < k, ¬ Searched first base (fun i => d (bitmapAddr sb (bmb + m) i)) k'
  answer : u = u32 (k * 8 + skipUsed first (base + k * 8) 256 (d (bitmapAddr sb (bmb + m) k)) 0 + 1)

theorem ScanHit.firstByte {sb : Superblock} {base bmb n m k u : Nat}
    (h : ScanHit sb first base d bmb n m k u) :
    FirstByte (fun m => Searched first base fun i => d (bitmapAddr sb (bmb + m) i)) n sb.blockSize
      m k :=
  ⟨h.block, h.byte, h.searched, h.before, h.within⟩

theorem scanInodeBitmap_cases (sb : Superblock) (d : Bytes) (first base n bmb : Nat) (buf : Bytes) :
    (scanInodeBitmap sb d first base n bmb buf = none ∧
      ∀ m < n, ∀ k < sb.blockSize,
        ¬ Searched first base (fun i => d (bitmapAddr sb (bmb + m) i)) k) ∨
    ∃ m k u, ScanHit sb first base d bmb n m k u ∧
      scanInodeBitmap sb d first base n bmb buf = some u := by
  induction n generalizing bmb buf with
  | zero => exact .inl ⟨rfl, fun m hm => absurd hm (by omega)⟩
  | succ n ih =>
      have hread : ∀ k < sb.blockSize,
          ataRead d (bmb * sb.blockSectors) sb.blockSectors buf k = d (bitmapAddr sb (bmb + 0) k) :=
        fun k hk => ataRead_bitmap bmb hk buf
      have hshift : ∀ m, bmb + 1 + m = bmb + (m + 1) := fun m => by omega
      simp only [scanInodeBitmap]
      generalize ataRead d (bmb * sb.blockSectors) sb.blockSectors buf = block at hread ⊢
      have hsame : ∀ k < sb.blockSize, Searched first base block k ↔
          Searched first base (fun i => d (bitmapAddr sb (bmb + 0) i)) k := fun k hk => by
        unfold Searched
        rw [hread k hk]
      obtain ⟨hnone, hall⟩ | ⟨k, -, hk, hsearched, hwithin, hsome⟩ :=
        scanInodeBlock_cases first base block sb.blockSize 0
      · have hfull : ∀ k < sb.blockSize,
            ¬ Searched first base (fun i => d (bitmapAddr sb (bmb + 0) i)) k := fun k hk hs =>
          hall k (Nat.zero_le k) (by omega) ((hsame k hk).mpr hs)
        rw [hnone]
        obtain ⟨hrest, hclear⟩ | ⟨m, k, u, hhit, hsome⟩ := ih (bmb + 1) block
        · simp only [hshift] at hclear
          exact .inl ⟨hrest, forall_blocks hfull hclear⟩
        · have hlater := hhit.firstByte
          have hanswer := hhit.answer
          simp only [hshift] at hlater hanswer
          obtain ⟨hm, hk, hsearched, hbefore, hwithin⟩ := @FirstByte.later
            (fun m => Searched first base fun i => d (bitmapAddr sb (bmb + m) i)) n sb.blockSize
            m k hfull hlater
          exact .inr ⟨m + 1, k, u, ⟨hm, hk, hsearched, hbefore, hwithin, hanswer⟩, hsome⟩
      · rw [Nat.zero_add] at hk
        rw [hsome]
        refine .inr ⟨0, k, _, ⟨Nat.succ_pos n, hk, (hsame k hk).mp hsearched,
          fun m' hm' => absurd hm' (Nat.not_lt_zero m'), fun k' hk' hs => hwithin k'
            (Nat.zero_le k') hk' ((hsame k' (by omega)).mpr hs), ?_⟩, rfl⟩
        rw [hread k hk]

/-- What the search of one group finds: nothing in the bytes it searches, or a free inode, whose
number it gives within the block of the bitmap. -/
theorem findGrpUnallocInode_cases (h : InodeGeometry g total) (hpad : PaddingSet g d)
    (first : Nat) (heap : Bytes) {bi : Nat} (hbi : bi < g.bt.length) :
    (findGrpUnallocInode g first d heap bi = 0 ∧
      ∀ n < inodeBitmapBlocks g.sb, ∀ k < g.sb.blockSize, ¬ FreeByte g first d bi n k) ∨
    ∃ n < inodeBitmapBlocks g.sb, ∃ k < g.sb.blockSize, ∃ j < 8, FreeByte g first d bi n k ∧
      (∀ n' < n, ∀ k' < g.sb.blockSize, ¬ FreeByte g first d bi n' k') ∧
      8 * (n * g.sb.blockSize + k) + j < g.sb.inodesPerGroup ∧
      first < bi * g.sb.inodesPerGroup + 8 * k ∧
      InodeFree g d (bi * g.sb.inodesPerGroup + (8 * (n * g.sb.blockSize + k) + j) + 1) ∧
      findGrpUnallocInode g first d heap bi = 8 * k + j + 1 := by
  have hle := h.group_le hbi
  have hlt := h.total_lt
  have hcount : u32 ((g.bt.groups bi).inodeBitmapAddr + inodeBitmapBlocks g.sb) -
      (g.bt.groups bi).inodeBitmapAddr = inodeBitmapBlocks g.sb := by
    rw [u32, Nat.mod_eq_of_lt (h.blocks bi hbi), Nat.add_sub_cancel_left]
  have hcases := scanInodeBitmap_cases g.sb d first (bi * g.sb.inodesPerGroup)
    (inodeBitmapBlocks g.sb) (g.bt.groups bi).inodeBitmapAddr heap
  unfold findGrpUnallocInode
  simp only [hcount]
  obtain ⟨hnone, hall⟩ | ⟨n, k, u, hhit, hsome⟩ := hcases
  · rw [hnone]
    exact .inl ⟨rfl, hall⟩
  · obtain ⟨j, hj, hjeq, hinside, hfirst, hfree⟩ :=
      h.freeByte_inode hpad hbi hhit.block hhit.byte hhit.searched
    have hones : skipUsed first (bi * g.sb.inodesPerGroup + k * 8) 256
        (d (bitmapAddr g.sb ((g.bt.groups bi).inodeBitmapAddr + n) k)) 0 = j := by
      rw [skipUsed_eq (n := 8) (by decide) (by rw [← hjeq]; exact hj) (by omega)
        (by rw [← hjeq]; omega) (by decide), ← hjeq, Nat.zero_add]
    rw [hsome, Option.getD_some, hhit.answer, hones, u32, Nat.mod_eq_of_lt (by omega)]
    exact .inr ⟨n, hhit.block, k, hhit.byte, j, hj, hhit.searched, hhit.before, hinside, hfirst,
      hfree, by omega⟩

/-- The search over the groups stops at the first one that answers. -/
theorem findInodeFrom_cases (g : Gdata) (first : Nat) (d heap : Bytes) (n bi : Nat) :
    (findInodeFrom g first d heap n bi = none ∧
      ∀ x, bi ≤ x → x < bi + n → findGrpUnallocInode g first d heap x = 0) ∨
    ∃ x, bi ≤ x ∧ x < bi + n ∧ findGrpUnallocInode g first d heap x ≠ 0 ∧
      (∀ y, bi ≤ y → y < x → findGrpUnallocInode g first d heap y = 0) ∧
      findInodeFrom g first d heap n bi = some (x, findGrpUnallocInode g first d heap x) := by
  induction n generalizing bi with
  | zero => exact .inl ⟨rfl, fun x hx hlt => absurd hlt (by omega)⟩
  | succ n ih =>
      simp only [findInodeFrom]
      by_cases hzero : findGrpUnallocInode g first d heap bi = 0
      · rw [if_neg fun hne => hne hzero]
        have hhere : ∀ x, bi ≤ x → ¬ bi + 1 ≤ x → findGrpUnallocInode g first d heap x = 0 := by
          intro x hx hlt
          rwa [show x = bi by omega]
        obtain ⟨hnone, hall⟩ | ⟨x, hx, hlt, hne, hbefore, hsome⟩ := ih (bi + 1)
        · refine .inl ⟨hnone, fun x hx hlt => ?_⟩
          by_cases hlater : bi + 1 ≤ x
          · exact hall x hlater (by omega)
          · exact hhere x hx hlater
        · refine .inr ⟨x, by omega, by omega, hne, fun y hy hyx => ?_, hsome⟩
          by_cases hlater : bi + 1 ≤ y
          · exact hbefore y hlater hyx
          · exact hhere y hy hlater
      · rw [if_pos hzero]
        exact .inr ⟨bi, le_rfl, by omega, hzero, fun y hy hlt => absurd hlt (by omega), rfl⟩

end Specs

section Rounds

/-- What a caller of the search relies on. -/
def FindsInode (g : Gdata) (first : Nat) (d heap : Bytes) (total start : Nat) : Prop :=
  let r := findUnallocInode g first d heap start
  (r = 0 → ∀ i, first < i → i ≤ total → ¬ InodeFree g d i) ∧
    (r ≠ 0 → 1 ≤ r ∧ r ≤ total ∧ first < r ∧ InodeFree g d r)

theorem FindsInode.none_free {start : Nat} (h : FindsInode g first d heap total start)
    (hzero : findUnallocInode g first d heap start = 0) :
    ∀ i, first < i → i ≤ total → ¬ InodeFree g d i := h.1 hzero

/-- No inode behind the reserved ones is free, or the first group from `start` on with a free
searched byte has one in the first block of its bitmap. -/
def InodeSearchSafe (g : Gdata) (first : Nat) (d : Bytes) (total start : Nat) : Prop :=
  (∀ i, first < i → i ≤ total → ¬ InodeFree g d i) ∨
  ∃ bi k, start ≤ bi ∧ bi < g.bt.length ∧ k < g.sb.blockSize ∧ FreeByte g first d bi 0 k ∧
    ∀ x, start ≤ x → x < bi → ∀ n < inodeBitmapBlocks g.sb, ∀ k < g.sb.blockSize,
      ¬ FreeByte g first d x n k

theorem findGrpUnallocInode_none (h : InodeGeometry g total) (hpad : PaddingSet g d) {bi : Nat}
    (hbi : bi < g.bt.length) (hnone : ∀ n < inodeBitmapBlocks g.sb, ∀ k < g.sb.blockSize,
      ¬ FreeByte g first d bi n k) : findGrpUnallocInode g first d heap bi = 0 := by
  obtain ⟨hzero, -⟩ | ⟨n, hn, k, hk, -, -, hfree, -⟩ :=
    findGrpUnallocInode_cases h hpad first heap hbi
  · exact hzero
  · exact absurd hfree (hnone n hn k hk)

/-- A group that gives something has a free inode behind the reserved ones. -/
theorem exists_free_of_group (h : InodeGeometry g total) (hpad : PaddingSet g d) {bi : Nat}
    (hbi : bi < g.bt.length) (hne : findGrpUnallocInode g first d heap bi ≠ 0) :
    ∃ i, first < i ∧ i ≤ total ∧ InodeFree g d i := by
  obtain ⟨hzero, -⟩ | ⟨n, -, k, -, j, -, -, -, hinside, hfirst, hfree, -⟩ :=
    findGrpUnallocInode_cases h hpad first heap hbi
  · exact absurd hzero hne
  · have hle := h.group_le hbi
    exact ⟨_, by nlinarith [Nat.zero_le (n * g.sb.blockSize)], by omega, hfree⟩

theorem findUnallocInode_none {start : Nat} (hstart : start < g.bt.length)
    (hnone : ∀ bi < g.bt.length, findGrpUnallocInode g first d heap bi = 0) :
    findUnallocInode g first d heap start = 0 := by
  have hsearch : ∀ n bi, bi + n ≤ g.bt.length → findInodeFrom g first d heap n bi = none := by
    intro n bi hle
    obtain ⟨hsome, -⟩ | ⟨x, -, hx, hne, -⟩ := findInodeFrom_cases g first d heap n bi
    · exact hsome
    · exact absurd (hnone x (by omega)) hne
  unfold findUnallocInode
  rw [hsearch _ _ (by omega)]
  simp only []
  rw [hsearch _ _ (by omega)]

theorem findsInode_of_safe (h : InodeGeometry g total) (hpad : PaddingSet g d) {start : Nat}
    (hsafe : InodeSearchSafe g first d total start) (hstart : start < g.bt.length) :
    FindsInode g first d heap total start := by
  have hlt := h.total_lt
  have hblocks : 0 < inodeBitmapBlocks g.sb := by
    have hmul := h.blocks_mul
    have hpos := h.perGroup
    by_contra hzero
    rw [Nat.le_zero.mp (Nat.le_of_not_lt hzero)] at hmul
    omega
  obtain hused | ⟨bi, k₀, hge, hbi, hk₀, hbyte, hfull⟩ := hsafe
  · have hnone : ∀ bi < g.bt.length, findGrpUnallocInode g first d heap bi = 0 := by
      intro bi hbi
      by_contra hne
      obtain ⟨i, hfirst, hle, hfree⟩ := exists_free_of_group h hpad hbi hne
      exact hused i hfirst hle hfree
    have hzero := findUnallocInode_none hstart hnone
    exact ⟨fun _ => hused, fun hne => absurd hzero hne⟩
  · obtain ⟨-, hall⟩ | ⟨n, hn, k, hk, j, hj, -, hbefore, hinside, hfirst, hfree, hfind⟩ :=
      findGrpUnallocInode_cases h hpad first heap hbi
    · exact absurd hbyte (hall 0 hblocks k₀ hk₀)
    have hn0 : n = 0 := by
      by_contra hne
      exact hbefore 0 (by omega) k₀ hk₀ hbyte
    subst hn0
    rw [Nat.zero_mul, Nat.zero_add] at hinside hfree
    have hle := h.group_le hbi
    have hr : findUnallocInode g first d heap start =
        bi * g.sb.inodesPerGroup + (8 * k + j) + 1 := by
      unfold findUnallocInode
      obtain ⟨-, hzero⟩ | ⟨x, hx, hxlt, hne, hbefore', hsome⟩ :=
        findInodeFrom_cases g first d heap (g.bt.length - start) start
      · exact absurd (hzero bi hge (by omega)) (by omega)
      · have hxbi : x = bi := by
          rcases Nat.lt_trichotomy x bi with hlt' | heq | hgt
          · exact absurd (findGrpUnallocInode_none h hpad (by omega) (hfull x hx hlt')) hne
          · exact heq
          · exact absurd (hbefore' bi hge hgt) (by omega)
        rw [hsome, hxbi, hfind]
        simp only []
        rw [u32, Nat.mod_eq_of_lt (by omega)]
        omega
    unfold FindsInode
    simp only [hr]
    exact ⟨fun hzero => absurd hzero (by omega), fun _ => ⟨by omega, by omega, by omega, hfree⟩⟩

theorem safe_of_findsInode (h : InodeGeometry g total) (hpad : PaddingSet g d) {start : Nat}
    (hroom : total + g.sb.inodesPerGroup < 2 ^ 32) (hstart : start < g.bt.length)
    (hfinds : FindsInode g first d heap total start) : InodeSearchSafe g first d total start := by
  have hlt := h.total_lt
  have htotal := h.count
  obtain ⟨hzero, hvalid⟩ := hfinds
  have hdef : findUnallocInode g first d heap start = findUnallocInode g first d heap start := rfl
  conv_rhs at hdef => unfold findUnallocInode
  obtain ⟨hnone, hempty⟩ | ⟨bi, hge, hbi, hne, hbefore, hsome⟩ :=
    findInodeFrom_cases g first d heap (g.bt.length - start) start
  · rw [hnone, Nat.max_eq_right hstart.le] at hdef
    simp only [] at hdef
    obtain ⟨hnone', -⟩ | ⟨bi, -, hbi, hne, -, hsome⟩ :=
      findInodeFrom_cases g first d heap g.bt.length 0
    · rw [hnone'] at hdef
      exact .inl (hzero hdef)
    · -- the number of the group behind the table gives an inode that does not exist
      rw [hsome] at hdef
      obtain ⟨hzero', -⟩ | ⟨n, -, k, -, j, hj, -, -, hinside, -, -, hfind⟩ :=
        @findGrpUnallocInode_cases g d total h hpad first heap bi (by omega)
      · exact absurd hzero' hne
      have hk : 8 * k ≤ 8 * (n * g.sb.blockSize + k) :=
        Nat.mul_le_mul_left 8 (Nat.le_add_left k _)
      simp only [← htotal] at hdef
      rw [u32, Nat.mod_eq_of_lt (by omega)] at hdef
      have := (hvalid (by omega)).2.1
      omega
  · rw [hsome] at hdef
    obtain ⟨hzero', -⟩ | ⟨n, hn, k, hk, j, hj, hfree, hfull, hinside, -, -, hfind⟩ :=
      @findGrpUnallocInode_cases g d total h hpad first heap bi (by omega)
    · exact absurd hzero' hne
    have hle := @InodeGeometry.group_le g total h bi (by omega)
    by_cases hn0 : n = 0
    · subst hn0
      refine .inr ⟨bi, k, hge, by omega, hk, hfree, fun x hx hlt' n hn k hk hbyte => ?_⟩
      obtain ⟨-, hall⟩ | ⟨_, _, _, _, _, _, _, _, _, _, _, hfind'⟩ :=
        @findGrpUnallocInode_cases g d total h hpad first heap x (by omega)
      · exact hall n hn k hk hbyte
      · exact absurd (hbefore x hx hlt') (by omega)
    · -- the byte of the answer in the first block of the bitmap is full
      have hk8 : 8 * k ≤ 8 * (n * g.sb.blockSize + k) :=
        Nat.mul_le_mul_left 8 (Nat.le_add_left k _)
      have hbyte : d (bitmapAddr g.sb ((g.bt.groups bi).inodeBitmapAddr + 0) k) = 255#8 := by
        by_contra hne'
        exact hfull 0 (by omega) k hk ⟨hfree.1, hne'⟩
      have hset : bitAt d (groupBit g bi (8 * (0 * g.sb.blockSize + k) + j)) = true := by
        have hones : ∀ j < 8, (255#8).getMsbD j = true := by decide
        rw [bitAt_groupBit bi 0 k hj, hbyte]
        exact hones j hj
      rw [Nat.zero_mul, Nat.zero_add] at hset
      simp only [] at hdef
      rw [hfind, u32, Nat.mod_eq_of_lt (by omega)] at hdef
      have hclear := (hvalid (by omega)).2.2.2
      rw [hdef, show bi * g.sb.inodesPerGroup + (8 * k + j + 1) =
        bi * g.sb.inodesPerGroup + (8 * k + j) + 1 by omega] at hclear
      unfold InodeFree at hclear
      rw [h.inodeBit_eq (by omega) (by omega), hset] at hclear
      exact absurd hclear (by decide)

/-- Rounds of `i = fs_ext2_find_unalloc_inode(start)` and `fs_ext2_mark_alloc_inode(i)`: the
inodes returned, each with the medium it was found on. -/
def inodeRounds (g : Gdata) (first : Nat) (heap : Bytes) : Bytes → List Nat → List (Nat × Bytes)
  | _, [] => []
  | d, start :: starts =>
      let i := findUnallocInode g first d heap start
      if i = 0 then inodeRounds g first heap d starts
      else (i, d) :: inodeRounds g first heap (markAllocInode g d heap i) starts

def InodeRoundsSafe (g : Gdata) (first : Nat) (heap : Bytes) (total : Nat) : Bytes → List Nat → Prop
  | _, [] => True
  | d, start :: starts =>
      (start < g.bt.length ∧ InodeSearchSafe g first d total start) ∧
      let i := findUnallocInode g first d heap start
      InodeRoundsSafe g first heap total (if i = 0 then d else markAllocInode g d heap i) starts

theorem PaddingSet.mark (hpad : PaddingSet g d) (i : Nat) : PaddingSet g (markAllocInode g d heap i) :=
  fun bi hbi t hge hlt => by rw [bitAt_markAllocInode, hpad bi hbi t hge hlt, Bool.true_or]

theorem inodeRounds_keeps {starts : List Nat} {p : Nat × Bytes} {k : Nat}
    (hp : p ∈ inodeRounds g first heap d starts) (hk : bitAt d k = true) : bitAt p.2 k = true := by
  induction starts generalizing d with
  | nil => simp [inodeRounds] at hp
  | cons start starts ih =>
      simp only [inodeRounds] at hp
      split at hp
      · exact ih hp hk
      · rcases List.mem_cons.mp hp with rfl | hp
        · exact hk
        · exact ih hp (by rw [bitAt_markAllocInode, hk, Bool.true_or])

/-- An inode that a round returns lies behind the reserved ones and was free. -/
def Returned (g : Gdata) (first total : Nat) (p : Nat × Bytes) : Prop :=
  1 ≤ p.1 ∧ p.1 ≤ total ∧ first < p.1 ∧ InodeFree g p.2 p.1

theorem inodeRounds_returned (h : InodeGeometry g total) (hpad : PaddingSet g d)
    {starts : List Nat} (hsafe : InodeRoundsSafe g first heap total d starts) {p : Nat × Bytes}
    (hp : p ∈ inodeRounds g first heap d starts) : Returned g first total p := by
  induction starts generalizing d with
  | nil => simp [inodeRounds] at hp
  | cons start starts ih =>
      obtain ⟨⟨hstart, hsearch⟩, hrest⟩ := hsafe
      simp only [] at hrest
      simp only [inodeRounds] at hp
      split at hp
      · rename_i hnone
        rw [if_pos hnone] at hrest
        exact ih hpad hrest hp
      · rename_i hsome
        rw [if_neg hsome] at hrest
        rcases List.mem_cons.mp hp with rfl | hp
        · exact (findsInode_of_safe h hpad hsearch hstart).2 hsome
        · exact ih (hpad.mark _) hrest hp

theorem inodeRounds_nodup (h : InodeGeometry g total) (hpad : PaddingSet g d)
    {starts : List Nat} (hsafe : InodeRoundsSafe g first heap total d starts) :
    ((inodeRounds g first heap d starts).map Prod.fst).Nodup := by
  induction starts generalizing d with
  | nil => exact List.nodup_nil
  | cons start starts ih =>
      obtain ⟨-, hrest⟩ := hsafe
      simp only [] at hrest
      simp only [inodeRounds]
      split
      · rename_i hnone
        rw [if_pos hnone] at hrest
        exact ih hpad hrest
      · rename_i hsome
        rw [if_neg hsome] at hrest
        rw [List.map_cons, List.nodup_cons]
        refine ⟨fun hmem => ?_, ih (hpad.mark _) hrest⟩
        obtain ⟨p, hp, hfst⟩ := List.mem_map.mp hmem
        have hfree := (inodeRounds_returned h (hpad.mark _) hrest hp).2.2.2
        have hset := inodeRounds_keeps hp (k := inodeBit g p.1) (by
          rw [bitAt_markAllocInode, hfst]
          simp)
        unfold InodeFree at hfree
        rw [hfree] at hset
        exact Bool.false_ne_true hset

/-- Clearing the bit of an inode makes that inode free and no other. -/
theorem markUnallocInode_free (h : InodeGeometry g total) {i r : Nat} (hi : 1 ≤ i)
    (hile : i ≤ total) (hr : 1 ≤ r) (hrle : r ≤ total) :
    InodeFree g (markUnallocInode g d heap r) i ↔ InodeFree g d i ∨ i = r := by
  unfold InodeFree
  rw [bitAt_markUnallocInode]
  by_cases heq : i = r
  · simp [heq]
  · have hne : inodeBit g i ≠ inodeBit g r := fun hbit => heq (h.bits i hi hile r hr hrle hbit)
    simp [heq, hne]

/-- The search answers as its callers rely on exactly when it is safe; the rounds whose searches
are safe never return an inode twice, and a release frees exactly its inode. -/
theorem inodes_handed_out_once (g : Gdata) (first total : Nat) (d heap : Bytes)
    (hgeometry : InodeGeometry g total) (hpad : PaddingSet g d) :
    (∀ start < g.bt.length,
      (InodeSearchSafe g first d total start → FindsInode g first d heap total start) ∧
      (total + g.sb.inodesPerGroup < 2 ^ 32 → FindsInode g first d heap total start →
        InodeSearchSafe g first d total start)) ∧
    (∀ starts, InodeRoundsSafe g first heap total d starts →
      ((inodeRounds g first heap d starts).map Prod.fst).Nodup ∧
      ∀ p ∈ inodeRounds g first heap d starts, Returned g first total p) ∧
    ∀ r, 1 ≤ r → r ≤ total → ∀ i, 1 ≤ i → i ≤ total →
      (InodeFree g (markUnallocInode g d heap r) i ↔ InodeFree g d i ∨ i = r) := by
  refine ⟨fun start hstart => ⟨fun hsafe => findsInode_of_safe hgeometry hpad hsafe hstart,
    fun hroom => safe_of_findsInode hgeometry hpad hroom hstart⟩, fun starts hsafe => ?_,
    fun r hr hrle i hi hile => markUnallocInode_free hgeometry hi hile hr hrle⟩
  exact ⟨inodeRounds_nodup hgeometry hpad hsafe,
    fun p hp => inodeRounds_returned hgeometry hpad hsafe hp⟩

/-- One group of 32 inodes. -/
def inodeGroup : Gdata where
  sb := { (oneGroup 5).sb with inodesPerGroup := 32 }
  bt := (oneGroup 5).bt

/-- An inode bitmap that holds `used` for the inodes 9 to 16, `rest` for the others and ones
behind them. -/
def inodeMedium (used rest : Byte) : Bytes := fun a =>
  if a = 4097 then used else if 4096 ≤ a ∧ a < 4100 then rest else 255#8

theorem inodeBit_inodeGroup : ∀ i < 33, 1 ≤ i → inodeBit inodeGroup i = 32767 + i := by
  decide +kernel

theorem inodeGroup_geometry : InodeGeometry inodeGroup 32 where
  perGroup := by decide
  count := by decide
  total_lt := by decide
  blockSize_pos := by decide
  blockSize_lt := by decide
  sectors bi hbi t ht := by
    have hsectors : inodeGroup.sb.blockSectors = 2 := by decide
    have ht : t < 32 := ht
    rw [hsectors]
    show 4 * 2 + t / 8 / 512 < 2 ^ 32
    omega
  blocks bi hbi := by
    have hblocks : inodeBitmapBlocks inodeGroup.sb = 1 := by decide
    rw [hblocks]
    show 4 + 1 < 2 ^ 32
    decide
  bits i hi hile j hj hjle h := by
    rw [inodeBit_inodeGroup i (by omega) hi, inodeBit_inodeGroup j (by omega) hj] at h
    omega

theorem bitmapAddr_inodeGroup (bi k : Nat) :
    bitmapAddr inodeGroup.sb (inodeGroup.bt.groups bi).inodeBitmapAddr k = 4096 + k := by
  have hsectors : inodeGroup.sb.blockSectors = 2 := by decide
  have haddr : (inodeGroup.bt.groups bi).inodeBitmapAddr = 4 := rfl
  unfold bitmapAddr
  rw [hsectors, haddr, ataSectorSize]

theorem inodeMedium_padding (used rest : Byte) : PaddingSet inodeGroup (inodeMedium used rest) := by
  intro bi _ t hge _
  have hge : 32 ≤ t := hge
  have hones : ∀ j < 8, (255#8).getMsbD j = true := by decide
  unfold groupBit bitAt
  rw [bitmapAddr_inodeGroup, Nat.mul_add_div (by decide), Nat.mod_div_self, Nat.add_zero,
    inodeMedium, if_neg (by omega), if_neg (by omega)]
  exact hones _ (Nat.mod_lt _ (by decide))

theorem inodeGroup_searchSafe (h : d 4098 ≠ 255#8) : InodeSearchSafe inodeGroup 11 d 32 0 :=
  .inr ⟨0, 2, by decide, by decide, by decide, ⟨by decide, by rwa [Nat.add_zero, bitmapAddr_inodeGroup]⟩,
    fun x _ hx => absurd hx (by omega)⟩

/-- Three rounds on an empty bitmap, and the release of the inode that the first one gave. -/
theorem inodes_handed_out_once_thrice :
    FindsInode inodeGroup 11 (inodeMedium 0 0) blankMedium 32 0 ∧
    (inodeRounds inodeGroup 11 blankMedium (inodeMedium 0 0) [0, 0, 0]).map Prod.fst =
      [17, 18, 19] ∧
    ((inodeRounds inodeGroup 11 blankMedium (inodeMedium 0 0) [0, 0, 0]).map Prod.fst).Nodup ∧
    (∀ p ∈ inodeRounds inodeGroup 11 blankMedium (inodeMedium 0 0) [0, 0, 0],
      Returned inodeGroup 11 32 p) ∧
    InodeFree inodeGroup (markUnallocInode inodeGroup (inodeMedium 0 255) blankMedium 17) 17 := by
  obtain ⟨hfinds, hrounds, -⟩ := inodes_handed_out_once inodeGroup 11 32 (inodeMedium 0 0)
    blankMedium inodeGroup_geometry (inodeMedium_padding 0 0)
  obtain ⟨-, -, hrelease⟩ := inodes_handed_out_once inodeGroup 11 32 (inodeMedium 0 255)
    blankMedium inodeGroup_geometry (inodeMedium_padding 0 255)
  have hsafe : InodeRoundsSafe inodeGroup 11 blankMedium 32 (inodeMedium 0 0) [0, 0, 0] :=
    ⟨⟨by decide, inodeGroup_searchSafe (by decide +kernel)⟩,
      ⟨by decide, inodeGroup_searchSafe (by decide +kernel)⟩,
      ⟨by decide, inodeGroup_searchSafe (by decide +kernel)⟩, trivial⟩
  exact ⟨(hfinds 0 (by decide)).1 (inodeGroup_searchSafe (by decide +kernel)), by decide +kernel,
    (hrounds _ hsafe).1, (hrounds _ hsafe).2,
    (hrelease 17 (by decide) (by decide) 17 (by decide) (by decide)).mpr (.inr rfl)⟩

theorem inodeMedium_searched {bi n k : Nat} (hbi : bi < inodeGroup.bt.length)
    (hn : n < inodeBitmapBlocks inodeGroup.sb) :
    ¬ FreeByte inodeGroup 11 (inodeMedium 0xEF 0xFF) bi n k := by
  rintro ⟨hfirst, hbyte⟩
  have hn0 : n = 0 := by
    have hblocks : inodeBitmapBlocks inodeGroup.sb = 1 := by decide
    omega
  have hbi0 : bi = 0 := by
    have hlength : inodeGroup.bt.length = 1 := rfl
    omega
  subst hn0 hbi0
  rw [Nat.add_zero, bitmapAddr_inodeGroup] at hbyte
  by_cases hk : k = 1
  · subst hk
    exact absurd hfirst (by decide)
  · refine hbyte ?_
    rw [inodeMedium, if_neg (by omega)]
    split <;> rfl

/-- Inode 12 is the only free one, and shares its byte with reserved ones. -/
theorem free_inode_not_found :
    ¬ ∀ (g : Gdata) (first total : Nat) (d heap : Bytes), InodeGeometry g total → PaddingSet g d →
      ∀ start < g.bt.length, FindsInode g first d heap total start := by
  intro h
  have hfind := h inodeGroup 11 32 (inodeMedium 0xEF 0xFF) blankMedium inodeGroup_geometry
    (inodeMedium_padding _ _) 0 (by decide)
  have hfree : InodeFree inodeGroup (inodeMedium 0xEF 0xFF) 12 := by
    unfold InodeFree
    rw [inodeBit_inodeGroup 12 (by decide) (by decide)]
    decide
  have hfull : ∀ bi < inodeGroup.bt.length,
      findGrpUnallocInode inodeGroup 11 (inodeMedium 0xEF 0xFF) blankMedium bi = 0 :=
    fun bi hbi => findGrpUnallocInode_none inodeGroup_geometry (inodeMedium_padding _ _) hbi
      fun n hn k _ => inodeMedium_searched hbi hn
  exact hfind.none_free (findUnallocInode_none (by decide) hfull) 12 (by decide) (by decide) hfree

end Rounds

end UntitledOs.Fs
