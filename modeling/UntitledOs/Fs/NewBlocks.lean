import UntitledOs.Fs.Volume

/-!
# The blocks of a new file

The blocks that the search hands out to a file one after the other, with a mark in the bitmap after
each, and what the writes to them leave on the medium.  The search looks at nothing but the bitmaps,
and finds a block again when its mark is at another bit.
-/

namespace UntitledOs.Fs

open UntitledOs.Lib

variable {g : Gdata} {sb : Superblock} {d d' d₀ heap buf inode inode' : Bytes} {dirs : DirTable}
  {c : Nat → Byte} {total num n i j start : Nat}

section Search

/-- A byte of the block bitmaps, as the search reads them. -/
def InBitmaps (g : Gdata) (a : Nat) : Prop :=
  ∃ bi < g.bt.length, ∃ x < (g.bt.groups bi).inodeBitmapAddr - (g.bt.groups bi).blockBitmapAddr,
    ∃ k < g.sb.blockSize, a = bitmapAddr g.sb ((g.bt.groups bi).blockBitmapAddr + x) k

theorem scanBitmap_congr {n bmb : Nat}
    (h : ∀ x < n, ∀ k < sb.blockSize,
      d' (bitmapAddr sb (bmb + x) k) = d (bitmapAddr sb (bmb + x) k)) (buf : Bytes) :
    scanBitmap sb d' n bmb buf = scanBitmap sb d n bmb buf := by
  induction n generalizing bmb buf with
  | zero => rfl
  | succ n ih =>
      have hread : ataRead d' (bmb * sb.blockSectors) sb.blockSectors buf =
          ataRead d (bmb * sb.blockSectors) sb.blockSectors buf := by
        refine copyTo_congr fun i hi => ?_
        rw [blockSectors_mul] at hi
        exact h 0 (by omega) i hi
      have hrest := fun buf => @ih (bmb + 1) (fun x hx k hk => by
        have := h (x + 1) (by omega) k hk
        rwa [show bmb + (x + 1) = bmb + 1 + x by omega] at this) buf
      simp only [scanBitmap, hread, hrest]

theorem findFrom_congr {n bi : Nat} (h : ∀ a, InBitmaps g a → d' a = d a)
    (hn : bi + n ≤ g.bt.length) : findFrom g d' heap n bi = findFrom g d heap n bi := by
  induction n generalizing bi with
  | zero => rfl
  | succ n ih =>
      have hgroup : findGrpUnallocBlock g d' bi heap = findGrpUnallocBlock g d bi heap := by
        unfold findGrpUnallocBlock
        dsimp only
        rw [scanBitmap_congr fun x hx k hk => h _ ⟨bi, by omega, x, hx, k, hk, rfl⟩]
      simp only [findFrom, hgroup, ih (show bi + 1 + n ≤ g.bt.length by omega)]

/-- The search looks at nothing but the bitmaps. -/
theorem findUnallocBlock_congr (h : ∀ a, InBitmaps g a → d' a = d a)
    (hstart : start ≤ g.bt.length) :
    findUnallocBlock g d' heap start = findUnallocBlock g d heap start := by
  unfold findUnallocBlock
  rw [findFrom_congr h (by omega)]
  dsimp only
  rw [findFrom_congr h (by omega)]

end Search

section Blocks

/-- The group in which the search for the blocks of a file starts. -/
def fileGroup (g : Gdata) (num : Nat) : Nat := pred32 num / g.sb.inodesPerGroup

/-- The medium with the first `j` blocks that the search finds for a file marked. -/
def afterMarks (g : Gdata) (d heap : Bytes) (num : Nat) : Nat → Bytes
  | 0 => d
  | j + 1 => markAllocBlock g (afterMarks g d heap num j) heap
      (findUnallocBlock g (afterMarks g d heap num j) heap (fileGroup g num))

/-- Block `j` of those that the search finds for a file, with a mark after each. -/
def handedOut (g : Gdata) (d heap : Bytes) (num j : Nat) : Nat :=
  findUnallocBlock g (afterMarks g d heap num j) heap (fileGroup g num)

/-- A mark sets one bit of one byte. -/
theorem markAllocBlock_eq (b a : Nat) :
    markAllocBlock g d heap b a =
      if a = blockBit g b / 8 then d a ||| bitMask (blockBit g b % 8) else d a := by
  have hbyte : blockBit g b / 8 = bitmapByte g.sb
      (g.bt.groups (b / g.sb.blocksPerGroup)).blockBitmapAddr (b % g.sb.blocksPerGroup) := by
    unfold blockBit bitmapBit
    omega
  have hbit : blockBit g b % 8 = b % g.sb.blocksPerGroup % 8 := by
    unfold blockBit bitmapBit
    omega
  rw [hbyte, hbit]
  unfold markAllocBlock
  rw [editBitmap_eq, setByte]
  split
  · rename_i heq
    rw [heq]
  · rfl

theorem markAllocBlock_of_ne {b a : Nat} (h : a ≠ blockBit g b / 8) :
    markAllocBlock g d heap b a = d a := by
  rw [markAllocBlock_eq, if_neg h]

theorem markAllocBlock_congr {b a : Nat} (h : d' a = d a) (heap heap' : Bytes) :
    markAllocBlock g d' heap b a = markAllocBlock g d heap' b a := by
  rw [markAllocBlock_eq, markAllocBlock_eq, h]

/-- The first `n` blocks that the search finds for the file are blocks of the file system, in no
directory, inode or bitmap. -/
structure Spare (g : Gdata) (total : Nat) (d heap : Bytes) (dirs : DirTable) (num n : Nat) :
    Prop where
  found : ∀ j < n, handedOut g d heap num j ≠ 0 ∧ handedOut g d heap num j < g.sb.blocksTotal
  unmarked : ∀ j < n, ∀ a, InBlock g.sb (handedOut g d heap num j) a → ¬ IsMark g total a
  unsearched : ∀ j < n, ∀ a, InBlock g.sb (handedOut g d heap num j) a → ¬ InBitmaps g a
  outsideSlots : ∀ j < n, ∀ a, InBlock g.sb (handedOut g d heap num j) a →
    ∀ i, 1 ≤ i → i ≤ total → ¬ InSlot g i a
  outsideDirs : ∀ j < n, ∀ a, InBlock g.sb (handedOut g d heap num j) a →
    ∀ num' blocks, dirs num' = some blocks → ¬ InDir g.sb (slot g d num') blocks.length a
  bitmaps : ∀ a, InBitmaps g a → ∀ i, 1 ≤ i → i ≤ total → ¬ InSlot g i a

/-- Block `j` of the file is at another place than the ones after it up to block `m`. -/
def Unrepeated (g : Gdata) (d heap : Bytes) (num j m : Nat) : Prop :=
  ∀ k < m, j < k →
    blockStart g.sb (handedOut g d heap num k) ≠ blockStart g.sb (handedOut g d heap num j)

theorem Unrepeated.mono {m m' : Nat} (h : Unrepeated g d heap num j m') (hle : m ≤ m') :
    Unrepeated g d heap num j m :=
  fun k hk => h k (by omega)

theorem Spare.isMark (h : Spare g total d heap dirs num n) (hj : j < n) :
    IsMark g total (blockBit g (handedOut g d heap num j) / 8) :=
  .inr ⟨_, (h.found j hj).2, rfl⟩

end Blocks

section Repeated

/-- The search from `start` ends in group `bi`, at a bit in byte `k` of its bitmap. -/
structure EndsIn (g : Gdata) (d : Bytes) (start bi k : Nat) : Prop where
  group : start ≤ bi ∧ bi < g.bt.length
  full : ∀ x, start ≤ x → x < bi → GroupFull g d x
  first : FirstFree g d bi k
  index : u32 (freeIndex g d bi k) ≠ noBlock

/-- The bit at which it ends, counted over the whole medium. -/
def freeBit (g : Gdata) (d : Bytes) (bi k : Nat) : Nat :=
  8 * bitmapAddr g.sb (g.bt.groups bi).blockBitmapAddr k +
    leadingOnes 8 (d (bitmapAddr g.sb (g.bt.groups bi).blockBitmapAddr k))

theorem leadingOnes_or {b : Byte} {s : Nat} (hs : s < 8) (hb : b ≠ 255#8)
    (hne : s ≠ leadingOnes 8 b) :
    b ||| bitMask s ≠ 255#8 ∧ leadingOnes 8 (b ||| bitMask s) = leadingOnes 8 b := by
  have hall : ∀ s < 8, ∀ b : Byte, b ≠ 255#8 → s ≠ leadingOnes 8 b →
      b ||| bitMask s ≠ 255#8 ∧ leadingOnes 8 (b ||| bitMask s) = leadingOnes 8 b := by
    decide +kernel
  exact hall s hs b hb hne

theorem markAllocBlock_full {b a : Nat} (h : d a = 255#8) :
    markAllocBlock g d heap b a = 255#8 := by
  have hall : ∀ s < 8, 255#8 ||| bitMask s = 255#8 := by decide
  rw [markAllocBlock_eq, h]
  split
  · exact hall _ (Nat.mod_lt _ (by decide))
  · rfl

theorem GroupFull.mark {bi : Nat} (h : GroupFull g d bi) (b : Nat) :
    GroupFull g (markAllocBlock g d heap b) bi :=
  fun bmb hlo hhi i hi => markAllocBlock_full (h bmb hlo hhi i hi)

theorem EndsIn.find {bi k : Nat} (h : EndsIn g d start bi k) :
    findUnallocBlock g d heap start =
      u32 (tableEnd g bi + bi * g.sb.blocksPerGroup + u32 (freeIndex g d bi k)) := by
  obtain ⟨hstart, hlt⟩ := h.group
  have hsome := findFrom_some (n := g.bt.length - start) hstart (by omega) h.full
    (@findGrpUnallocBlock_first _ _ heap _ _ h.first) h.index
  unfold findUnallocBlock
  rw [hsome]

/-- A mark at another bit leaves the end of the search as it is. -/
theorem EndsIn.mark {b bi k : Nat} (h : EndsIn g d start bi k)
    (hb : blockBit g b ≠ freeBit g d bi k) :
    EndsIn g (markAllocBlock g d heap b) start bi k ∧
      freeIndex g (markAllocBlock g d heap b) bi k = freeIndex g d bi k := by
  set a := bitmapAddr g.sb (g.bt.groups bi).blockBitmapAddr k with ha
  have hbyte : markAllocBlock g d heap b a ≠ 255#8 ∧
      leadingOnes 8 (markAllocBlock g d heap b a) = leadingOnes 8 (d a) := by
    rw [markAllocBlock_eq]
    split
    · rename_i heq
      refine leadingOnes_or (Nat.mod_lt _ (by decide)) h.first.free fun hsame => hb ?_
      unfold freeBit
      rw [← ha, ← hsame, heq]
      omega
    · exact ⟨h.first.free, rfl⟩
  have hindex : freeIndex g (markAllocBlock g d heap b) bi k = freeIndex g d bi k :=
    congrArg (k * 8 + ·) hbyte.2
  refine ⟨⟨h.group, fun x hx hlt => (h.full x hx hlt).mark b, ?_, hindex ▸ h.index⟩, hindex⟩
  exact ⟨h.first.block, h.first.byte, fun i hi => markAllocBlock_full (h.first.before i hi),
    hbyte.1⟩

/-- Where the mark of a block misses the bit of the search, the search finds that block again. -/
theorem handedOut_repeats {bi k : Nat} (h : EndsIn g d (fileGroup g num) bi k)
    (hmiss : blockBit g (handedOut g d heap num 0) ≠ freeBit g d bi k) (j : Nat) :
    handedOut g d heap num j = handedOut g d heap num 0 := by
  have hends : ∀ j, EndsIn g (afterMarks g d heap num j) (fileGroup g num) bi k ∧
      freeIndex g (afterMarks g d heap num j) bi k = freeIndex g d bi k := by
    intro j
    induction j with
    | zero => exact ⟨h, rfl⟩
    | succ j ih =>
        obtain ⟨hends, hindex⟩ := ih
        have hblock : findUnallocBlock g (afterMarks g d heap num j) heap (fileGroup g num) =
            handedOut g d heap num 0 := by
          rw [hends.find, hindex]
          exact h.find.symm
        have hbit : freeBit g (afterMarks g d heap num j) bi k = freeBit g d bi k := by
          unfold freeIndex at hindex
          unfold freeBit
          omega
        rw [afterMarks, hblock]
        obtain ⟨hends', hindex'⟩ := hends.mark (hbit.symm ▸ hmiss)
        exact ⟨hends', hindex'.trans hindex⟩
  have hindex := (hends j).2
  rw [handedOut, (hends j).1.find, hindex]
  exact h.find.symm

end Repeated

section Inode

theorem dbp_setDbp {v : Nat} (hv : v < 2 ^ 32) :
    dbp (setDbp inode i v) j = if j = i then v else dbp inode j := by
  unfold dbp setDbp
  split
  · rename_i heq
    rw [heq, getLe_setLe]
    exact Nat.mod_eq_of_lt (by omega)
  · exact getLe_setLe_of_disjoint (by omega)

theorem inodeSize_setDbp {v : Nat} (hi : i < 12) :
    inodeSize (setDbp inode i v) = inodeSize inode := by
  have hlo : sizeLo (setDbp inode i v) = sizeLo inode := getLe_setLe_of_disjoint (by omega)
  have hhi : sizeHi (setDbp inode i v) = sizeHi inode := getLe_setLe_of_disjoint (by omega)
  unfold inodeSize
  rw [hlo, hhi]

theorem inodeSize_congr (h : ∀ k < 128, inode' k = inode k) :
    inodeSize inode' = inodeSize inode := by
  unfold inodeSize sizeLo sizeHi
  rw [getLe_congr fun i hi => h (4 + i) (by omega), getLe_congr fun i hi => h (108 + i) (by omega)]

theorem dbp_addInodeSize (hj : j < 12) : dbp (addInodeSize inode n) j = dbp inode j := by
  unfold addInodeSize dbp
  dsimp only
  rw [getLe_setLe_of_disjoint (by omega), getLe_setLe_of_disjoint (by omega)]

/-- The size grows by `n` as long as twice that much leaves it below 4 GiB. -/
theorem inodeSize_addInodeSize (h : inodeSize inode + 2 * n < 2 ^ 32) :
    inodeSize (addInodeSize inode n) = inodeSize inode + n := by
  have hhi : sizeHi inode = 0 := by
    unfold inodeSize at h
    omega
  have hlow : ∀ v, sizeLo (setLe (setLe inode 4 4 (u32 (inodeSize inode + n))) 108 4 v) =
      inodeSize inode + n := by
    intro v
    unfold sizeLo u32
    rw [getLe_setLe_of_disjoint (by omega), getLe_setLe]
    omega
  have hmid : inodeSize (setLe inode 4 4 (u32 (inodeSize inode + n))) = inodeSize inode + n := by
    have hkept : sizeHi (setLe inode 4 4 (u32 (inodeSize inode + n))) = sizeHi inode :=
      getLe_setLe_of_disjoint (by omega)
    have hset : sizeLo (setLe inode 4 4 (u32 (inodeSize inode + n))) = inodeSize inode + n := by
      unfold sizeLo u32
      rw [getLe_setLe]
      omega
    rw [inodeSize, hkept, hset, hhi]
    omega
  unfold addInodeSize
  dsimp only
  rw [inodeSize, hlow, hmid]
  unfold sizeHi u32
  rw [getLe_setLe]
  omega

end Inode

section OnDisk

/-- The medium with `i` blocks handed out to the file.  The first `full` hold what `c` says, unless
they have been handed out again. -/
structure OnDisk (g : Gdata) (d₀ heap : Bytes) (num : Nat) (c : Nat → Byte) (i full : Nat)
    (d : Bytes) : Prop where
  bitmaps : ∀ a, InBitmaps g a → d a = afterMarks g d₀ heap num i a
  stored : ∀ j < full, Unrepeated g d₀ heap num j i → ∀ x < g.sb.blockSize,
    d (blockStart g.sb (handedOut g d₀ heap num j) + x) = c (j * g.sb.blockSize + x)
  marks : ∀ j < i, bitAt d (blockBit g (handedOut g d₀ heap num j)) = true
  kept : ∀ a, ¬ InSlot g num a → (∀ j < i, ¬ InBlock g.sb (handedOut g d₀ heap num j) a ∧
    a ≠ blockBit g (handedOut g d₀ heap num j) / 8) → d a = d₀ a

/-- An empty file that is no directory, and `n` direct blocks for it. -/
structure Writable (g : Gdata) (total : Nat) (d heap : Bytes) (dirs : DirTable) (num n : Nat) :
    Prop extends Spare g total d heap dirs num n where
  number : 1 ≤ num ∧ num ≤ total
  file : dirs num = none
  tabled : inodeTableOffset g num < g.sb.blockSize
  group : fileGroup g num ≤ g.bt.length
  direct : n ≤ 12
  pointers : ∀ j < 12, dbp (slot g d num) j = 0
  size : inodeSize (slot g d num) = 0

theorem inBlock_add {b x : Nat} (hx : x < sb.blockSize) : InBlock sb b (blockStart sb b + x) :=
  ⟨Nat.le_add_right _ _, by omega⟩

theorem writeBlock_add {b x : Nat} (hx : x < sb.blockSize) :
    writeBlock sb d b buf (blockStart sb b + x) = buf x := copyTo_add (by rwa [blockSectors_mul])

variable {full : Nat} (hv : Volume g total d₀ dirs) (hw : Writable g total d₀ heap dirs num n)
include hw

/-- The next block is marked. -/
theorem OnDisk.mark (h : OnDisk g d₀ heap num c i full d) (hi : i < n) (hfull : full ≤ i) :
    OnDisk g d₀ heap num c (i + 1) full (markAllocBlock g d heap (handedOut g d₀ heap num i)) := by
  have hother : ∀ j < n, ∀ x < g.sb.blockSize,
      blockStart g.sb (handedOut g d₀ heap num j) + x ≠
        blockBit g (handedOut g d₀ heap num i) / 8 := fun j hj x hx heq =>
    hw.unmarked j hj _ (inBlock_add hx) (heq ▸ hw.isMark hi)
  refine ⟨fun a ha => markAllocBlock_congr (h.bitmaps a ha) heap heap, fun j hj hlast x hx => ?_,
    fun j hj => ?_, fun a hslot ha => ?_⟩
  · rw [markAllocBlock_of_ne (hother j (by omega) x hx)]
    exact h.stored j hj (hlast.mono (Nat.le_succ i)) x hx
  · rw [bitAt_markAllocBlock]
    rcases Nat.lt_or_ge j i with hlt | hge
    · rw [h.marks j hlt, Bool.true_or]
    · obtain rfl : j = i := by omega
      rw [decide_eq_true rfl, Bool.or_true]
  · rw [markAllocBlock_of_ne (ha i (by omega)).2]
    exact h.kept a hslot fun j hj => ha j (by omega)

/-- A block that is not among the full ones is written. -/
theorem OnDisk.data (h : OnDisk g d₀ heap num c i full d) (hi : i ≤ n) (hj : j < i)
    (hfull : full ≤ j) :
    OnDisk g d₀ heap num c i full (writeBlock g.sb d (handedOut g d₀ heap num j) buf) := by
  refine ⟨fun a ha => ?_, fun k hk hlast x hx => ?_, fun k hk => ?_, fun a hslot ha => ?_⟩
  · rw [writeBlock_of_outside fun hin => hw.unsearched j (by omega) a hin ha]
    exact h.bitmaps a ha
  · have hdiff := hlast j hj (by omega)
    rw [writeBlock_of_outside (InBlock.apart hdiff.symm (inBlock_add hx))]
    exact h.stored k hk hlast x hx
  · have hbyte := @writeBlock_of_outside g.sb d buf _ _ fun hin =>
      hw.unmarked j (by omega) _ hin (hw.isMark (show k < n by omega))
    have hset := h.marks k hk
    unfold bitAt at hset ⊢
    rwa [hbyte]
  · rw [writeBlock_of_outside (ha j hj).1]
    exact h.kept a hslot ha

include hv

/-- The inode of the file is written. -/
theorem OnDisk.writeInode (h : OnDisk g d₀ heap num c i full d) (hi : i ≤ n) (hfull : full ≤ n)
    (inode : Bytes) : OnDisk g d₀ heap num c i full (Fs.writeInode g d heap num inode) := by
  obtain ⟨hnum, hnumt⟩ := hw.number
  have hout : ∀ a, ¬ InSlot g num a → Fs.writeInode g d heap num inode a = d a := fun a ha =>
    writeInode_outside hv.inodes hw.tabled inode ha
  refine ⟨fun a ha => ?_, fun j hj hlast x hx => ?_, fun j hj => ?_, fun a hslot ha => ?_⟩
  · rw [hout a (hw.bitmaps a ha num hnum hnumt)]
    exact h.bitmaps a ha
  · rw [hout _ (hw.outsideSlots j (by omega) _ (inBlock_add hx) num hnum hnumt)]
    exact h.stored j hj hlast x hx
  · have hbyte := hout _ (hv.marksInSlots _ (hw.isMark (show j < n by omega)) num hnum hnumt)
    have hset := h.marks j hj
    unfold bitAt at hset ⊢
    rwa [hbyte]
  · rw [hout a hslot]
    exact h.kept a hslot ha

end OnDisk

end UntitledOs.Fs
