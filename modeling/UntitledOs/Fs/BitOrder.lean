import UntitledOs.Fs.InodeBitmap

/-!
# The order of the bits in a bitmap

On the medium item `k` of a bitmap is bit `1 << (k % 8)` of its byte `k / 8`.  The
driver counts the bits of a byte from the other end, in its searches as well as in
its marks.
-/

namespace UntitledOs.Fs

open UntitledOs.Lib

variable {g : Gdata} {d heap : Bytes} {first : Nat}

/-- Item `k` of a bitmap in the order of the file system. -/
def stdBit (m : Bytes) (k : Nat) : Bool := (m (k / 8)).getLsbD (k % 8)

/-- The item that the driver means by `k`. -/
def mirror (k : Nat) : Nat := 8 * (k / 8) + (7 - k % 8)

theorem mirror_mirror (k : Nat) : mirror (mirror k) = k := by
  unfold mirror
  omega

theorem mirror_ne (k : Nat) : mirror k ≠ k := by
  unfold mirror
  omega

theorem mirror_eq_iff {j k : Nat} : mirror j = k ↔ j = mirror k := by
  constructor
  · rintro rfl
    exact (mirror_mirror j).symm
  · rintro rfl
    exact mirror_mirror k

theorem stdBit_eq (m : Bytes) (k : Nat) : stdBit m k = bitAt m (mirror k) := by
  have hdiv : mirror k / 8 = k / 8 := by
    unfold mirror
    omega
  have hmod : mirror k % 8 = 7 - k % 8 := by
    unfold mirror
    omega
  unfold stdBit bitAt
  rw [hdiv, hmod, BitVec.getMsbD_eq_getLsbD, decide_eq_true (by omega), Bool.true_and]
  congr 1
  omega

section Marks

/-- The item at `k` is set and no other changes. -/
def SetsItem (d d' : Bytes) (k : Nat) : Prop :=
  ∀ i, stdBit d' i = (stdBit d i || decide (i = k))

/-- The item at `k` is cleared and no other changes. -/
def ClearsItem (d d' : Bytes) (k : Nat) : Prop :=
  ∀ i, stdBit d' i = (stdBit d i && !decide (i = k))

/-- A mark that sets bit `k` as the driver counts sets the item of the mirrored bit. -/
theorem setsItem_iff {d' : Bytes} {k : Nat}
    (hmark : ∀ i, bitAt d' i = (bitAt d i || decide (i = k))) :
    SetsItem d d' k ↔ stdBit d k = true ∧ stdBit d (mirror k) = true := by
  have hstd : ∀ i, stdBit d' i = (stdBit d i || decide (i = mirror k)) := fun i => by
    rw [stdBit_eq, hmark, ← stdBit_eq, decide_eq_decide.mpr mirror_eq_iff]
  unfold SetsItem
  simp only [hstd]
  constructor
  · intro h
    have hown := h k
    have hmirror := h (mirror k)
    simp only [(mirror_ne k).symm, mirror_ne k, decide_false, decide_true, Bool.or_false,
      Bool.or_true] at hown hmirror
    exact ⟨hown, hmirror.symm⟩
  · rintro ⟨hown, hmirror⟩ i
    by_cases hi : i = k
    · subst hi
      rw [hown, Bool.true_or, Bool.true_or]
    · by_cases him : i = mirror k
      · rw [him, hmirror, Bool.true_or, Bool.true_or]
      · rw [decide_eq_false hi, decide_eq_false him]

/-- A mark that clears bit `t` as the driver counts clears the item of the mirrored bit. -/
theorem clearsItem_iff {d' : Bytes} {t k : Nat}
    (hmark : ∀ i, bitAt d' i = (bitAt d i && !decide (i = t))) :
    ClearsItem d d' k ↔ mirror t = k ∨ stdBit d k = false ∧ stdBit d (mirror t) = false := by
  have hstd : ∀ i, stdBit d' i = (stdBit d i && !decide (i = mirror t)) := fun i => by
    rw [stdBit_eq, hmark, ← stdBit_eq, decide_eq_decide.mpr mirror_eq_iff]
  unfold ClearsItem
  simp only [hstd]
  constructor
  · intro h
    by_cases heq : mirror t = k
    · exact .inl heq
    · have hown := h k
      have hmirror := h (mirror t)
      simp only [Ne.symm heq, heq, decide_false, decide_true, Bool.not_false, Bool.not_true,
        Bool.and_true, Bool.and_false] at hown hmirror
      exact .inr ⟨hown, hmirror.symm⟩
  · rintro (rfl | ⟨hown, hmirror⟩) i
    · rfl
    · by_cases hi : i = k
      · subst hi
        rw [hown, Bool.false_and, Bool.false_and]
      · by_cases him : i = mirror t
        · rw [him, hmirror, Bool.false_and, Bool.false_and]
        · rw [decide_eq_false hi, decide_eq_false him]

end Marks

section Searches

/-- The mirror image of the highest clear bit of a byte is clear as well. -/
def MirrorClear (b : Byte) : Prop :=
  ∀ j < 8, (∀ i < j, b.getMsbD i = true) → b.getMsbD j = false → b.getLsbD j = false

instance (b : Byte) : Decidable (MirrorClear b) := by unfold MirrorClear; infer_instance

theorem mirrorClear_iff : ∀ b : Byte, b ≠ 255#8 →
    (MirrorClear b ↔ b.getLsbD (leadingOnes 8 b) = false) := by
  decide +kernel

theorem getLsbD_full : ∀ j < 8, (255#8).getLsbD j = true := by decide

/-- Item `t` of the bitmap at block `addr`. -/
def bitmapItem (sb : Superblock) (addr t : Nat) : Nat := 8 * bitmapAddr sb addr (t / 8) + t % 8

/-- An index that a search gives for bit `j` of byte `k`, whatever block it stands in, is the
item `j` of byte `k` of the first block. -/
theorem stdBit_bitmapItem (sb : Superblock) (addr k : Nat) {j : Nat} (hj : j < 8) :
    stdBit d (bitmapItem sb addr (8 * k + j)) = (d (bitmapAddr sb addr k)).getLsbD j := by
  unfold stdBit bitmapItem
  rw [show (8 * k + j) / 8 = k by omega, show (8 * k + j) % 8 = j by omega]
  rw [show (8 * bitmapAddr sb addr k + j) / 8 = bitmapAddr sb addr k by omega,
    show (8 * bitmapAddr sb addr k + j) % 8 = j by omega]

/-- The index for the first byte that is searched and not full is right when the byte stands in
the first block of the bitmap and its highest clear bit has a clear mirror image. -/
theorem index_clear_iff {sb : Superblock} {addr blocks n k : Nat} {p : Nat → Nat → Prop}
    (hp : ∀ n k, p n k → d (bitmapAddr sb (addr + n) k) ≠ 255#8)
    (hfull : ∀ n k, p n k → ∀ m, ¬ p m k → d (bitmapAddr sb (addr + m) k) = 255#8)
    (h : FirstByte p blocks sb.blockSize n k) :
    stdBit d (bitmapItem sb addr (8 * k + leadingOnes 8 (d (bitmapAddr sb (addr + n) k)))) = false ↔
      ∀ n k, FirstByte p blocks sb.blockSize n k →
        n = 0 ∧ MirrorClear (d (bitmapAddr sb (addr + n) k)) := by
  have hne := hp n k h.holds
  have hj := (leadingOnes_spec hne).1
  rw [stdBit_bitmapItem sb addr k hj]
  have hfirst : (∀ n' k', FirstByte p blocks sb.blockSize n' k' →
      n' = 0 ∧ MirrorClear (d (bitmapAddr sb (addr + n') k'))) ↔
      n = 0 ∧ MirrorClear (d (bitmapAddr sb (addr + n) k)) := by
    refine ⟨fun hall => hall n k h, fun hone n' k' h' => ?_⟩
    obtain ⟨rfl, rfl⟩ := h.unique h'
    exact hone
  rw [hfirst, mirrorClear_iff _ hne]
  by_cases hn : n = 0
  · subst hn
    rw [Nat.add_zero]
    exact ⟨fun hclear => ⟨rfl, hclear⟩, fun hboth => hboth.2⟩
  · have hzero := hfull n k h.holds 0 (h.before 0 (by omega) k h.byte)
    rw [Nat.add_zero] at hzero
    rw [hzero, getLsbD_full _ hj]
    exact ⟨fun hcontra => Bool.noConfusion hcontra, fun hboth => absurd hboth.1 hn⟩

/-- Byte `k` of block `n` of the block bitmap of group `bi` has a clear bit. -/
def NotFull (g : Gdata) (d : Bytes) (bi n k : Nat) : Prop :=
  d (bitmapAddr g.sb ((g.bt.groups bi).blockBitmapAddr + n) k) ≠ 255#8

theorem findGrpUnallocBlock_clear_iff (d heap : Bytes) (hsize : 8 * g.sb.blockSize < 2 ^ 32)
    (bi : Nat) :
    (findGrpUnallocBlock g d bi heap ≠ noBlock →
      stdBit d (bitmapItem g.sb (g.bt.groups bi).blockBitmapAddr
        (findGrpUnallocBlock g d bi heap)) = false) ↔
    ∀ n k, FirstByte (NotFull g d bi)
        ((g.bt.groups bi).inodeBitmapAddr - (g.bt.groups bi).blockBitmapAddr) g.sb.blockSize n k →
      n = 0 ∧ MirrorClear (d (bitmapAddr g.sb ((g.bt.groups bi).blockBitmapAddr + n) k)) := by
  obtain ⟨hnone, hfull⟩ | ⟨n, k, hfirst, hsome⟩ := scanBitmap_cases g.sb d
    ((g.bt.groups bi).inodeBitmapAddr - (g.bt.groups bi).blockBitmapAddr)
    (g.bt.groups bi).blockBitmapAddr heap
  · have hfind : findGrpUnallocBlock g d bi heap = noBlock := by
      unfold findGrpUnallocBlock
      simp only []
      rw [hnone]
      rfl
    refine ⟨fun _ n k hfirst => absurd (hfull n hfirst.block k hfirst.byte) hfirst.holds,
      fun _ hne => absurd hfind hne⟩
  · have hbyte := hfirst.byte
    have hj := (leadingOnes_spec hfirst.holds).1
    have hfind : findGrpUnallocBlock g d bi heap =
        8 * k + leadingOnes 8 (d (bitmapAddr g.sb ((g.bt.groups bi).blockBitmapAddr + n) k)) := by
      unfold findGrpUnallocBlock
      simp only []
      rw [hsome, Option.getD_some, u32, Nat.mod_eq_of_lt (by omega), Nat.mul_comm]
    have hsentinel : findGrpUnallocBlock g d bi heap ≠ noBlock := by
      rw [hfind]
      unfold noBlock
      omega
    rw [hfind] at hsentinel ⊢
    have hiff := index_clear_iff (p := NotFull g d bi) (fun n k hne => hne)
      (fun n k _ m hm => not_not.mp hm) hfirst
    exact ⟨fun h => hiff.mp (h hsentinel), fun h _ => hiff.mpr h⟩

theorem skipUsed_u32 (first base fuel : Nat) (b : Byte) (bsh : Nat) :
    skipUsed first base fuel b bsh = skipUsed first (u32 base) fuel b bsh := by
  induction fuel generalizing b bsh with
  | zero => rfl
  | succ fuel ih =>
      have hwrap : u32 (u32 base + bsh) = u32 (base + bsh) := by
        unfold u32
        omega
      rw [skipUsed, skipUsed, hwrap, ih]

theorem findGrpUnallocInode_clear_iff (first : Nat) (d heap : Bytes)
    (hsize : 8 * g.sb.blockSize < 2 ^ 32) (hgroup : 8 ∣ g.sb.inodesPerGroup) (bi : Nat) :
    (findGrpUnallocInode g first d heap bi ≠ 0 →
      stdBit d (bitmapItem g.sb (g.bt.groups bi).inodeBitmapAddr
        (findGrpUnallocInode g first d heap bi - 1)) = false) ↔
    ∀ n k, FirstByte (FreeByte g first d bi)
        (u32 ((g.bt.groups bi).inodeBitmapAddr + inodeBitmapBlocks g.sb) -
          (g.bt.groups bi).inodeBitmapAddr) g.sb.blockSize n k →
      n = 0 ∧ MirrorClear (d (bitmapAddr g.sb ((g.bt.groups bi).inodeBitmapAddr + n) k)) := by
  obtain ⟨hnone, hfull⟩ | ⟨n, k, u, hhit, hsome⟩ := scanInodeBitmap_cases g.sb d first
    (bi * g.sb.inodesPerGroup) (u32 ((g.bt.groups bi).inodeBitmapAddr + inodeBitmapBlocks g.sb) -
      (g.bt.groups bi).inodeBitmapAddr) (g.bt.groups bi).inodeBitmapAddr heap
  · have hfind : findGrpUnallocInode g first d heap bi = 0 := by
      unfold findGrpUnallocInode
      simp only []
      rw [hnone]
      rfl
    refine ⟨fun _ n k hfirst => absurd hfirst.holds (hfull n hfirst.block k hfirst.byte),
      fun _ hne => absurd hfind hne⟩
  · have hbyte := hhit.byte
    have hfirst : FirstByte (FreeByte g first d bi) _ g.sb.blockSize n k := hhit.firstByte
    have hj := leadingOnes_spec hfirst.holds.2
    -- a byte of the bitmap starts at a multiple of 8, so the inner loop does not wrap
    have hmul : 8 ∣ u32 (bi * g.sb.inodesPerGroup + k * 8) := by
      refine (Nat.dvd_mod_iff (by norm_num)).mpr ?_
      exact Nat.dvd_add (Dvd.dvd.mul_left hgroup bi) (Dvd.intro_left k rfl)
    have hlt : u32 (bi * g.sb.inodesPerGroup + k * 8) < 2 ^ 32 := Nat.mod_lt _ (by norm_num)
    have hones : skipUsed first (bi * g.sb.inodesPerGroup + k * 8) 256
        (d (bitmapAddr g.sb ((g.bt.groups bi).inodeBitmapAddr + n) k)) 0 =
        leadingOnes 8 (d (bitmapAddr g.sb ((g.bt.groups bi).inodeBitmapAddr + n) k)) := by
      rw [skipUsed_u32, skipUsed_eq (n := 8) (by decide) hj.1 hfirst.holds.1 (by omega) (by decide),
        Nat.zero_add]
    have hfind : findGrpUnallocInode g first d heap bi =
        8 * k + leadingOnes 8 (d (bitmapAddr g.sb ((g.bt.groups bi).inodeBitmapAddr + n) k)) + 1 := by
      unfold findGrpUnallocInode
      simp only []
      rw [hsome, Option.getD_some, hhit.answer, hones, u32, Nat.mod_eq_of_lt (by omega), Nat.mul_comm]
    rw [hfind, Nat.add_sub_cancel]
    have hiff := index_clear_iff (p := FreeByte g first d bi) (fun n k hfree => hfree.2)
      (fun n k hfree m hm => not_not.mp fun hne => hm ⟨hfree.1, hne⟩) hfirst
    exact ⟨fun h => hiff.mp (h (by omega)), fun h _ => hiff.mpr h⟩

end Searches

/-- When the searches and the marks of the driver mean the items that the file system means. -/
theorem bitmap_order_iff (g : Gdata) (first : Nat) (d heap : Bytes)
    (hsize : 8 * g.sb.blockSize < 2 ^ 32) (hgroup : 8 ∣ g.sb.inodesPerGroup) :
    (∀ bi,
      ((findGrpUnallocBlock g d bi heap ≠ noBlock →
        stdBit d (bitmapItem g.sb (g.bt.groups bi).blockBitmapAddr
          (findGrpUnallocBlock g d bi heap)) = false) ↔
      ∀ n k, FirstByte (NotFull g d bi)
          ((g.bt.groups bi).inodeBitmapAddr - (g.bt.groups bi).blockBitmapAddr)
          g.sb.blockSize n k →
        n = 0 ∧ MirrorClear (d (bitmapAddr g.sb ((g.bt.groups bi).blockBitmapAddr + n) k))) ∧
      ((findGrpUnallocInode g first d heap bi ≠ 0 →
        stdBit d (bitmapItem g.sb (g.bt.groups bi).inodeBitmapAddr
          (findGrpUnallocInode g first d heap bi - 1)) = false) ↔
      ∀ n k, FirstByte (FreeByte g first d bi)
          (u32 ((g.bt.groups bi).inodeBitmapAddr + inodeBitmapBlocks g.sb) -
            (g.bt.groups bi).inodeBitmapAddr) g.sb.blockSize n k →
        n = 0 ∧ MirrorClear (d (bitmapAddr g.sb ((g.bt.groups bi).inodeBitmapAddr + n) k)))) ∧
    (∀ b,
      (SetsItem d (markAllocBlock g d heap b) (blockBit g b) ↔
        stdBit d (blockBit g b) = true ∧ stdBit d (mirror (blockBit g b)) = true) ∧
      (ClearsItem d (markUnallocBlock g d heap b) (blockBit g b) ↔
        mirror (blockBit g (pred32 b)) = blockBit g b ∨
        stdBit d (blockBit g b) = false ∧ stdBit d (mirror (blockBit g (pred32 b))) = false)) ∧
    ∀ i,
      (SetsItem d (markAllocInode g d heap i) (inodeBit g i) ↔
        stdBit d (inodeBit g i) = true ∧ stdBit d (mirror (inodeBit g i)) = true) ∧
      (ClearsItem d (markUnallocInode g d heap i) (inodeBit g i) ↔
        stdBit d (inodeBit g i) = false ∧ stdBit d (mirror (inodeBit g i)) = false) := by
  refine ⟨fun bi => ⟨findGrpUnallocBlock_clear_iff d heap hsize bi,
    findGrpUnallocInode_clear_iff first d heap hsize hgroup bi⟩,
    fun b => ⟨setsItem_iff (bitAt_markAllocBlock b), clearsItem_iff (bitAt_markUnallocBlock b)⟩,
    fun i => ⟨setsItem_iff (bitAt_markAllocInode i), ?_⟩⟩
  rw [clearsItem_iff (bitAt_markUnallocInode i)]
  exact or_iff_right (mirror_ne _)

/-- The first and the last item of a byte are used. -/
def endsUsed : Bytes := fun a => if a = 3072 then 0x81#8 else 0#8

/-- In that byte the search gives a free item and the mark of block 0 is right; that of block 1 sets
the item of block 6. -/
theorem bitmap_order_iff_ends :
    (findGrpUnallocBlock (oneGroup 5) endsUsed 0 blankMedium ≠ noBlock →
      stdBit endsUsed (bitmapItem (oneGroup 5).sb ((oneGroup 5).bt.groups 0).blockBitmapAddr
        (findGrpUnallocBlock (oneGroup 5) endsUsed 0 blankMedium)) = false) ∧
    SetsItem endsUsed (markAllocBlock (oneGroup 5) endsUsed blankMedium 0)
      (blockBit (oneGroup 5) 0) ∧
    ¬ SetsItem endsUsed (markAllocBlock (oneGroup 5) endsUsed blankMedium 1)
      (blockBit (oneGroup 5) 1) := by
  obtain ⟨hsearch, hmark, -⟩ :=
    bitmap_order_iff (oneGroup 5) 11 endsUsed blankMedium (by decide) (by decide)
  have hfirst : FirstByte (NotFull (oneGroup 5) endsUsed 0) 1 (oneGroup 5).sb.blockSize 0 0 :=
    ⟨by decide, by decide, by unfold NotFull; decide +kernel,
      fun m hm => absurd hm (Nat.not_lt_zero m), fun i hi => absurd hi (Nat.not_lt_zero i)⟩
  refine ⟨(hsearch 0).1.mpr fun n k hbyte => ?_, (hmark 0).1.mpr (by decide +kernel), fun hset => ?_⟩
  · obtain ⟨rfl, rfl⟩ := hfirst.unique hbyte
    exact ⟨rfl, by decide +kernel⟩
  · exact absurd ((hmark 1).1.mp hset).1 (by decide +kernel)

/-- Of a group with one used block, block 0, the search gives block 0. -/
theorem used_block_found :
    ¬ ∀ (g : Gdata) (first : Nat) (d heap : Bytes), 8 * g.sb.blockSize < 2 ^ 32 →
      8 ∣ g.sb.inodesPerGroup →
      (∀ bi,
        (findGrpUnallocBlock g d bi heap ≠ noBlock →
          stdBit d (bitmapItem g.sb (g.bt.groups bi).blockBitmapAddr
            (findGrpUnallocBlock g d bi heap)) = false) ∧
        (findGrpUnallocInode g first d heap bi ≠ 0 →
          stdBit d (bitmapItem g.sb (g.bt.groups bi).inodeBitmapAddr
            (findGrpUnallocInode g first d heap bi - 1)) = false)) ∧
      (∀ b, SetsItem d (markAllocBlock g d heap b) (blockBit g b) ∧
        ClearsItem d (markUnallocBlock g d heap b) (blockBit g b)) ∧
      ∀ i, SetsItem d (markAllocInode g d heap i) (inodeBit g i) ∧
        ClearsItem d (markUnallocInode g d heap i) (inodeBit g i) := by
  intro h
  have hclear := ((h (oneGroup 5) 11 (fun a => if a = 3072 then 1#8 else 0#8) blankMedium
    (by decide) (by decide)).1 0).1 (by decide +kernel)
  exact absurd hclear (by decide +kernel)

end UntitledOs.Fs
