import UntitledOs.Fs.Ext2

/-!
# Block bitmaps

What a search and a mark do to the bits of the medium, and rounds of searching a
block and marking it.
-/

namespace UntitledOs.Fs

open UntitledOs.Lib

variable {g : Gdata} {d heap : Bytes}

theorem blockSectors_mul (sb : Superblock) : sb.blockSectors * ataSectorSize = sb.blockSize := by
  refine Nat.div_mul_cancel ?_
  unfold Superblock.blockSize u32 ataSectorSize
  refine (Nat.dvd_mod_iff (by norm_num)).mpr ?_
  exact Dvd.dvd.mul_right (by norm_num) _

/-- A block size is a power of two that a `uint32_t` can hold. -/
theorem blockSize_dvd {sb : Superblock} (h : sb.blockSize ≠ 0) : sb.blockSize ∣ 2 ^ 32 := by
  have hpow : 1024 * 2 ^ sb.blockLogsz = 2 ^ (10 + sb.blockLogsz) := by
    rw [pow_add]
    norm_num
  unfold Superblock.blockSize u32 at h ⊢
  rw [hpow] at h ⊢
  by_cases hlarge : 32 ≤ 10 + sb.blockLogsz
  · exact absurd (Nat.mod_eq_zero_of_dvd (pow_dvd_pow 2 hlarge)) h
  · rw [Nat.mod_eq_of_lt (Nat.pow_lt_pow_right (by norm_num) (by omega))]
    exact pow_dvd_pow 2 (by omega)

theorem blockSize_le (sb : Superblock) : sb.blockSize ≤ 2 ^ 31 := by
  by_cases h : sb.blockSize = 0
  · omega
  · obtain ⟨c, hc⟩ := blockSize_dvd h
    have hlt : sb.blockSize < 2 ^ 32 := Nat.mod_lt _ (by norm_num)
    have htwo : 2 ≤ c := by
      by_contra hsmall
      have := Nat.mul_le_mul_left sb.blockSize (show c ≤ 1 by omega)
      omega
    have := Nat.mul_le_mul_left sb.blockSize htwo
    omega

section Edit

/-- The byte of the medium with bit `tind` of the bitmap at block `addr`. -/
def bitmapByte (sb : Superblock) (addr tind : Nat) : Nat :=
  bitmapSector sb addr tind * ataSectorSize + tind / 8 % ataSectorSize

/-- That bit, counted over the whole medium. -/
def bitmapBit (sb : Superblock) (addr tind : Nat) : Nat := 8 * bitmapByte sb addr tind + tind % 8

theorem editBitmap_eq (sb : Superblock) (d heap : Bytes) (addr tind : Nat)
    (edit : Byte → Byte → Byte) :
    editBitmap sb d heap addr tind edit =
      setByte d (bitmapByte sb addr tind)
        (edit (d (bitmapByte sb addr tind)) (bitMask (tind % 8))) := by
  have hlt : tind / 8 % ataSectorSize < ataSectorSize := Nat.mod_lt _ (by decide)
  have hread : ∀ i < ataSectorSize, ataRead d (bitmapSector sb addr tind) 1 heap i =
      d (bitmapSector sb addr tind * ataSectorSize + i) := by
    intro i hi
    have := @copyTo_add heap (fun i => d (bitmapSector sb addr tind * ataSectorSize + i)) 0
      (1 * ataSectorSize) i (by omega)
    rwa [Nat.zero_add] at this
  funext i
  unfold editBitmap ataWrite
  by_cases hi : bitmapSector sb addr tind * ataSectorSize ≤ i ∧
      i < bitmapSector sb addr tind * ataSectorSize + 1 * ataSectorSize
  · obtain ⟨j, rfl⟩ := Nat.exists_eq_add_of_le hi.1
    have hj : j < ataSectorSize := by omega
    rw [copyTo_add (by omega)]
    unfold setByte bitmapByte
    by_cases hbyte : j = tind / 8 % ataSectorSize
    · rw [if_pos hbyte, if_pos (by omega), hread _ hlt]
    · rw [if_neg hbyte, if_neg (by omega), hread _ hj]
  · have hne : i ≠ bitmapByte sb addr tind := by
      unfold bitmapByte
      omega
    unfold copyTo setByte
    rw [if_neg hi, if_neg hne]

/-- The bit of block `b`: the one `fs_ext2_mark_alloc_block` sets. -/
def blockBit (g : Gdata) (b : Nat) : Nat :=
  bitmapBit g.sb (g.bt.groups (b / g.sb.blocksPerGroup)).blockBitmapAddr (b % g.sb.blocksPerGroup)

def inodeBit (g : Gdata) (inodeNum : Nat) : Nat :=
  bitmapBit g.sb (g.bt.groups (pred32 inodeNum / g.sb.inodesPerGroup)).inodeBitmapAddr
    (pred32 inodeNum % g.sb.inodesPerGroup)

theorem bitAt_markAllocBlock (b k : Nat) :
    bitAt (markAllocBlock g d heap b) k = (bitAt d k || decide (k = blockBit g b)) := by
  unfold markAllocBlock
  rw [editBitmap_eq]
  exact bitAt_or d _ (Nat.mod_lt _ (by decide)) k

theorem bitAt_markUnallocBlock (b k : Nat) :
    bitAt (markUnallocBlock g d heap b) k =
      (bitAt d k && !decide (k = blockBit g (pred32 b))) := by
  unfold markUnallocBlock
  rw [editBitmap_eq]
  exact bitAt_andNot d _ (Nat.mod_lt _ (by decide)) k

theorem bitAt_markUnallocInode (inodeNum k : Nat) :
    bitAt (markUnallocInode g d heap inodeNum) k =
      (bitAt d k && !decide (k = inodeBit g inodeNum)) := by
  unfold markUnallocInode
  rw [editBitmap_eq]
  exact bitAt_andNot d _ (Nat.mod_lt _ (by decide)) k

theorem markUnallocBlock_of_ne {b i : Nat} (h : i ≠ blockBit g (pred32 b) / 8) :
    markUnallocBlock g d heap b i = d i := by
  unfold markUnallocBlock
  rw [editBitmap_eq]
  refine if_neg fun hi => h ?_
  unfold blockBit bitmapBit
  omega

end Edit

section Search

/-- Byte `k` of block `n` is the first one with the property `p`. -/
structure FirstByte (p : Nat → Nat → Prop) (blocks size n k : Nat) : Prop where
  block : n < blocks
  byte : k < size
  holds : p n k
  before : ∀ m < n, ∀ i < size, ¬ p m i
  within : ∀ i < k, ¬ p n i

theorem FirstByte.unique {p : Nat → Nat → Prop} {blocks size n k n' k' : Nat}
    (h : FirstByte p blocks size n k) (h' : FirstByte p blocks size n' k') : n = n' ∧ k = k' := by
  have hn : n = n' := by
    rcases Nat.lt_trichotomy n n' with hlt | heq | hgt
    · exact absurd h.holds (h'.before n hlt k h.byte)
    · exact heq
    · exact absurd h'.holds (h.before n' hgt k' h'.byte)
  subst hn
  rcases Nat.lt_trichotomy k k' with hlt | heq | hgt
  · exact absurd h.holds (h'.within k hlt)
  · exact ⟨rfl, heq⟩
  · exact absurd h'.holds (h.within k' hgt)

theorem FirstByte.head {p : Nat → Nat → Prop} {blocks size k : Nat} (hk : k < size) (hp : p 0 k)
    (hwithin : ∀ i < k, ¬ p 0 i) : FirstByte p (blocks + 1) size 0 k :=
  ⟨Nat.succ_pos blocks, hk, hp, fun m hm => absurd hm (Nat.not_lt_zero m), hwithin⟩

/-- Where the first block has no such byte, the first one lies in the others. -/
theorem FirstByte.later {p : Nat → Nat → Prop} {blocks size n k : Nat}
    (hnone : ∀ i < size, ¬ p 0 i) (h : FirstByte (fun m => p (m + 1)) blocks size n k) :
    FirstByte p (blocks + 1) size (n + 1) k := by
  refine ⟨Nat.succ_lt_succ h.block, h.byte, h.holds, fun m hm i hi => ?_, h.within⟩
  cases m with
  | zero => exact hnone i hi
  | succ m => exact h.before m (Nat.lt_of_succ_lt_succ hm) i hi

theorem forall_blocks {p : Nat → Nat → Prop} {blocks size : Nat} (hhead : ∀ k < size, p 0 k)
    (hlater : ∀ m < blocks, ∀ k < size, p (m + 1) k) : ∀ m < blocks + 1, ∀ k < size, p m k := by
  intro m hm k hk
  cases m with
  | zero => exact hhead k hk
  | succ m => exact hlater m (Nat.lt_of_succ_lt_succ hm) k hk

theorem leadingOnes_spec {b : Byte} (h : b ≠ 255#8) :
    leadingOnes 8 b < 8 ∧ b.getMsbD (leadingOnes 8 b) = false := by
  revert b
  decide

/-- Where byte `i` of the bitmap block `bmb` lies. -/
def bitmapAddr (sb : Superblock) (bmb i : Nat) : Nat := bmb * sb.blockSectors * ataSectorSize + i

theorem ataRead_bitmap {sb : Superblock} (bmb : Nat) {i : Nat} (hi : i < sb.blockSize) (buf : Bytes) :
    ataRead d (bmb * sb.blockSectors) sb.blockSectors buf i = d (bitmapAddr sb bmb i) := by
  have hlt : i < sb.blockSectors * ataSectorSize := by rwa [blockSectors_mul]
  have := @copyTo_add buf (fun i => d (bmb * sb.blockSectors * ataSectorSize + i)) 0 _ i hlt
  rwa [Nat.zero_add] at this

theorem scanBitmapBlock_cases (buf : Bytes) (n bind : Nat) :
    (scanBitmapBlock buf n bind = none ∧ ∀ k, bind ≤ k → k < bind + n → buf k = 255#8) ∨
    ∃ k, bind ≤ k ∧ k < bind + n ∧ buf k ≠ 255#8 ∧ (∀ i, bind ≤ i → i < k → buf i = 255#8) ∧
      scanBitmapBlock buf n bind = some (u32 (k * 8 + leadingOnes 8 (buf k))) := by
  induction n generalizing bind with
  | zero => exact .inl ⟨rfl, fun k hk hlt => absurd hlt (by omega)⟩
  | succ n ih =>
      rw [scanBitmapBlock]
      by_cases hbyte : buf bind = 255#8
      · have hfrom : ∀ {i}, bind ≤ i → ¬ bind + 1 ≤ i → buf i = 255#8 := by
          intro i hi hlt
          rwa [show i = bind by omega]
        rw [if_neg fun hne => hne hbyte]
        obtain ⟨hnone, hall⟩ | ⟨k, hk, hlt, hne, hbefore, hsome⟩ := ih (bind + 1)
        · refine .inl ⟨hnone, fun k hk hlt => ?_⟩
          by_cases hlater : bind + 1 ≤ k
          · exact hall k hlater (by omega)
          · exact hfrom hk hlater
        · refine .inr ⟨k, by omega, by omega, hne, fun i hi hik => ?_, hsome⟩
          by_cases hlater : bind + 1 ≤ i
          · exact hbefore i hlater hik
          · exact hfrom hi hlater
      · rw [if_pos hbyte]
        exact .inr ⟨bind, le_rfl, by omega, hbyte, fun i hi hlt => absurd hlt (by omega), rfl⟩

theorem scanBitmap_cases (sb : Superblock) (d : Bytes) (n bmb : Nat) (buf : Bytes) :
    (scanBitmap sb d n bmb buf = none ∧
      ∀ m < n, ∀ k < sb.blockSize, d (bitmapAddr sb (bmb + m) k) = 255#8) ∨
    ∃ m k, FirstByte (fun m k => d (bitmapAddr sb (bmb + m) k) ≠ 255#8) n sb.blockSize m k ∧
      scanBitmap sb d n bmb buf =
        some (u32 (k * 8 + leadingOnes 8 (d (bitmapAddr sb (bmb + m) k)))) := by
  induction n generalizing bmb buf with
  | zero => exact .inl ⟨rfl, fun m hm => absurd hm (by omega)⟩
  | succ n ih =>
      have hread : ∀ k < sb.blockSize,
          ataRead d (bmb * sb.blockSectors) sb.blockSectors buf k = d (bitmapAddr sb (bmb + 0) k) :=
        fun k hk => ataRead_bitmap bmb hk buf
      have hshift : ∀ m, bmb + 1 + m = bmb + (m + 1) := fun m => by omega
      simp only [scanBitmap]
      generalize ataRead d (bmb * sb.blockSectors) sb.blockSectors buf = block at hread ⊢
      obtain ⟨hnone, hall⟩ | ⟨k, -, hk, hne, hwithin, hsome⟩ :=
        scanBitmapBlock_cases block sb.blockSize 0
      · have hfull : ∀ k < sb.blockSize, d (bitmapAddr sb (bmb + 0) k) = 255#8 := fun k hk => by
          rw [← hread k hk]
          exact hall k (Nat.zero_le k) (by omega)
        have hlater := ih (bmb + 1) block
        simp only [hshift] at hlater
        rw [hnone]
        obtain ⟨hrest, hclear⟩ | ⟨m, k, hfirst, hsome⟩ := hlater
        · exact .inl ⟨hrest, forall_blocks hfull hclear⟩
        · exact .inr ⟨m + 1, k, hfirst.later fun k hk hne => hne (hfull k hk), hsome⟩
      · rw [Nat.zero_add] at hk
        rw [hsome]
        refine .inr ⟨0, k, .head hk ?_ fun i hi hne' => ?_, ?_⟩
        · rw [← hread k hk]
          exact hne
        · rw [← hread i (by omega)] at hne'
          exact hne' (hwithin i (Nat.zero_le i) hi)
        · rw [hread k hk]

/-- No bit of the block bitmap of group `bi` is free. -/
def GroupFull (g : Gdata) (d : Bytes) (bi : Nat) : Prop :=
  ∀ bmb, (g.bt.groups bi).blockBitmapAddr ≤ bmb → bmb < (g.bt.groups bi).inodeBitmapAddr →
    ∀ i < g.sb.blockSize, d (bitmapAddr g.sb bmb i) = 255#8

theorem findGrpUnallocBlock_full {bi : Nat} (h : GroupFull g d bi) :
    findGrpUnallocBlock g d bi heap = noBlock := by
  obtain ⟨hnone, -⟩ | ⟨n, k, hfirst, -⟩ := scanBitmap_cases g.sb d
    ((g.bt.groups bi).inodeBitmapAddr - (g.bt.groups bi).blockBitmapAddr)
    (g.bt.groups bi).blockBitmapAddr heap
  · unfold findGrpUnallocBlock
    simp only []
    rw [hnone]
    rfl
  · have hblock := hfirst.block
    exact absurd (h _ (Nat.le_add_right _ n) (by omega) k hfirst.byte) hfirst.holds

/-- The first free bit of group `bi` is in byte `k` of the first block of its bitmap. -/
structure FirstFree (g : Gdata) (d : Bytes) (bi k : Nat) : Prop where
  block : (g.bt.groups bi).blockBitmapAddr < (g.bt.groups bi).inodeBitmapAddr
  byte : k < g.sb.blockSize
  before : ∀ i < k, d (bitmapAddr g.sb (g.bt.groups bi).blockBitmapAddr i) = 255#8
  free : d (bitmapAddr g.sb (g.bt.groups bi).blockBitmapAddr k) ≠ 255#8

/-- The index of that bit. -/
def freeIndex (g : Gdata) (d : Bytes) (bi k : Nat) : Nat :=
  k * 8 + leadingOnes 8 (d (bitmapAddr g.sb (g.bt.groups bi).blockBitmapAddr k))

theorem findGrpUnallocBlock_first {bi k : Nat} (h : FirstFree g d bi k) :
    findGrpUnallocBlock g d bi heap = u32 (freeIndex g d bi k) := by
  have hblock := h.block
  have hhead : FirstByte
      (fun m k => d (bitmapAddr g.sb ((g.bt.groups bi).blockBitmapAddr + m) k) ≠ 255#8)
      ((g.bt.groups bi).inodeBitmapAddr - (g.bt.groups bi).blockBitmapAddr) g.sb.blockSize 0 k :=
    ⟨by omega, h.byte, h.free, fun m hm => absurd hm (Nat.not_lt_zero m),
      fun i hi hne => hne (h.before i hi)⟩
  obtain ⟨-, hfull⟩ | ⟨n, k', hfirst, hsome⟩ := scanBitmap_cases g.sb d
    ((g.bt.groups bi).inodeBitmapAddr - (g.bt.groups bi).blockBitmapAddr)
    (g.bt.groups bi).blockBitmapAddr heap
  · exact absurd (hfull 0 hhead.block k hhead.byte) hhead.holds
  · obtain ⟨rfl, rfl⟩ := hfirst.unique hhead
    unfold findGrpUnallocBlock
    simp only []
    rw [hsome]
    rfl

theorem findFrom_none {n bi : Nat} (h : ∀ x, bi ≤ x → x < bi + n → GroupFull g d x) :
    findFrom g d heap n bi = none := by
  induction n generalizing bi with
  | zero => rfl
  | succ n ih =>
      have hfull := @findGrpUnallocBlock_full _ _ heap _ (h bi (by omega) (by omega))
      simp only [findFrom]
      rw [if_neg (fun hne => hne hfull)]
      exact ih fun x hx hlt => h x (by omega) (by omega)

theorem findFrom_some {n start bi u : Nat} (hstart : start ≤ bi) (hn : bi < start + n)
    (hfull : ∀ x, start ≤ x → x < bi → GroupFull g d x)
    (hfind : findGrpUnallocBlock g d bi heap = u) (hu : u ≠ noBlock) :
    findFrom g d heap n start = some (bi, u) := by
  induction n generalizing start with
  | zero => omega
  | succ n ih =>
      simp only [findFrom]
      by_cases hbi : start = bi
      · rw [hbi, hfind, if_pos hu]
      · have hnone := @findGrpUnallocBlock_full _ _ heap _ (hfull start (by omega) (by omega))
        rw [if_neg (fun hne => hne hnone)]
        exact ih (by omega) (by omega) fun x hx hlt => hfull x (by omega) hlt

/-- A file system without a free block: the search answers with its sentinel. -/
theorem findUnallocBlock_full {start : Nat} (h : ∀ bi < max start g.bt.length, GroupFull g d bi) :
    findUnallocBlock g d heap start = noBlock := by
  unfold findUnallocBlock
  rw [findFrom_none fun x hx hlt => h x (by omega)]
  simp only []
  rw [findFrom_none fun x hx hlt => h x (by omega)]

end Search

section Rounds

/-- The search from `start` ends at a group whose inode table ends at block 0 of the address
space, in the first block of its bitmap, or finds every bitmap full. -/
def RoundSafe (g : Gdata) (d : Bytes) (start : Nat) : Prop :=
  (∀ bi < max start g.bt.length, GroupFull g d bi) ∨
  ∃ bi k, start ≤ bi ∧ bi < g.bt.length ∧ (∀ x, start ≤ x → x < bi → GroupFull g d x) ∧
    FirstFree g d bi k ∧ u32 (tableEnd g bi) = 0 ∧
    freeIndex g d bi k < g.sb.blocksPerGroup ∧
    bi * g.sb.blocksPerGroup + freeIndex g d bi k < g.sb.blocksTotal ∧
    (g.bt.groups bi).blockBitmapAddr * g.sb.blockSectors + k / ataSectorSize < 2 ^ 32

/-- A safe search finds nothing, or a block inside the file system whose own bit is clear. -/
theorem findUnallocBlock_safe {start : Nat} (h : RoundSafe g d start) :
    findUnallocBlock g d heap start = noBlock ∨
    (bitAt d (blockBit g (findUnallocBlock g d heap start)) = false ∧
      findUnallocBlock g d heap start < g.sb.blocksTotal) := by
  obtain hfull | ⟨bi, k, hstart, hbi, hfull, hfirst, hend, hindex, htotal, hsector⟩ := h
  · exact .inl (findUnallocBlock_full hfull)
  · have hlt := g.sb.blocksTotal_lt
    have hu : u32 (freeIndex g d bi k) = freeIndex g d bi k := Nat.mod_eq_of_lt (by omega)
    have hsome := findFrom_some (n := g.bt.length - start) hstart (by omega) hfull
      ((@findGrpUnallocBlock_first _ _ heap _ _ hfirst).trans hu) (by unfold noBlock; omega)
    have hblock : findUnallocBlock g d heap start =
        bi * g.sb.blocksPerGroup + freeIndex g d bi k := by
      unfold findUnallocBlock
      rw [hsome]
      unfold u32 at hend ⊢
      simp only []
      omega
    refine .inr ⟨?_, by rwa [hblock]⟩
    obtain ⟨hj, hclear⟩ := leadingOnes_spec hfirst.free
    have hgroup : (bi * g.sb.blocksPerGroup + freeIndex g d bi k) / g.sb.blocksPerGroup = bi := by
      rw [Nat.mul_comm, Nat.mul_add_div (by omega), Nat.div_eq_of_lt hindex, Nat.add_zero]
    have htind : (bi * g.sb.blocksPerGroup + freeIndex g d bi k) % g.sb.blocksPerGroup =
        freeIndex g d bi k := by
      rw [Nat.mul_comm, Nat.mul_add_mod, Nat.mod_eq_of_lt hindex]
    have hbyte : freeIndex g d bi k / 8 = k := by
      unfold freeIndex
      omega
    have hbit : freeIndex g d bi k % 8 =
        leadingOnes 8 (d (bitmapAddr g.sb (g.bt.groups bi).blockBitmapAddr k)) := by
      unfold freeIndex
      omega
    have haddr : bitmapByte g.sb (g.bt.groups bi).blockBitmapAddr (freeIndex g d bi k) =
        bitmapAddr g.sb (g.bt.groups bi).blockBitmapAddr k := by
      unfold bitmapByte bitmapSector bitmapAddr
      rw [hbyte, u32, Nat.mod_eq_of_lt hsector]
      unfold ataSectorSize
      omega
    rw [hblock]
    unfold blockBit bitmapBit bitAt
    rw [hgroup, htind, haddr, Nat.mul_add_div (by decide), Nat.mul_add_mod,
      Nat.div_eq_of_lt (Nat.mod_lt _ (by decide)), Nat.add_zero, Nat.mod_mod, hbit]
    exact hclear

/-- Rounds of `b = fs_ext2_find_unalloc_block(start)` and `fs_ext2_mark_alloc_block(b)`: the
blocks returned, each with the medium it was found on. -/
def allocRounds (g : Gdata) (heap : Bytes) : Bytes → List Nat → List (Nat × Bytes)
  | _, [] => []
  | d, start :: starts =>
      let b := findUnallocBlock g d heap start
      if b = noBlock then allocRounds g heap d starts
      else (b, d) :: allocRounds g heap (markAllocBlock g d heap b) starts

def RoundsSafe (g : Gdata) (heap : Bytes) : Bytes → List Nat → Prop
  | _, [] => True
  | d, start :: starts =>
      RoundSafe g d start ∧
      let b := findUnallocBlock g d heap start
      RoundsSafe g heap (if b = noBlock then d else markAllocBlock g d heap b) starts

theorem allocRounds_keeps {starts : List Nat} {d : Bytes} {p : Nat × Bytes} {k : Nat}
    (hp : p ∈ allocRounds g heap d starts) (hk : bitAt d k = true) : bitAt p.2 k = true := by
  induction starts generalizing d with
  | nil => simp [allocRounds] at hp
  | cons start starts ih =>
      simp only [allocRounds] at hp
      split at hp
      · exact ih hp hk
      · rcases List.mem_cons.mp hp with rfl | hp
        · exact hk
        · refine ih hp ?_
          rw [bitAt_markAllocBlock, hk, Bool.true_or]

theorem allocRounds_free {starts : List Nat} {d : Bytes} (h : RoundsSafe g heap d starts)
    {p : Nat × Bytes} (hp : p ∈ allocRounds g heap d starts) :
    bitAt p.2 (blockBit g p.1) = false ∧ p.1 < g.sb.blocksTotal := by
  induction starts generalizing d with
  | nil => simp [allocRounds] at hp
  | cons start starts ih =>
      obtain ⟨hsafe, hrest⟩ := h
      simp only [] at hrest
      simp only [allocRounds] at hp
      split at hp
      · rename_i hnone
        rw [if_pos hnone] at hrest
        exact ih hrest hp
      · rename_i hsome
        rw [if_neg hsome] at hrest
        rcases List.mem_cons.mp hp with rfl | hp
        · exact (findUnallocBlock_safe hsafe).resolve_left hsome
        · exact ih hrest hp

/-- The blocks that safe rounds return are distinct, were free by the bitmap of their own group
when returned, and lie inside the file system. -/
theorem blocks_handed_out_once (g : Gdata) (heap d : Bytes) (starts : List Nat)
    (h : RoundsSafe g heap d starts) :
    ((allocRounds g heap d starts).map Prod.fst).Nodup ∧
    ∀ p ∈ allocRounds g heap d starts,
      bitAt p.2 (blockBit g p.1) = false ∧ p.1 < g.sb.blocksTotal := by
  refine ⟨?_, fun p hp => allocRounds_free h hp⟩
  induction starts generalizing d with
  | nil => exact List.nodup_nil
  | cons start starts ih =>
      obtain ⟨-, hrest⟩ := h
      simp only [] at hrest
      simp only [allocRounds]
      split
      · rename_i hnone
        rw [if_pos hnone] at hrest
        exact ih _ hrest
      · rename_i hsome
        rw [if_neg hsome] at hrest
        rw [List.map_cons, List.nodup_cons]
        refine ⟨fun hmem => ?_, ih _ hrest⟩
        obtain ⟨p, hp, hfst⟩ := List.mem_map.mp hmem
        have hfree := (allocRounds_free hrest hp).1
        have hset := allocRounds_keeps hp (k := blockBit g p.1) (by
          rw [bitAt_markAllocBlock, hfst]
          simp)
        rw [hfree] at hset
        exact Bool.false_ne_true hset

/-- One group of 8192 blocks of 1 KiB and one block of inodes behind the bitmaps. -/
def oneGroup (inodeTableAddr : Nat) : Gdata where
  sb :=
    { blocksTotal := 8192
      blockLogsz := 0
      blocksPerGroup := 8192
      inodesPerGroup := 8
      inodeSize := 128
      reqFeatures := 0
      blocksTotal_lt := by decide }
  bt := ⟨fun _ => ⟨3, 4, inodeTableAddr⟩, 1⟩

def blankMedium : Bytes := fun _ => 0

/-- Two such groups, both with an inode table that ends at block 0 of the address space. -/
def twoGroups : Gdata where
  sb := { (oneGroup (2 ^ 32 - 1)).sb with
    blocksTotal := 16384
    blocksTotal_lt := by decide }
  bt := ⟨fun bi => ⟨3 + 2 * bi, 4 + 2 * bi, 2 ^ 32 - 1⟩, 2⟩

/-- A search whose first group has a free bit in the first byte of its bitmap. -/
theorem roundSafe_twoGroups {d : Bytes} {start : Nat} (hstart : start < 2)
    (hfree : d (bitmapAddr twoGroups.sb (twoGroups.bt.groups start).blockBitmapAddr 0) ≠ 255#8) :
    RoundSafe twoGroups d start := by
  have hindex : freeIndex twoGroups d start 0 < 8 := by
    have := (leadingOnes_spec hfree).1
    unfold freeIndex
    omega
  refine .inr ⟨start, 0, le_rfl, hstart, fun x _ hx => absurd hx (by omega),
    ⟨by change 3 + 2 * start < 4 + 2 * start; omega, by decide,
      fun i hi => absurd hi (by omega), hfree⟩, ?_, ?_, ?_, ?_⟩
  · simp [tableEnd, twoGroups, oneGroup, u32, Superblock.blockSize]
  · exact Nat.lt_trans hindex (by decide)
  · change start * 8192 + _ < 16384
    omega
  · change (3 + 2 * start) * 2 + 0 < _
    omega

/-- Three rounds that start in the second, the first and the second group. -/
theorem blocks_handed_out_once_threeRounds :
    let rounds := allocRounds twoGroups blankMedium blankMedium [1, 0, 1]
    rounds.map Prod.fst = [8192, 0, 8193] ∧ (rounds.map Prod.fst).Nodup ∧
      ∀ p ∈ rounds, bitAt p.2 (blockBit twoGroups p.1) = false ∧ p.1 < twoGroups.sb.blocksTotal :=
  ⟨by decide +kernel,
    blocks_handed_out_once twoGroups blankMedium blankMedium [1, 0, 1]
      ⟨roundSafe_twoGroups (by decide) (by decide), roundSafe_twoGroups (by decide) (by decide +kernel),
        roundSafe_twoGroups (by decide) (by decide +kernel), trivial⟩⟩

/-- With the inode table at block 5 two rounds return block 6 twice. -/
theorem blocks_handed_out_twice :
    ¬ ∀ (g : Gdata) (heap d : Bytes) (starts : List Nat),
      ((allocRounds g heap d starts).map Prod.fst).Nodup ∧
      ∀ p ∈ allocRounds g heap d starts,
        bitAt p.2 (blockBit g p.1) = false ∧ p.1 < g.sb.blocksTotal := by
  intro h
  have hnodup := (h (oneGroup 5) blankMedium blankMedium [0, 0]).1
  exact absurd hnodup (by decide +kernel)

end Rounds

end UntitledOs.Fs
