import UntitledOs.Fs.BlockBitmap

/-!
# Releasing the blocks of a file

The blocks of a file are the trees under its pointers.  Both loops of the driver
walk the logical blocks and clear the bit below that of each block they meet, so
the bit of the last block of the file stays set.
-/

namespace UntitledOs.Fs

open UntitledOs.Lib

variable {g : Gdata} {sb : Superblock} {d d' file : Bytes}

/-- Where block `b` starts on the medium. -/
def blockStart (sb : Superblock) (b : Nat) : Nat := u32 (b * sb.blockSectors) * ataSectorSize

/-- Word `i` of block `b` on the medium. -/
def diskWord (sb : Superblock) (d : Bytes) (b i : Nat) : Nat := getLe d (blockStart sb b + 4 * i) 4

/-- Block `c` stands `k` levels above the data in the tree under block `b`, which stands `l`
levels above it. -/
inductive Under (sb : Superblock) (d : Bytes) : Nat → Nat → Nat → Nat → Prop
  | self {l b : Nat} : b ≠ 0 → Under sb d l b l b
  | child {l b k c i : Nat} : b ≠ 0 → i < sb.dbpPerBlock →
      Under sb d l (diskWord sb d b i) k c → Under sb d (l + 1) b k c

/-- Block `c` is a block of the file, `k` levels above the data. -/
def FileBlockAt (sb : Superblock) (d file : Bytes) (k c : Nat) : Prop :=
  (∃ i < 12, Under sb d 0 (dbp file i) k c) ∨ Under sb d 1 (sibp file) k c ∨
    Under sb d 2 (dibp file) k c ∨ Under sb d 3 (tibp file) k c

/-- A data block or a pointer block of the file. -/
def FileBlock (sb : Superblock) (d file : Bytes) (c : Nat) : Prop := ∃ k, FileBlockAt sb d file k c

def PointerBlock (sb : Superblock) (d file : Bytes) (c : Nat) : Prop :=
  ∃ k, FileBlockAt sb d file (k + 1) c

theorem Under.root_ne_zero {l b k c : Nat} (h : Under sb d l b k c) : b ≠ 0 := by
  cases h with
  | self hb => exact hb
  | child hb _ _ => exact hb

theorem Under.snoc {l b m c : Nat} (h : Under sb d l b m c) {k i : Nat} (hm : m = k + 1)
    (hi : i < sb.dbpPerBlock) (hw : diskWord sb d c i ≠ 0) :
    Under sb d l b k (diskWord sb d c i) := by
  induction h with
  | self hb =>
      subst hm
      exact .child hb hi (.self hw)
  | child hb hj _ ih => exact .child hb hj (ih hm hw)

theorem FileBlockAt.snoc {k c i : Nat} (h : FileBlockAt sb d file (k + 1) c)
    (hi : i < sb.dbpPerBlock) (hw : diskWord sb d c i ≠ 0) :
    FileBlockAt sb d file k (diskWord sb d c i) := by
  obtain ⟨j, hj, h⟩ | h | h | h := h
  · exact .inl ⟨j, hj, h.snoc rfl hi hw⟩
  · exact .inr (.inl (h.snoc rfl hi hw))
  · exact .inr (.inr (.inl (h.snoc rfl hi hw)))
  · exact .inr (.inr (.inr (h.snoc rfl hi hw)))

section Walk

/-- The memory behind a block buffer is zero. -/
def ZeroTail (sb : Superblock) (buf : Bytes) : Prop := ∀ i, sb.blockSize ≤ i → buf i = 0

/-- The words of the pointer blocks of the file are those of `d`. -/
def SameWords (sb : Superblock) (d d' file : Bytes) : Prop :=
  ∀ p, PointerBlock sb d file p → ∀ i < sb.dbpPerBlock, diskWord sb d' p i = diskWord sb d p i

theorem dbpPerBlock_mul (sb : Superblock) : 4 * sb.dbpPerBlock = sb.blockSize := by
  have h := blockSectors_mul sb
  unfold Superblock.dbpPerBlock
  unfold ataSectorSize at h
  omega

theorem ZeroTail.readBlock {buf : Bytes} (h : ZeroTail sb buf) (b : Nat) :
    ZeroTail sb (readBlock sb d b buf) := by
  intro i hi
  have hlen := blockSectors_mul sb
  unfold Fs.readBlock ataRead
  rw [copyTo_of_ge (by omega)]
  exact h i hi

theorem word_readBlock {buf : Bytes} (b : Nat) {i : Nat} (hi : i < sb.dbpPerBlock) :
    word (readBlock sb d b buf) i = diskWord sb d b i := by
  have hlen := blockSectors_mul sb
  have hwords := dbpPerBlock_mul sb
  have hcopy := @getLe_copyTo buf (fun i => d (u32 (b * sb.blockSectors) * ataSectorSize + i)) 0
    (4 * i) 4 (sb.blockSectors * ataSectorSize) (by omega)
  rw [Nat.zero_add, getLe_shift] at hcopy
  exact hcopy

theorem word_tail {buf : Bytes} (h : ZeroTail sb buf) {i : Nat} (hi : sb.dbpPerBlock ≤ i) :
    word buf i = 0 := by
  have hwords := dbpPerBlock_mul sb
  exact getLe_zero fun j _ => h _ (by omega)

/-- A word read from a pointer block names a block of the file, unless it is zero. -/
theorem FileBlockAt.read {k p i : Nat} {buf : Bytes} (h : FileBlockAt sb d file (k + 1) p)
    (hsame : SameWords sb d d' file) (htail : ZeroTail sb buf)
    (hw : word (readBlock sb d' p buf) i ≠ 0) :
    FileBlockAt sb d file k (word (readBlock sb d' p buf) i) := by
  by_cases hi : i < sb.dbpPerBlock
  · rw [word_readBlock p hi, hsame p ⟨k, h⟩ i hi] at hw ⊢
    exact h.snoc hi hw
  · exact absurd (word_tail (htail.readBlock p) (by omega)) hw

/-- What the walk of the block map meets are blocks of the file. -/
theorem getInodePointer_fileBlock (hsame : SameWords sb d d' file) (bind : Nat) {buf : Bytes}
    (htail : ZeroTail sb buf) :
    ZeroTail sb (getInodePointer sb d' file bind buf).2 ∧
    ((getInodePointer sb d' file bind buf).1 ≠ 0 →
      FileBlock sb d file (getInodePointer sb d' file bind buf).1) := by
  have hsib : sibp file ≠ 0 → FileBlockAt sb d file 1 (sibp file) := fun h => .inr (.inl (.self h))
  have hdib : dibp file ≠ 0 → FileBlockAt sb d file 2 (dibp file) :=
    fun h => .inr (.inr (.inl (.self h)))
  have htib : tibp file ≠ 0 → FileBlockAt sb d file 3 (tibp file) :=
    fun h => .inr (.inr (.inr (.self h)))
  simp only [getInodePointer]
  split
  · rename_i hbind
    exact ⟨htail, fun h => ⟨0, .inl ⟨bind, hbind, .self h⟩⟩⟩
  split
  · split
    · exact ⟨htail, fun h => absurd rfl h⟩
    · rename_i hptr
      exact ⟨htail.readBlock _, fun h => ⟨0, (hsib hptr).read hsame htail h⟩⟩
  split
  · split
    · exact ⟨htail, fun h => absurd rfl h⟩
    · rename_i hptr
      have htail₁ := htail.readBlock (d := d') (dibp file)
      split
      · exact ⟨htail₁, fun h => absurd rfl h⟩
      · rename_i hword
        have hat := (hdib hptr).read hsame htail hword
        exact ⟨htail₁.readBlock _, fun h => ⟨0, hat.read hsame htail₁ h⟩⟩
  · split
    · exact ⟨htail, fun h => absurd rfl h⟩
    · rename_i hptr
      have htail₁ := htail.readBlock (d := d') (tibp file)
      split
      · exact ⟨htail₁, fun h => absurd rfl h⟩
      · rename_i hword
        have hat := (htib hptr).read hsame htail hword
        split
        · exact ⟨htail₁.readBlock _, fun h => absurd rfl h⟩
        · rename_i hword₂
          have hat₂ := hat.read hsame htail₁ hword₂
          exact ⟨(htail₁.readBlock _).readBlock _,
            fun h => ⟨0, hat₂.read hsame (htail₁.readBlock _) h⟩⟩

end Walk

section Loops

/-- A file in a consistent file system: different blocks have different bits, its blocks lie
inside the file system and are marked allocated, and neither its pointer blocks, its inode nor
the bit of its inode lie on the bits of blocks. -/
structure FileOk (g : Gdata) (d file : Bytes) (fileNum : Nat) : Prop where
  bits : ∀ b < g.sb.blocksTotal, ∀ c < g.sb.blocksTotal, blockBit g b = blockBit g c → b = c
  inside : ∀ c, FileBlock g.sb d file c → c < g.sb.blocksTotal
  allocated : ∀ c, FileBlock g.sb d file c → bitAt d (blockBit g c) = true
  pointers : ∀ p, PointerBlock g.sb d file p → ∀ c < g.sb.blocksTotal,
    blockBit g c / 8 < blockStart g.sb p ∨ blockStart g.sb p + g.sb.blockSize ≤ blockBit g c / 8
  table : ∀ c < g.sb.blocksTotal, blockBit g c / 8 < blockStart g.sb (inodeTableBlock g fileNum) ∨
    blockStart g.sb (inodeTableBlock g fileNum) + g.sb.blockSize ≤ blockBit g c / 8
  inode : ∀ c < g.sb.blocksTotal, blockBit g c ≠ inodeBit g fileNum

/-- Of the bits of all blocks, those of the file are cleared and no other. -/
def Released (g : Gdata) (d file d' : Bytes) : Prop :=
  ∀ c < g.sb.blocksTotal, bitAt d' (blockBit g c) = true ↔
    bitAt d (blockBit g c) = true ∧ ¬ FileBlock g.sb d file c

variable {heap : Bytes} {fileNum : Nat}

theorem pred32_of_ne_zero {x : Nat} (h : x ≠ 0) (hx : x < 2 ^ 32) : pred32 x = x - 1 := by
  unfold pred32 u32
  rw [show x + 2 ^ 32 - 1 = (x - 1) + 2 ^ 32 by omega, Nat.add_mod_right]
  exact Nat.mod_eq_of_lt (by omega)

theorem SameWords.markUnallocBlock (hok : FileOk g d file fileNum)
    (hsame : SameWords g.sb d d' file) {b : Nat} (hb : pred32 b < g.sb.blocksTotal) :
    SameWords g.sb d (markUnallocBlock g d' heap b) file := by
  intro p hp i hi
  have hwords := dbpPerBlock_mul g.sb
  rw [← hsame p hp i hi]
  refine getLe_congr fun j hj => markUnallocBlock_of_ne fun heq => ?_
  rcases hok.pointers p hp _ hb with h | h <;> omega

/-- The loop never clears the bit of the last block of the file. -/
theorem freeFileLoop_keeps (hok : FileOk g d file fileNum) {m : Nat}
    (hm : FileBlock g.sb d file m) (hmax : ∀ c, FileBlock g.sb d file c → c ≤ m) {fuel blki : Nat}
    {buf d₁ d₂ : Bytes} (htail : ZeroTail g.sb buf) (hsame : SameWords g.sb d d₁ file)
    (hset : bitAt d₁ (blockBit g m) = true)
    (hrun : freeFileLoop g heap file fuel blki buf d₁ = some d₂) :
    bitAt d₂ (blockBit g m) = true := by
  induction fuel generalizing blki buf d₁ with
  | zero => simp [freeFileLoop] at hrun
  | succ fuel ih =>
      obtain ⟨htail₁, hblock⟩ := getInodePointer_fileBlock hsame blki htail
      simp only [freeFileLoop] at hrun
      split at hrun
      · rwa [Option.some.inj hrun] at hset
      · rename_i hptr
        have hlt := hok.inside _ (hblock hptr)
        have hle := hmax _ (hblock hptr)
        have htotal := g.sb.blocksTotal_lt
        have hpred := pred32_of_ne_zero hptr (by omega)
        refine ih htail₁ (hsame.markUnallocBlock hok (by omega)) ?_ hrun
        rw [bitAt_markUnallocBlock, hset, Bool.true_and, hpred, Bool.not_eq_true',
          decide_eq_false_iff_not]
        intro heq
        have := hok.bits m (hok.inside m hm) _ (by omega) heq
        omega

theorem not_released (hok : FileOk g d file fileNum) {c : Nat} (hc : FileBlock g.sb d file c)
    {fuel : Nat} (hrun : freeFile g fuel d (fun _ => 0) file fileNum = some d') :
    ¬ Released g d file d' := by
  classical
  intro hrel
  set m := Nat.findGreatest (FileBlock g.sb d file) g.sb.blocksTotal with hmdef
  have hm : FileBlock g.sb d file m := Nat.findGreatest_spec (hok.inside c hc).le hc
  have hmax : ∀ x, FileBlock g.sb d file x → x ≤ m := fun x hx =>
    Nat.le_findGreatest (hok.inside x hx).le hx
  obtain ⟨d₂, hloop, hd'⟩ := Option.map_eq_some_iff.mp hrun
  have hset := freeFileLoop_keeps hok hm hmax (fun _ _ => rfl) (fun _ _ _ _ => rfl)
    (hok.allocated m hm) hloop
  have hkept : bitAt d' (blockBit g m) = true := by
    rw [← hd', bitAt_markUnallocInode, hset, Bool.true_and, Bool.not_eq_true',
      decide_eq_false_iff_not]
    exact hok.inode m (hok.inside m hm)
  exact ((hrel m (hok.inside m hm)).mp hkept).2 hm

theorem writeInode_of_outside {i : Nat} (num : Nat) (inode : Bytes)
    (h : i < blockStart g.sb (inodeTableBlock g num) ∨
      blockStart g.sb (inodeTableBlock g num) + g.sb.blockSize ≤ i) :
    writeInode g d heap num inode i = d i := by
  have hlen := blockSectors_mul g.sb
  unfold blockStart at h
  unfold writeInode writeBlock ataWrite
  rcases h with h | h
  · exact copyTo_of_lt h
  · exact copyTo_of_ge (by omega)

/-- Both releases clear exactly the bits of the blocks of the file only when it has none. -/
theorem release_exact_iff (g : Gdata) (d file : Bytes) (fileNum : Nat)
    (hok : FileOk g d file fileNum) :
    ((∀ heap, ∃ fuel d', freeFile g fuel d heap file fileNum = some d' ∧ Released g d file d') ∧
      ∀ heap, ∃ fuel r, openRecreate g fuel d heap file fileNum = some r ∧
        Released g d file r.2) ↔
    ∀ c, ¬ FileBlock g.sb d file c := by
  constructor
  · rintro ⟨hfree, -⟩ c hc
    obtain ⟨fuel, d', hrun, hrel⟩ := hfree fun _ => 0
    exact not_released hok hc hrun hrel
  · intro hnone
    have hptr : ∀ heap, getInodePointer g.sb d file 0 heap = (0, heap) := by
      intro heap
      have hzero : dbp file 0 = 0 := by
        by_contra hne
        exact hnone _ ⟨0, .inl ⟨0, by decide, .self hne⟩⟩
      rw [getInodePointer, if_pos (by decide), hzero]
    have hsame : ∀ d₁ : Bytes, (∀ c < g.sb.blocksTotal, bitAt d₁ (blockBit g c) =
        bitAt d (blockBit g c)) → Released g d file d₁ := by
      intro d₁ h c hc
      rw [h c hc]
      exact ⟨fun hset => ⟨hset, hnone c⟩, fun hset => hset.1⟩
    refine ⟨fun heap => ⟨1, markUnallocInode g d heap fileNum, ?_, hsame _ fun c hc => ?_⟩,
      fun heap => ⟨1, (setInodeSize file 0, writeInode g d heap fileNum (setInodeSize file 0)), ?_,
        hsame _ fun c hc => ?_⟩⟩
    · simp only [freeFile, freeFileLoop, hptr, if_true, Option.map_some]
    · rw [bitAt_markUnallocInode, decide_eq_false (hok.inode c hc), Bool.not_false, Bool.and_true]
    · simp only [openRecreate, recreateLoop, hptr, if_true, Option.map_some]
    · dsimp only [bitAt]
      rw [writeInode_of_outside _ _ (hok.table c hc)]

/-- A file of one block, block 10. -/
def oneBlockFile : Bytes := setDbp (fun _ => 0) 0 10

def fullMedium : Bytes := fun _ => 255#8

theorem blockBit_oneGroup (t : Nat) {b : Nat} (hb : b < 8192) :
    blockBit (oneGroup t) b = 24576 + b := by
  have hsectors : (oneGroup t).sb.blockSectors = 2 :=
    show u32 (1024 * 2 ^ 0) / 512 = 2 by decide
  unfold blockBit bitmapBit bitmapByte bitmapSector
  rw [hsectors]
  unfold oneGroup u32 ataSectorSize
  simp only []
  omega

theorem fileBlock_oneBlockFile {k c : Nat} (h : FileBlockAt sb d oneBlockFile k c) :
    k = 0 ∧ c = 10 := by
  have hdbp : ∀ i < 12, dbp oneBlockFile i = if i = 0 then 10 else 0 := by decide
  obtain ⟨i, hi, h⟩ | h | h | h := h
  · have hi0 := h.root_ne_zero
    rw [hdbp i hi] at hi0 h
    split at h
    · cases h with
      | self _ => exact ⟨rfl, rfl⟩
    · rename_i hne
      exact absurd (if_neg hne) hi0
  · exact absurd (show sibp oneBlockFile = 0 by decide) (h.root_ne_zero)
  · exact absurd (show dibp oneBlockFile = 0 by decide) (h.root_ne_zero)
  · exact absurd (show tibp oneBlockFile = 0 by decide) (h.root_ne_zero)

theorem oneBlockFile_ok : FileOk (oneGroup 5) fullMedium oneBlockFile 1 where
  bits b hb c hc h := by
    rw [blockBit_oneGroup 5 hb, blockBit_oneGroup 5 hc] at h
    omega
  inside c hc := by
    obtain ⟨k, hc⟩ := hc
    rw [(fileBlock_oneBlockFile hc).2]
    decide
  allocated c _ := by
    have hset : ∀ j < 8, (255#8).getMsbD j = true := by decide
    exact hset _ (Nat.mod_lt _ (by decide))
  pointers p hp := by
    obtain ⟨k, hp⟩ := hp
    exact absurd (fileBlock_oneBlockFile hp).1 (Nat.succ_ne_zero k)
  table c hc := by
    rw [blockBit_oneGroup 5 hc, show blockStart (oneGroup 5).sb (inodeTableBlock (oneGroup 5) 1) =
      5120 by decide +kernel]
    have : c < 8192 := hc
    omega
  inode c hc := by
    rw [blockBit_oneGroup 5 hc, show inodeBit (oneGroup 5) 1 = 32768 by decide +kernel]
    have : c < 8192 := hc
    omega

theorem release_exact_iff_oneBlock :
    ((∀ heap, ∃ fuel d', freeFile (oneGroup 5) fuel fullMedium heap oneBlockFile 1 = some d' ∧
        Released (oneGroup 5) fullMedium oneBlockFile d') ∧
      ∀ heap, ∃ fuel r, openRecreate (oneGroup 5) fuel fullMedium heap oneBlockFile 1 = some r ∧
        Released (oneGroup 5) fullMedium oneBlockFile r.2) ↔
    ∀ c, ¬ FileBlock (oneGroup 5).sb fullMedium oneBlockFile c :=
  release_exact_iff (oneGroup 5) fullMedium oneBlockFile 1 oneBlockFile_ok

/-- Freeing the file of block 10 leaves the bit of block 10 set. -/
theorem free_file_keeps_block :
    ¬ ∀ (g : Gdata) (d file : Bytes) (fileNum : Nat), FileOk g d file fileNum →
      (∀ heap, ∃ fuel d', freeFile g fuel d heap file fileNum = some d' ∧ Released g d file d') ∧
      ∀ heap, ∃ fuel r, openRecreate g fuel d heap file fileNum = some r ∧
        Released g d file r.2 := by
  intro h
  obtain ⟨fuel, d', hrun, hrel⟩ := (h _ _ _ _ oneBlockFile_ok).1 fun _ => 0
  exact not_released oneBlockFile_ok
    ⟨0, .inl ⟨0, by decide, .self (show dbp oneBlockFile 0 ≠ 0 by decide)⟩⟩ hrun hrel

end Loops

end UntitledOs.Fs
