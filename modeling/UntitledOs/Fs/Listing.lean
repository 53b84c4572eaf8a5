import UntitledOs.Fs.Directory

/-!
# Listing a directory

The generic directory iterator over the one of the driver.  A listing gives the
type byte of an entry to the function that decodes the mode of an inode.
-/

namespace UntitledOs.Fs

open UntitledOs.Lib

section Iterator

/-- `fs_ext2_type_ext22fs_inode`. -/
def typeExt22fsInode (typePerms : Nat) : Nat :=
  if typePerms &&& 0x8000 ≠ 0 then 1
  else if typePerms &&& 0x4000 ≠ 0 then 2
  else if typePerms &&& 0xA000 ≠ 0 then 3
  else if typePerms &&& 0x1000 ≠ 0 then 4
  else if typePerms &&& 0x2000 ≠ 0 then 5
  else if typePerms &&& 0x6000 ≠ 0 then 6
  else if typePerms &&& 0xC000 ≠ 0 then 7
  else 0

/-- `file_system_dirent`. -/
structure Dirent where
  nameMax : Nat
  name : Bytes
  type : Nat

/-- `strlen(src)`, or `n` when no zero lies before. -/
def strnlen (src : Bytes) : Nat → Nat
  | 0 => 0
  | n + 1 => if src 0 = 0 then 0 else strnlen (fun i => src (i + 1)) n + 1

/-- `strncpy(dest, src, n)`: a copy of `min (strlen(src) + 1) n` bytes. -/
def strncpy (dest src : Bytes) (n : Nat) : Bytes :=
  copyTo dest 0 src (min (strnlen src n + 1) n)

/-- `fs_ext2_dir_iter_next`. -/
def dirIterNext (sb : Superblock) (d : Bytes) (it : DirIterator) (dent : Dirent) :
    Bool × DirIterator × Dirent :=
  let r := iterateDirNext sb d it
  (r.1, r.2, { dent with
    name := strncpy dent.name (fun i => r.2.cur (direntSzWoName + i)) dent.nameMax
    type := if sb.dirsHaveType then typeExt22fsInode (deTypeByte r.2.cur) else 0 })

/-- Calls of `dir_iter_next` with one `dent`, until 0 is returned, and what they gave.
`dir_iter_start` leaves a pointer to an inode of its own frame: `frame k` is what lies
there at call `k`. -/
def listLoop (sb : Superblock) (d : Bytes) (frame : Nat → Bytes) :
    Nat → Nat → DirIterator → Dirent → Option (List Dirent)
  | 0, _, _, _ => none
  | fuel + 1, k, it, dent =>
      let r := dirIterNext sb d { it with dir := frame k } dent
      if r.1 = false then some []
      else (listLoop sb d frame fuel (k + 1) r.2.1 r.2.2).map fun out => r.2.2 :: out

end Iterator

section Entries

/-- What an entry of a directory says; a dead one has no name. -/
structure DirEntry where
  inodeNum : Nat
  typeByte : Nat
  name : List Byte
  deriving DecidableEq

/-- The entry at offset `o` of a block. -/
def entryAt (sb : Superblock) (blk : Bytes) (o : Nat) : DirEntry :=
  let de : Bytes := fun i => blk (o + i)
  { inodeNum := deInodeNum de
    typeByte := deTypeByte de
    name := if deInodeNum de = 0 then []
      else (List.range (deNameLength sb de)).map fun i => de (direntSzWoName + i) }

def entrySzAt (blk : Bytes) (o : Nat) : Nat := deEntrySz fun i => blk (o + i)

/-- The entries of a block from offset `o` on, which fill it to its end. -/
inductive BlockEntries (sb : Superblock) (blk : Bytes) : Nat → List DirEntry → Prop
  | done : BlockEntries sb blk sb.blockSize []
  | entry {o : Nat} {entries : List DirEntry} (hlt : o < sb.blockSize)
      (hsz : direntSzWoName + (entryAt sb blk o).name.length ≤ entrySzAt blk o)
      (hname : ∀ b ∈ (entryAt sb blk o).name, b ≠ 0)
      (hrest : BlockEntries sb blk (o + entrySzAt blk o) entries) :
      BlockEntries sb blk o (entryAt sb blk o :: entries)

/-- The blocks of a directory are read in order, whatever the buffer held; each is filled by
its entries, and a live entry has the type byte of one of the types of a file. -/
structure WellFormedDir (sb : Superblock) (d inode : Bytes) (blocks : List (List DirEntry)) :
    Prop where
  read : ∀ k (hk : k < blocks.length), ∀ buf, (readInodeData sb d inode k buf).1 = true ∧
    BlockEntries sb (readInodeData sb d inode k buf).2 0 blocks[k]
  ended : ∀ buf, (readInodeData sb d inode blocks.length buf).1 = false
  typed : ∀ e ∈ blocks.flatten, e.inodeNum ≠ 0 →
    ∃ type, 1 ≤ type ∧ type ≤ 7 ∧ typeFs2ext2Typebyte type = e.typeByte

def liveEntries (blocks : List (List DirEntry)) : List DirEntry :=
  blocks.flatten.filter fun e => e.inodeNum ≠ 0

/-- What a listing gives for a live entry. -/
def Dirent.Matches (out : Dirent) (e : DirEntry) : Prop :=
  (1 ≤ out.type ∧ out.type ≤ 7 ∧ typeFs2ext2Typebyte out.type = e.typeByte) ∧
  (∀ i (h : i < e.name.length), out.name i = e.name[i]) ∧ out.name e.name.length = 0

/-- The listing ends, with the live entries in their order. -/
def Lists (sb : Superblock) (d inode pbuf stack : Bytes) (frame : Nat → Bytes) (dent : Dirent)
    (live : List DirEntry) : Prop :=
  ∃ out, Returns (fun fuel =>
      listLoop sb d frame fuel 0 (iterateDirStart sb d inode pbuf stack) dent) out ∧
    List.Forall₂ Dirent.Matches out live

end Entries

theorem BlockEntries.le {sb : Superblock} {blk : Bytes} {o : Nat} {entries : List DirEntry}
    (h : BlockEntries sb blk o entries) : o ≤ sb.blockSize := by
  cases h with
  | done => exact le_refl _
  | entry hlt => exact Nat.le_of_lt hlt

theorem entryAt_congr {sb : Superblock} {blk blk' : Bytes} {o : Nat}
    (h : ∀ i < direntSzWoName + (entryAt sb blk o).name.length, blk' (o + i) = blk (o + i)) :
    entryAt sb blk' o = entryAt sb blk o := by
  have hfield : ∀ a n, a + n ≤ direntSzWoName →
      getLe (fun i => blk' (o + i)) a n = getLe (fun i => blk (o + i)) a n := by
    intro a n han
    exact getLe_congr fun i hi => h (a + i) (by omega)
  have hinode : deInodeNum (fun i => blk' (o + i)) = deInodeNum fun i => blk (o + i) :=
    hfield 0 4 (by decide)
  have hlen : deNameLength sb (fun i => blk' (o + i)) = deNameLength sb fun i => blk (o + i) := by
    unfold deNameLength deNameLengthLo deTypeByte
    rw [hfield 6 1 (by decide), hfield 7 1 (by decide)]
  have htype : deTypeByte (fun i => blk' (o + i)) = deTypeByte fun i => blk (o + i) :=
    hfield 7 1 (by decide)
  unfold entryAt at h ⊢
  simp only [hinode, hlen, htype, DirEntry.mk.injEq, true_and]
  by_cases hdead : deInodeNum (fun i => blk (o + i)) = 0
  · rw [if_pos hdead, if_pos hdead]
  · rw [if_neg hdead, if_neg hdead]
    refine List.map_congr_left fun i hi => h (direntSzWoName + i) ?_
    simp only [if_neg hdead, List.length_map, List.length_range]
    have := List.mem_range.mp hi
    omega

theorem BlockEntries.congr {sb : Superblock} {blk blk' : Bytes}
    (h : ∀ i < sb.blockSize, blk' i = blk i) {o : Nat} {entries : List DirEntry}
    (hblk : BlockEntries sb blk o entries) : BlockEntries sb blk' o entries := by
  induction hblk with
  | done => exact .done
  | @entry o entries hlt hsz hname hrest ih =>
      have hle := hrest.le
      have hentry : entryAt sb blk' o = entryAt sb blk o :=
        entryAt_congr fun i hi => h _ (by omega)
      have hentrySz : entrySzAt blk' o = entrySzAt blk o := by
        have h8 : 8 ≤ direntSzWoName + (entryAt sb blk o).name.length := by
          unfold direntSzWoName
          omega
        exact @getLe_congr (fun i => blk (o + i)) (fun i => blk' (o + i)) 4 2 fun i hi =>
          h (o + (4 + i)) (by omega)
      rw [← hentry]
      refine .entry hlt ?_ ?_ ?_
      · rwa [hentry, hentrySz]
      · rwa [hentry]
      · rwa [hentrySz]

/-- A byte has none of the bits that stand for a type in the mode of an inode. -/
theorem typeExt22fsInode_typeByte (de : Bytes) : typeExt22fsInode (deTypeByte de) = 0 := by
  have hbyte : deTypeByte de < 256 := by
    unfold deTypeByte getLe getLe
    have := (de 7).isLt
    omega
  have hall : ∀ b < 256, typeExt22fsInode b = 0 := by decide +kernel
  exact hall _ hbyte

theorem dirIterNext_type (sb : Superblock) (d : Bytes) (it : DirIterator) (dent : Dirent) :
    (dirIterNext sb d it dent).2.2.type = 0 := by
  unfold dirIterNext
  simp only [typeExt22fsInode_typeByte]
  split <;> rfl

theorem not_matches_dirIterNext {sb : Superblock} {d : Bytes} {it : DirIterator} {dent : Dirent}
    {e : DirEntry} : ¬ (dirIterNext sb d it dent).2.2.Matches e := by
  intro h
  have hpos := h.1.1
  rw [dirIterNext_type] at hpos
  omega

theorem iterateDirNext_valid {sb : Superblock} {d : Bytes} {it : DirIterator}
    (h : it.isValid = true) : (iterateDirNext sb d it).1 = true := by
  unfold iterateDirNext
  rw [if_neg (by simp [h])]
  simp only
  split
  · split <;> rfl
  · rfl

section Run

variable {sb : Superblock} {d inode pbuf stack : Bytes} {frame : Nat → Bytes} {dent : Dirent}

theorem listLoop_invalid {it : DirIterator} (h : it.isValid = false) (fuel k : Nat) :
    listLoop sb d frame (fuel + 1) k it dent = some [] := by
  have hnext : (dirIterNext sb d { it with dir := frame k } dent).1 = false := by
    unfold dirIterNext iterateDirNext
    simp [h]
  unfold listLoop
  rw [if_pos hnext]

theorem not_matches_listLoop {it : DirIterator} (h : it.isValid = true) {fuel k : Nat}
    {out : List Dirent} (hrun : listLoop sb d frame fuel k it dent = some out)
    {live : List DirEntry} : ¬ List.Forall₂ Dirent.Matches out live := by
  cases fuel with
  | zero => cases hrun
  | succ fuel =>
      have hnext : (dirIterNext sb d { it with dir := frame k } dent).1 = true :=
        iterateDirNext_valid h
      unfold listLoop at hrun
      rw [if_neg (by simp [hnext])] at hrun
      obtain ⟨rest, -, rfl⟩ := Option.map_eq_some_iff.mp hrun
      rintro (_ | ⟨hmatch, -⟩)
      exact not_matches_dirIterNext hmatch

theorem WellFormedDir.start_valid_iff {blocks : List (List DirEntry)}
    (hwf : WellFormedDir sb d inode blocks) :
    (iterateDirStart sb d inode pbuf stack).isValid = true ↔ blocks ≠ [] := by
  unfold iterateDirStart
  cases blocks with
  | nil =>
      have := hwf.ended pbuf
      simpa using this
  | cons block blocks =>
      have := (hwf.read 0 (by simp) pbuf).1
      simpa using this

/-- The live entries of a directory are listed exactly when it has no block. -/
theorem lists_iff {blocks : List (List DirEntry)} (hwf : WellFormedDir sb d inode blocks) :
    Lists sb d inode pbuf stack frame dent (liveEntries blocks) ↔ blocks = [] := by
  by_cases hblocks : blocks = []
  · have hinvalid : (iterateDirStart sb d inode pbuf stack).isValid = false := by
      have := @WellFormedDir.start_valid_iff sb d inode pbuf stack blocks hwf
      simpa [hblocks] using this
    refine iff_of_true ⟨[], ⟨1, fun fuel hfuel => ?_⟩, ?_⟩ hblocks
    · obtain ⟨fuel, rfl⟩ : ∃ f, fuel = f + 1 := ⟨fuel - 1, by omega⟩
      exact listLoop_invalid hinvalid fuel 0
    · rw [hblocks]
      exact List.Forall₂.nil
  · refine iff_of_false ?_ hblocks
    rintro ⟨out, ⟨n, hn⟩, hmatch⟩
    exact not_matches_listLoop (hwf.start_valid_iff.mpr hblocks) (hn n (le_refl n)) hmatch

end Run

/-- `BlockEntries`, read off the block. -/
def readEntries (sb : Superblock) (blk : Bytes) : Nat → Nat → Option (List DirEntry)
  | 0, _ => none
  | fuel + 1, o =>
      let e := entryAt sb blk o
      if o = sb.blockSize then some []
      else if o < sb.blockSize ∧ direntSzWoName + e.name.length ≤ entrySzAt blk o ∧
          e.name.all (· != 0) then
        (readEntries sb blk fuel (o + entrySzAt blk o)).map fun es => e :: es
      else none

theorem BlockEntries.of_readEntries {sb : Superblock} {blk : Bytes} {fuel o : Nat}
    {entries : List DirEntry} (h : readEntries sb blk fuel o = some entries) :
    BlockEntries sb blk o entries := by
  induction fuel generalizing o entries with
  | zero => cases h
  | succ fuel ih =>
      rw [readEntries] at h
      split at h
      · rename_i hend
        obtain rfl := Option.some.inj h
        exact hend ▸ .done
      · split at h
        · rename_i hentry
          obtain ⟨es, hrest, rfl⟩ := Option.map_eq_some_iff.mp h
          exact .entry hentry.1 hentry.2.1 (by simpa using hentry.2.2) (ih hrest)
        · cases h

/-- A directory whose few blocks all have direct pointers. -/
theorem WellFormedDir.of_direct {sb : Superblock} {d inode : Bytes} {blocks : List (List DirEntry)}
    (hwhole : sb.blockSectors * ataSectorSize = sb.blockSize) (hfew : blocks.length < 12)
    (hptr : ∀ k < blocks.length, dbp inode k ≠ 0) (hend : dbp inode blocks.length = 0)
    (hblocks : ∀ k (hk : k < blocks.length), BlockEntries sb
      (fun i => d (u32 (dbp inode k * sb.blockSectors) * ataSectorSize + i)) 0 blocks[k])
    (htyped : ∀ e ∈ blocks.flatten, e.inodeNum ≠ 0 →
      ∃ type, 1 ≤ type ∧ type ≤ 7 ∧ typeFs2ext2Typebyte type = e.typeByte) :
    WellFormedDir sb d inode blocks := by
  refine ⟨fun k hk buf => ?_, fun buf => ?_, htyped⟩
  · have hdirect : readInodeData sb d inode k buf = (true, readBlock sb d (dbp inode k) buf) := by
      simp [readInodeData, getInodePointer, show k < 12 by omega, hptr k hk]
    rw [hdirect]
    refine ⟨rfl, (hblocks k hk).congr fun i hi => ?_⟩
    exact if_pos ⟨Nat.zero_le i, by omega⟩
  · simp [readInodeData, getInodePointer, hfew, hend]

/-- A directory of one block, at block 10, that one entry fills. -/
def oneEntryDisk : Bytes :=
  setLe (setLe (setLe (setLe (setLe (fun _ => 0) 10240 4 12) 10244 2 1024) 10246 1 1) 10247 1 1)
    10248 1 97

def oneEntrySb : Superblock where
  blocksTotal := 100
  blockLogsz := 0
  blocksPerGroup := 100
  inodesPerGroup := 100
  inodeSize := 128
  reqFeatures := 2
  blocksTotal_lt := by decide

def oneEntryInode : Bytes := setDbp (fun _ => 0) 0 10

theorem wellFormedDir_oneEntry :
    WellFormedDir oneEntrySb oneEntryDisk oneEntryInode [[⟨12, 1, [97]⟩]] := by
  have hfirst : dbp oneEntryInode 0 = 10 := by decide +kernel
  have hsecond : dbp oneEntryInode 1 = 0 := by decide +kernel
  have hread : readEntries oneEntrySb (fun i => oneEntryDisk (u32 (10 * oneEntrySb.blockSectors) *
      ataSectorSize + i)) 2 0 = some [⟨12, 1, [97]⟩] := by decide +kernel
  refine .of_direct (by decide +kernel) (by decide) (fun k hk => ?_) hsecond (fun k hk => ?_) ?_
  · obtain rfl : k = 0 := by simpa using hk
    rw [hfirst]
    decide
  · obtain rfl : k = 0 := by simpa using hk
    rw [hfirst]
    exact .of_readEntries hread
  · intro e he _
    obtain rfl : e = ⟨12, 1, [97]⟩ := by simpa using he
    exact ⟨1, by decide, by decide, rfl⟩

/-- A file is listed without its type, even where the inode is still found. -/
theorem not_lists_oneEntry :
    ¬ Lists oneEntrySb oneEntryDisk oneEntryInode (fun _ => 0) (fun _ => 0)
      (fun _ => oneEntryInode) ⟨16, fun _ => 0, 0⟩ (liveEntries [[⟨12, 1, [97]⟩]]) := by
  rintro ⟨out, ⟨n, hn⟩, hmatch⟩
  exact not_matches_listLoop (wellFormedDir_oneEntry.start_valid_iff.mpr (by simp))
    (hn n (le_refl n)) hmatch

/-- Two blocks with the live entries `a`, `bc` and `e` and a dead one. -/
def fourEntryDisk : Bytes :=
  [(10240, 4, 12), (10244, 2, 16), (10246, 1, 1), (10247, 1, 1), (10248, 1, 97), (10260, 2, 1008),
    (11264, 4, 13), (11268, 2, 512), (11270, 1, 2), (11271, 1, 2), (11272, 1, 98), (11273, 1, 99),
    (11776, 4, 14), (11780, 2, 512), (11782, 1, 1), (11783, 1, 1), (11784, 1, 101)].foldl
      (fun d w => setLe d w.1 w.2.1 w.2.2) fun _ => 0

def fourEntryInode : Bytes := setDbp (setDbp (fun _ => 0) 0 10) 1 11

def fourEntries : List (List DirEntry) :=
  [[⟨12, 1, [97]⟩, ⟨0, 0, []⟩], [⟨13, 2, [98, 99]⟩, ⟨14, 1, [101]⟩]]

theorem wellFormedDir_fourEntries :
    WellFormedDir oneEntrySb fourEntryDisk fourEntryInode fourEntries := by
  have hfirst : dbp fourEntryInode 0 = 10 := by decide +kernel
  have hsecond : dbp fourEntryInode 1 = 11 := by decide +kernel
  have hthird : dbp fourEntryInode 2 = 0 := by decide +kernel
  have hread : ∀ k (hk : k < fourEntries.length), readEntries oneEntrySb
      (fun i => fourEntryDisk (u32 ((10 + k) * oneEntrySb.blockSectors) * ataSectorSize + i)) 4 0 =
        some fourEntries[k] := by decide +kernel
  refine .of_direct (by decide +kernel) (by decide) (fun k hk => ?_) hthird (fun k hk => ?_) ?_
  · match k, hk with
    | 0, _ => rw [hfirst]; decide
    | 1, _ => rw [hsecond]; decide
  · match k, hk with
    | 0, hk => rw [hfirst]; exact .of_readEntries (hread 0 hk)
    | 1, hk => rw [hsecond]; exact .of_readEntries (hread 1 hk)
  · intro e he hlive
    have htypes : ∀ e ∈ fourEntries.flatten, e.inodeNum ≠ 0 → e.typeByte = 1 ∨ e.typeByte = 2 := by
      decide
    rcases htypes e he hlive with htype | htype
    · exact ⟨1, by decide, by decide, htype.symm⟩
    · exact ⟨2, by decide, by decide, htype.symm⟩

/-- A directory of four entries is not listed, one without blocks is. -/
theorem lists_iff_fourEntries :
    (Lists oneEntrySb fourEntryDisk fourEntryInode (fun _ => 0) (fun _ => 0)
      (fun _ => fourEntryInode) ⟨16, fun _ => 0, 0⟩ (liveEntries fourEntries) ↔
        fourEntries = []) ∧
    (Lists oneEntrySb oneEntryDisk (fun _ => 0) (fun _ => 0) (fun _ => 0) (fun _ _ => 0)
      ⟨16, fun _ => 0, 0⟩ (liveEntries []) ↔ ([] : List (List DirEntry)) = []) := by
  have hempty : dbp (fun _ => 0#8) 0 = 0 := getLe_zero fun _ _ => rfl
  exact ⟨lists_iff wellFormedDir_fourEntries, lists_iff
    (.of_direct (by decide +kernel) (by simp) (by simp) hempty (by simp) (by simp))⟩

end UntitledOs.Fs
