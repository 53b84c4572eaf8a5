import UntitledOs.Fs.Release
import UntitledOs.Fs.Directory

/-!
# A file system without a free block

The search for a block signals failure with `(uint32_t)-1`.  The write loop tests
for it; the writer of the block map and the insertion into a directory test for
zero, and go on with block `(uint32_t)-1`.
-/

namespace UntitledOs.Fs

open UntitledOs.Lib

variable {g : Gdata} {d heap stack : Bytes}

/-- No group has a free block. -/
def DiskFull (g : Gdata) (d : Bytes) : Prop := ∀ bi < g.bt.length, GroupFull g d bi

theorem noBlock_ne_zero : noBlock ≠ 0 := by
  unfold noBlock
  norm_num

theorem DiskFull.find {start : Nat} (h : DiskFull g d) (hstart : start ≤ g.bt.length) :
    findUnallocBlock g d heap start = noBlock :=
  findUnallocBlock_full fun bi hbi => h bi (by omega)

/-- A pointer block on the way to logical block `bind` is missing. -/
def NeedsPointerBlock (sb : Superblock) (d inode : Bytes) (bind : Nat) : Prop :=
  let n := sb.dbpPerBlock
  if bind < 12 then False
  else if bind < 12 + n then sibp inode = 0
  else if bind < 12 + n + n * n then
    dibp inode = 0 ∨ diskWord sb d (dibp inode) ((bind - 12 - n) / n) = 0
  else
    let k := bind - 12 - n - n * n
    let baddr := diskWord sb d (tibp inode) (k / (n * n))
    tibp inode = 0 ∨ baddr = 0 ∨ diskWord sb d baddr (k / n % n) = 0

/-- An operation that may need a new block. -/
inductive Request where
  /-- `fs_ext2_write_inode_block_pointer`. -/
  | pointer (inode : Bytes) (inodeNum bind ptr : Nat)
  /-- `fs_ext2_occupy_vacant_dirent`. -/
  | dirent (dir : Bytes) (dirNum deInode type : Nat) (name : List Byte)
  /-- `fs_ext2_write`, with `left` of `count` bytes still to copy. -/
  | data (fd : Fd) (buf : Bytes) (left count : Nat)

/-- The loop of the insertion ends at `it` without a place for the entry. -/
def NoPlace (g : Gdata) (d heap stack dir : Bytes) (deInode type : Nat) (name : List Byte)
    (fuel : Nat) (it : DirIterator) : Prop :=
  occupyLoop g d stack dir deInode type name fuel (iterateDirStart g.sb d dir heap stack) =
    some (.inr it)

/-- The groups at which the request starts its searches are groups of the file system. -/
def Request.Valid (g : Gdata) (d heap stack : Bytes) : Request → Prop
  | .pointer _ inodeNum _ _ => pred32 inodeNum / g.sb.inodesPerGroup ≤ g.bt.length
  | .dirent dir _ deInode type name => ∀ fuel it, NoPlace g d heap stack dir deInode type name fuel it →
      (getInodePointer g.sb d dir it.blki it.blkbuf).1 / g.sb.blocksPerGroup ≤ g.bt.length
  | .data fd _ left count => pred32 fd.inodeNum / g.sb.inodesPerGroup ≤ g.bt.length ∧ left ≤ count

/-- The request needs a block that is not there. -/
def Request.Needs (g : Gdata) (d heap stack : Bytes) : Request → Prop
  | .pointer inode _ bind _ => NeedsPointerBlock g.sb d inode bind
  | .dirent dir _ deInode type name => ∃ fuel it, NoPlace g d heap stack dir deInode type name fuel it
  | .data fd _ left _ => left ≠ 0 ∧ fd.isBlkValid = false

/-- The pointers of two inodes in memory are the same. -/
def SamePointers (inode inode' : Bytes) : Prop := ∀ i, 40 ≤ i → i < 100 → inode' i = inode i

/-- The request fails, no bitmap bit is marked and no pointer stored: a write gives the count so
far and changes nothing on the medium outside the table block of its inode. -/
def Request.Reports (g : Gdata) (d heap stack : Bytes) : Request → Prop
  | .pointer inode inodeNum bind ptr =>
      writeInodeBlockPointer g d heap inode inodeNum bind ptr = (false, inode, d)
  | .dirent dir dirNum deInode type name => ∃ fuel,
      occupyVacantDirent g fuel d heap stack dir dirNum deInode type name = some (false, dir, d)
  | .data fd buf left count => ∃ fuel fd' d',
      writeLoop g heap count fuel d fd buf left = some (count - left, fd', d') ∧
      SamePointers fd.inode fd'.inode ∧
      ∀ i, i < blockStart g.sb (inodeTableBlock g fd.inodeNum) ∨
        blockStart g.sb (inodeTableBlock g fd.inodeNum) + g.sb.blockSize ≤ i → d' i = d i

def Request.IsData : Request → Prop
  | .data .. => True
  | _ => False

theorem tryAllocIbp_full (hfull : DiskFull g d) {inodeNum : Nat}
    (hvalid : pred32 inodeNum / g.sb.inodesPerGroup ≤ g.bt.length) (sibpAddr ptr : Nat)
    (buf : Bytes) : ∃ d', tryAllocIbp g d heap inodeNum sibpAddr ptr buf = (noBlock, true, d') := by
  unfold tryAllocIbp
  simp only [hfull.find hvalid]
  rw [if_neg noBlock_ne_zero]
  exact ⟨_, rfl⟩

/-- The writer of the block map never reports a full file system. -/
theorem writeInodeBlockPointer_full (hfull : DiskFull g d) {inodeNum : Nat}
    (hvalid : pred32 inodeNum / g.sb.inodesPerGroup ≤ g.bt.length) (inode : Bytes)
    (bind ptr : Nat) :
    ∃ inode' d', writeInodeBlockPointer g d heap inode inodeNum bind ptr = (true, inode', d') := by
  have htry := fun sibpAddr buf =>
    @tryAllocIbp_full _ _ heap hfull _ hvalid sibpAddr ptr buf
  simp only [writeInodeBlockPointer]
  split
  · exact ⟨_, _, rfl⟩
  split
  · split
    · obtain ⟨d', h⟩ := htry (bind - 12) heap
      rw [h]
      exact ⟨_, _, rfl⟩
    · exact ⟨_, _, rfl⟩
  split
  · split
    · obtain ⟨d', h⟩ := htry ((bind - 12 - g.sb.dbpPerBlock) % g.sb.dbpPerBlock) heap
      rw [h]
      exact ⟨_, _, rfl⟩
    · exact ⟨_, _, rfl⟩
  · split
    · obtain ⟨d', h⟩ := htry ((bind - 12 - g.sb.dbpPerBlock - g.sb.dbpPerBlock * g.sb.dbpPerBlock) %
        g.sb.dbpPerBlock) heap
      rw [h]
      exact ⟨_, _, rfl⟩
    · exact ⟨_, _, rfl⟩

theorem appendBlock_full (hfull : DiskFull g d) {dir : Bytes} {it : DirIterator}
    (hvalid : (getInodePointer g.sb d dir it.blki it.blkbuf).1 / g.sb.blocksPerGroup ≤
      g.bt.length) (dirNum deInode type : Nat) (name : List Byte) :
    ∃ dir' d', appendBlock g d heap dir dirNum deInode type name it = (true, dir', d') := by
  unfold appendBlock
  simp only [hfull.find hvalid]
  rw [if_neg noBlock_ne_zero]
  exact ⟨_, _, rfl⟩

/-- More fuel does not change where the scan of a directory ends. -/
theorem occupyLoop_mono {dir : Bytes} {deInode type : Nat} {name : List Byte} {fuel more : Nat}
    {it : DirIterator} {r : Bytes ⊕ DirIterator} (hle : fuel ≤ more)
    (h : occupyLoop g d stack dir deInode type name fuel it = some r) :
    occupyLoop g d stack dir deInode type name more it = some r := by
  induction fuel generalizing it more with
  | zero => simp [occupyLoop] at h
  | succ fuel ih =>
      obtain ⟨more, rfl⟩ : ∃ m, more = m + 1 := ⟨more - 1, by omega⟩
      simp only [occupyLoop] at h ⊢
      split at h
      · rename_i hend
        rwa [if_pos hend]
      rename_i hend
      rw [if_neg hend]
      split at h
      · rename_i hdead
        rwa [if_pos hdead]
      rename_i hdead
      rw [if_neg hdead]
      split at h
      · rename_i hgap
        rwa [if_pos hgap]
      rename_i hgap
      rw [if_neg hgap]
      exact ih (by omega) h

theorem samePointers_addInodeSize (inode : Bytes) (n : Nat) :
    SamePointers inode (addInodeSize inode n) := by
  intro i hlo hhi
  unfold addInodeSize setLe
  rw [copyTo_of_lt (by omega), copyTo_of_ge (by omega)]

theorem writeLoop_full (hfull : DiskFull g d) {fd : Fd}
    (hvalid : pred32 fd.inodeNum / g.sb.inodesPerGroup ≤ g.bt.length) (hblk : fd.isBlkValid = false)
    (buf : Bytes) {left : Nat} (hleft : left ≠ 0) (count : Nat) :
    writeLoop g heap count 1 d fd buf left =
      some (count - left, growFile g d heap fd (count - left)) := by
  have hnone : allocDataBlock g d heap fd = none := by
    unfold allocDataBlock
    simp only []
    rw [hfull.find hvalid, if_pos rfl]
  simp only [writeLoop]
  rw [if_neg hleft, if_neg (by simp [hblk]), hnone]

theorem fullMedium_diskFull : DiskFull (oneGroup 5) fullMedium := fun _ _ _ _ _ _ _ => rfl

/-- An empty file that gets a pointer for its logical block 13. -/
def emptyFileRequest : Request := .pointer (fun _ => 0) 1 13 99

theorem emptyFileRequest_valid :
    emptyFileRequest.Valid (oneGroup 5) fullMedium fullMedium fullMedium :=
  show pred32 1 / 8 ≤ 1 by decide

theorem emptyFileRequest_needs :
    emptyFileRequest.Needs (oneGroup 5) fullMedium fullMedium fullMedium := by
  have hwords : (oneGroup 5).sb.dbpPerBlock = 256 := show u32 (1024 * 2 ^ 0) / 4 = 256 by decide
  simp only [emptyFileRequest, Request.Needs, NeedsPointerBlock, hwords]
  rw [if_neg (by decide), if_pos (by decide)]
  decide

end UntitledOs.Fs
