import UntitledOs.Fs.Release

/-!
# The block map of an inode

What a write of one pointer does to the pointers that the reader finds.  A direct
pointer is written to the inode; the word of a pointer block is written through
a buffer of one sector with the index of its byte.
-/

namespace UntitledOs.Fs

open UntitledOs.Lib

variable {g : Gdata} {sb : Superblock} {d d' inode inode' : Bytes}

/-- The blocks that `fs_ext2_get_inode_pointer` reads on its way. -/
def walkBlocks (sb : Superblock) (d inode : Bytes) (bind : Nat) (buf : Bytes) : List Nat :=
  let n := sb.dbpPerBlock
  if bind < 12 then []
  else if bind < 12 + n then if sibp inode = 0 then [] else [sibp inode]
  else if bind < 12 + n + n * n then
    if dibp inode = 0 then []
    else
      let baddr := word (readBlock sb d (dibp inode) buf) ((bind - 12 - n) / n)
      dibp inode :: if baddr = 0 then [] else [baddr]
  else
    if tibp inode = 0 then []
    else
      let buf := readBlock sb d (tibp inode) buf
      let baddr := word buf ((bind - 12 - n - n * n) / n * n)
      tibp inode :: if baddr = 0 then []
        else
          let buf := readBlock sb d baddr buf
          let baddr₂ := word buf ((bind - 12 - n - n * n) / n)
          baddr :: if baddr₂ = 0 then [] else [baddr₂]

/-- The reader depends on the pointers of the inode and on the blocks of its walk. -/
theorem getInodePointer_congr {bind : Nat} {buf : Bytes}
    (hdbp : bind < 12 → dbp inode' bind = dbp inode bind) (hsibp : sibp inode' = sibp inode)
    (hdibp : dibp inode' = dibp inode) (htibp : tibp inode' = tibp inode)
    (hread : ∀ p ∈ walkBlocks sb d inode bind buf, ∀ b, readBlock sb d' p b = readBlock sb d p b) :
    getInodePointer sb d' inode' bind buf = getInodePointer sb d inode bind buf := by
  simp only [walkBlocks] at hread
  simp only [getInodePointer, hsibp, hdibp, htibp]
  split
  · rename_i hbind
    rw [hdbp hbind]
  rename_i hbind
  rw [if_neg hbind] at hread
  split
  · rename_i hlevel
    rw [if_pos hlevel] at hread
    split
    · rfl
    · rename_i hptr
      rw [if_neg hptr] at hread
      rw [hread _ (by simp)]
  rename_i hlevel
  rw [if_neg hlevel] at hread
  split
  · rename_i hlevel₂
    rw [if_pos hlevel₂] at hread
    split
    · rfl
    rename_i hptr
    rw [if_neg hptr] at hread
    rw [hread _ List.mem_cons_self]
    split
    · rfl
    · rename_i hword
      rw [if_neg hword] at hread
      rw [hread _ (by simp)]
  · rename_i hlevel₂
    rw [if_neg hlevel₂] at hread
    split
    · rfl
    rename_i hptr
    rw [if_neg hptr] at hread
    rw [hread _ List.mem_cons_self]
    split
    · rfl
    rename_i hword
    rw [if_neg hword] at hread
    rw [hread _ (by simp)]
    split
    · rfl
    · rename_i hword₂
      rw [if_neg hword₂] at hread
      rw [hread _ (by simp)]

/-- Byte `i` of the medium belongs to block `b`. -/
def InBlock (sb : Superblock) (b i : Nat) : Prop :=
  blockStart sb b ≤ i ∧ i < blockStart sb b + sb.blockSize

/-- The bytes a write of the block map may change: the table block of the inode, the block
bitmaps and the pointer blocks of the inode. -/
def MapBytes (g : Gdata) (d inode : Bytes) (inodeNum i : Nat) : Prop :=
  InBlock g.sb (inodeTableBlock g inodeNum) i ∨
  (∃ bi < g.bt.length, ∃ b, (g.bt.groups bi).blockBitmapAddr ≤ b ∧
    b < (g.bt.groups bi).inodeBitmapAddr ∧ InBlock g.sb b i) ∨
  ∃ p, PointerBlock g.sb d inode p ∧ InBlock g.sb p i

/-- After a successful write of pointer `bind` the reader finds `ptr` there and every other
pointer as before, and only the bytes of the map changed. -/
def MapUpdated (g : Gdata) (d heap inode : Bytes) (inodeNum bind ptr : Nat) (buf : Bytes) : Prop :=
  let r := writeInodeBlockPointer g d heap inode inodeNum bind ptr
  r.1 = true →
    (getInodePointer g.sb r.2.2 r.2.1 bind buf).1 = ptr ∧
    (∀ b, b ≠ bind → (getInodePointer g.sb r.2.2 r.2.1 b buf).1 =
      (getInodePointer g.sb d inode b buf).1) ∧
    ∀ i, ¬ MapBytes g r.2.2 r.2.1 inodeNum i → r.2.2 i = d i

/-- The walks of the block map do not read the table block of the inode. -/
def WalksApart (g : Gdata) (d inode : Bytes) (inodeNum : Nat) (buf : Bytes) : Prop :=
  ∀ bind, ∀ p ∈ walkBlocks g.sb d inode bind buf, ∀ i, InBlock g.sb p i →
    ¬ InBlock g.sb (inodeTableBlock g inodeNum) i

theorem readBlock_congr {p : Nat} (h : ∀ i, InBlock sb p i → d' i = d i) (b : Bytes) :
    readBlock sb d' p b = readBlock sb d p b := by
  have hlen := blockSectors_mul sb
  funext i
  unfold readBlock ataRead copyTo
  split
  · rename_i hi
    exact h _ ⟨by unfold blockStart; omega, by unfold blockStart; omega⟩
  · rfl

section Examples

/-- A file whose singly indirect block is block 20. -/
def indirectFile : Bytes := setSibp (fun _ => 0) 20

theorem indirectFile_walksApart :
    WalksApart (oneGroup 5) blankMedium indirectFile 1 blankMedium := by
  intro bind p hp i hi
  have hp20 : p = 20 := by
    simp only [walkBlocks] at hp
    rw [if_pos (show dibp indirectFile = 0 by decide),
      if_pos (show tibp indirectFile = 0 by decide)] at hp
    rw [show sibp indirectFile = 20 by decide] at hp
    simp at hp
    exact hp.2.2
  subst hp20
  rw [InBlock, show blockStart (oneGroup 5).sb 20 = 20480 by decide +kernel,
    show (oneGroup 5).sb.blockSize = 1024 by decide +kernel] at hi
  rw [InBlock, show blockStart (oneGroup 5).sb (inodeTableBlock (oneGroup 5) 1) = 5120 by
    decide +kernel, show (oneGroup 5).sb.blockSize = 1024 by decide +kernel]
  omega

end Examples

end UntitledOs.Fs
