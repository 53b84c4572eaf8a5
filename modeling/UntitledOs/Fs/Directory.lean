import UntitledOs.Fs.Ext2

/-!
# Directories and file writes of the ext2 driver

The directory iterator, the insertion of an entry and the write loop, as
`ext2.c` computes them.
-/

namespace UntitledOs.Fs

open UntitledOs.Lib

section Entry

/-! A directory entry in memory: `fs_ext2_dirent`, packed. -/

/-- `DIRENT_SZ_WO_NAME`. -/
def direntSzWoName : Nat := 8

def deInodeNum (de : Bytes) : Nat := getLe de 0 4

def deEntrySz (de : Bytes) : Nat := getLe de 4 2

def deNameLengthLo (de : Bytes) : Nat := getLe de 6 1

/-- The byte `type_byte` shares with `name_length_hi`. -/
def deTypeByte (de : Bytes) : Nat := getLe de 7 1

def setDeInodeNum (de : Bytes) (v : Nat) : Bytes := setLe de 0 4 v

def setDeEntrySz (de : Bytes) (v : Nat) : Bytes := setLe de 4 2 v

def setDeTypeByte (de : Bytes) (v : Nat) : Bytes := setLe de 7 1 v

/-- `FS_EXT2_SB_RWFEATURE_DIRS_HAVE_TYPE_FIELD` is set. -/
def Superblock.dirsHaveType (sb : Superblock) : Bool := sb.reqFeatures.testBit 1

/-- The length of the name of an entry. -/
def deNameLength (sb : Superblock) (de : Bytes) : Nat :=
  if sb.dirsHaveType then deNameLengthLo de else deNameLengthLo de + 256 * deTypeByte de

/-- `SET_DIRENT_NAMELN`: the length it leaves in its first argument, and the entry. -/
def setDirentNameln (sb : Superblock) (nameln : Nat) (de : Bytes) : Nat × Bytes :=
  if sb.dirsHaveType then (min nameln 255, setLe de 6 1 (min nameln 255))
  else (nameln, setLe (setLe de 6 1 (nameln % 256)) 7 1 (nameln / 256 % 256))

/-- `fs_ext2_type_fs2ext2_typebyte`. -/
def typeFs2ext2Typebyte : Nat → Nat
  | 1 => 1
  | 2 => 2
  | 3 => 7
  | 4 => 5
  | 5 => 3
  | 6 => 4
  | 7 => 6
  | _ => 0

end Entry

section Iterator

/-- `fs_ext2_dir_iterator`. -/
structure DirIterator where
  dir : Bytes
  byteaddr : Nat
  blki : Nat
  blkbuf : Bytes
  cur : Bytes
  isValid : Bool

/-- `fs_ext2_iterate_dir_start`; `cur` keeps what lay on the stack. -/
def iterateDirStart (sb : Superblock) (d inode pbuf stack : Bytes) : DirIterator :=
  let r := readInodeData sb d inode 0 pbuf
  { dir := inode
    byteaddr := 0
    blki := 0
    blkbuf := r.2
    cur := stack
    isValid := r.1 }

/-- The entry at the iterator, copied to `cur`; a dead entry keeps the name of the last one.
The closing zero of a name of 256 bytes falls on `is_valid`. -/
def loadEntry (sb : Superblock) (it : DirIterator) : DirIterator :=
  let cur := copyTo it.cur 0 (fun i => it.blkbuf (it.byteaddr + i)) direntSzWoName
  if deInodeNum cur = 0 then { it with cur := cur }
  else
    let nameBcpy := min (deNameLength sb cur) 256
    let cur := copyTo cur direntSzWoName (fun i => it.blkbuf (it.byteaddr + direntSzWoName + i))
      nameBcpy
    { it with
      cur := setByte cur (direntSzWoName + nameBcpy) 0
      isValid := decide (nameBcpy ≠ 256) }

/-- `fs_ext2_iterate_dir_next`. -/
def iterateDirNext (sb : Superblock) (d : Bytes) (it : DirIterator) : Bool × DirIterator :=
  if it.isValid = false then (false, it)
  else
    let it := loadEntry sb it
    let byteaddr := u32 (it.byteaddr + deEntrySz it.cur)
    if sb.blockSize ≤ byteaddr then
      let r := readInodeData sb d it.dir (u32 (it.blki + 1)) it.blkbuf
      if r.1 then (true, { it with
        blki := u32 (it.blki + 1)
        blkbuf := r.2
        byteaddr := 0 })
      else (true, { it with
        blkbuf := r.2
        byteaddr := byteaddr - deEntrySz it.cur
        isValid := false })
    else (true, { it with byteaddr := byteaddr })

end Iterator

section Insert

/-- `memcpy(buf + off - back, src, n)`; what lies before `buf` is not kept. -/
def copyBehind (buf : Bytes) (off back : Nat) (src : Bytes) (n : Nat) : Bytes := fun i =>
  if off ≤ i + back ∧ i + back < off + n then src (i + back - off) else buf i

/-- A name as `strlen` and `memcpy` see it. -/
def nameBytes (name : List Byte) : Bytes := fun i => name.getD i 0

/-- The first `DIRENT_SZ_WO_NAME` bytes of an entry for `inodeNum`, over what `de` held. -/
def formDirent (sb : Superblock) (de : Bytes) (inodeNum type : Nat) (name : List Byte) :
    Nat × Bytes :=
  setDirentNameln sb (name.length % 2 ^ 16)
    (setDeTypeByte (setDeInodeNum de inodeNum) (typeFs2ext2Typebyte type))

/-- An entry reused: `it` stands behind it. -/
def reuseEntry (sb : Superblock) (it : DirIterator) (deInode type : Nat) (name : List Byte) :
    Bytes :=
  let r := formDirent sb it.cur deInode type name
  let buf := copyBehind it.blkbuf it.byteaddr (deEntrySz r.2) r.2 direntSzWoName
  copyBehind buf (it.byteaddr + direntSzWoName) (deEntrySz r.2) (nameBytes name) r.1

/-- `shrink_size`: what an entry with a name of `nameln` bytes needs. -/
def shrinkSize (nameln : Nat) : Nat :=
  let shrink := (direntSzWoName + nameln) % 2 ^ 16
  (shrink + (4 - shrink % 4)) % 2 ^ 16

/-- `gap`, a `size_t`: negative differences become huge. -/
def entryGap (sb : Superblock) (cur : Bytes) : Nat :=
  (deEntrySz cur + 2 ^ 64 - shrinkSize (deNameLength sb cur)) % 2 ^ 64

/-- An entry split: it shrinks and the new one takes the gap. -/
def splitEntry (sb : Superblock) (stack : Bytes) (it : DirIterator) (deInode type : Nat)
    (name : List Byte) : Bytes :=
  let gap := entryGap sb it.cur
  let nameln := deNameLength sb it.cur
  let prevesz := deEntrySz it.cur
  let cur := setDeEntrySz it.cur (shrinkSize nameln)
  let deAddr := if it.byteaddr < prevesz then it.byteaddr else it.byteaddr - prevesz
  let buf := copyTo it.blkbuf deAddr cur direntSzWoName
  let buf := copyTo buf (deAddr + direntSzWoName) (fun i => cur (direntSzWoName + i)) nameln
  let r := formDirent sb stack deInode type name
  let deIn := setDeEntrySz r.2 (gap % 2 ^ 16)
  let deAddr := u32 (deAddr + deEntrySz cur)
  let buf := copyTo buf deAddr deIn direntSzWoName
  copyTo buf (deAddr + direntSzWoName) (nameBytes name) r.1

/-- The loop of `fs_ext2_occupy_vacant_dirent`: the medium after an entry was placed, or the
iterator at the end of the directory. -/
def occupyLoop (g : Gdata) (d stack dir : Bytes) (deInode type : Nat) (name : List Byte) :
    Nat → DirIterator → Option (Bytes ⊕ DirIterator)
  | 0, _ => none
  | fuel + 1, it =>
      let r := iterateDirNext g.sb d it
      let it := r.2
      if r.1 = false then some (.inr it)
      else if deInodeNum it.cur = 0 ∧ direntSzWoName + name.length ≤ deEntrySz it.cur then
        some (.inl (writeInodeData g.sb d dir it.blki (reuseEntry g.sb it deInode type name)).1)
      else if direntSzWoName + name.length ≤ entryGap g.sb it.cur then
        some (.inl
          (writeInodeData g.sb d dir it.blki (splitEntry g.sb stack it deInode type name)).1)
      else occupyLoop g d stack dir deInode type name fuel it

/-- What follows the loop: a block is found, marked and put where `it.blki` points, and the entry
is written over its beginning. -/
def appendBlock (g : Gdata) (d heap dir : Bytes) (dirNum deInode type : Nat) (name : List Byte)
    (it : DirIterator) : Bool × Bytes × Bytes :=
  let r := getInodePointer g.sb d dir it.blki it.blkbuf
  let newBlk := findUnallocBlock g d heap (r.1 / g.sb.blocksPerGroup)
  if newBlk = 0 then (false, dir, d)
  else
    let d := markAllocBlock g d heap newBlk
    let w := writeInodeBlockPointer g d heap dir dirNum it.blki newBlk
    let dir := addInodeSize w.2.1 g.sb.blockSize
    let d := writeInode g w.2.2 heap dirNum dir
    let first := setDeTypeByte (setDeInodeNum r.2 deInode) (typeFs2ext2Typebyte type)
    let first := setDeEntrySz first (g.sb.blockSize % 2 ^ 16)
    let first := (setDirentNameln g.sb (name.length % 2 ^ 16) first).2
    let buf := copyTo first direntSzWoName (nameBytes name) name.length
    (true, dir, (writeInodeData g.sb d dir it.blki buf).1)

/-- `fs_ext2_occupy_vacant_dirent`: its return value, the inode of the directory and the
medium. -/
def occupyVacantDirent (g : Gdata) (fuel : Nat) (d heap stack dir : Bytes)
    (dirNum deInode type : Nat) (name : List Byte) : Option (Bool × Bytes × Bytes) :=
  (occupyLoop g d stack dir deInode type name fuel (iterateDirStart g.sb d dir heap stack)).map
    fun
    | .inl d => (true, dir, d)
    | .inr it => appendBlock g d heap dir dirNum deInode type name it

end Insert

section Write

/-- The fields of `gfs_ext2_fd` that a write uses. -/
structure Fd where
  inodeNum : Nat
  inode : Bytes
  blkbuf : Bytes
  blki : Nat
  byteaddr : Nat
  isBlkValid : Bool

/-- The size of the file grows by `n`, in memory and in the table. -/
def growFile (g : Gdata) (d heap : Bytes) (fd : Fd) (n : Nat) : Fd × Bytes :=
  let inode := addInodeSize fd.inode n
  ({ fd with inode := inode }, writeInode g d heap fd.inodeNum inode)

/-- A block for an invalid block pointer; `none` when no space is left. -/
def allocDataBlock (g : Gdata) (d heap : Bytes) (fd : Fd) : Option (Fd × Bytes) :=
  let newPtr := findUnallocBlock g d heap (pred32 fd.inodeNum / g.sb.inodesPerGroup)
  if newPtr = noBlock then none
  else
    let d := markAllocBlock g d heap newPtr
    let w := writeInodeBlockPointer g d heap fd.inode fd.inodeNum fd.blki newPtr
    some ({ fd with
      inode := w.2.1
      isBlkValid := true }, w.2.2)

/-- A full buffer is flushed and the next block read; the flag tells if there is one. -/
def nextDataBlock (g : Gdata) (d : Bytes) (fd : Fd) : Bool × Fd × Bytes :=
  if fd.byteaddr = g.sb.blockSize then
    let w := writeInodeData g.sb d fd.inode fd.blki fd.blkbuf
    let r := readInodeData g.sb w.1 fd.inode (u32 (fd.blki + 1)) w.2
    (r.1, { fd with
      blkbuf := r.2
      blki := u32 (fd.blki + 1)
      byteaddr := 0
      isBlkValid := if r.1 then fd.isBlkValid else false }, w.1)
  else (true, fd, d)

/-- `fs_ext2_write` with `left` of `count` bytes still to copy from `buf`: its return value, the
descriptor and the medium. -/
def writeLoop (g : Gdata) (heap : Bytes) (count : Nat) :
    Nat → Bytes → Fd → Bytes → Nat → Option (Nat × Fd × Bytes)
  | 0, _, _, _, _ => none
  | fuel + 1, d, fd, buf, left =>
      if left = 0 then
        let w := writeInodeData g.sb d fd.inode fd.blki fd.blkbuf
        some (count, growFile g w.1 heap { fd with blkbuf := w.2 } count)
      else
        match if fd.isBlkValid then some (fd, d) else allocDataBlock g d heap fd with
        | none => some (count - left, growFile g d heap fd (count - left))
        | some s =>
            let n := nextDataBlock g s.2 s.1
            let fd := n.2.1
            let d := n.2.2
            if n.1 = false then writeLoop g heap count fuel d fd buf left
            else
              let tocopy := min left (g.sb.blockSize - fd.byteaddr)
              writeLoop g heap count fuel d { fd with
                blkbuf := copyTo fd.blkbuf fd.byteaddr buf tocopy
                byteaddr := fd.byteaddr + tocopy } (fun i => buf (tocopy + i)) (left - tocopy)

/-- `fs_ext2_write`. -/
def write (g : Gdata) (fuel : Nat) (d heap : Bytes) (fd : Fd) (buf : Bytes) (count : Nat) :
    Option (Nat × Fd × Bytes) :=
  writeLoop g heap count fuel d fd buf count

end Write

end UntitledOs.Fs
