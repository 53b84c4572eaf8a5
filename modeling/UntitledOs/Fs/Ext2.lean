import UntitledOs.Lib.Bytes
import UntitledOs.Lib.Fuel

/-!
# The ext2 driver, as `ext2.c` computes it

Block bitmaps, the block map of an inode and the inode table.  The drive is its
medium, a byte for every offset; the results of `read` and `write`, which the
driver never looks at, are left out.  A buffer is the memory from its first byte
on, so an access behind its end reaches the bytes that lie there.  An inode in
memory is its packed structure.  `uint32_t` arithmetic wraps with `u32`.
-/

namespace UntitledOs.Fs

open UntitledOs.Lib

def u32 (x : Nat) : Nat := x % 2 ^ 32

/-- `(uint32_t)-1`, the answer of a search that found nothing. -/
def noBlock : Nat := 2 ^ 32 - 1

def ataSectorSize : Nat := 512

/-- `drive->read(drive, lba, count, buf)`. -/
def ataRead (d : Bytes) (lba count : Nat) (buf : Bytes) : Bytes :=
  copyTo buf 0 (fun i => d (lba * ataSectorSize + i)) (count * ataSectorSize)

/-- `drive->write(drive, lba, count, buf)`. -/
def ataWrite (d : Bytes) (lba count : Nat) (buf : Bytes) : Bytes :=
  copyTo d (lba * ataSectorSize) buf (count * ataSectorSize)

/-- The fields of `fs_ext2_sb` that the functions below read. -/
structure Superblock where
  blocksTotal : Nat
  blockLogsz : Nat
  blocksPerGroup : Nat
  inodesPerGroup : Nat
  inodeSize : Nat
  reqFeatures : Nat
  blocksTotal_lt : blocksTotal < 2 ^ 32

/-- `fs_ext2_blkgrp`. -/
structure Blkgrp where
  blockBitmapAddr : Nat
  inodeBitmapAddr : Nat
  inodeTableAddr : Nat

/-- `fs_ext2_blkgrp_table`; `groups` also answers behind the end of the array. -/
structure BlkgrpTable where
  groups : Nat → Blkgrp
  length : Nat

/-- `gfs_ext2_gdata`. -/
structure Gdata where
  sb : Superblock
  bt : BlkgrpTable

/-- `FS_EXT2_SB_BLOCKSIZE`. -/
def Superblock.blockSize (sb : Superblock) : Nat := u32 (1024 * 2 ^ sb.blockLogsz)

/-- `FS_EXT2_SB_BLOCKSECTORS`. -/
def Superblock.blockSectors (sb : Superblock) : Nat := sb.blockSize / ataSectorSize

/-- `DBP_PER_BLOCK`. -/
def Superblock.dbpPerBlock (sb : Superblock) : Nat := sb.blockSize / 4

/-- A whole block read into `buf`. -/
def readBlock (sb : Superblock) (d : Bytes) (baddr : Nat) (buf : Bytes) : Bytes :=
  ataRead d (u32 (baddr * sb.blockSectors)) sb.blockSectors buf

def writeBlock (sb : Superblock) (d : Bytes) (baddr : Nat) (buf : Bytes) : Bytes :=
  ataWrite d (u32 (baddr * sb.blockSectors)) sb.blockSectors buf

/-- `((uint32_t*)buf)[i]`. -/
def word (buf : Bytes) (i : Nat) : Nat := getLe buf (4 * i) 4

def setWord (buf : Bytes) (i v : Nat) : Bytes := setLe buf (4 * i) 4 v

section Inode

/-! The fields of `fs_ext2_inode`, at their offsets in the packed structure. -/

def sizeLo (inode : Bytes) : Nat := getLe inode 4 4

def sizeHi (inode : Bytes) : Nat := getLe inode 108 4

def dbp (inode : Bytes) (i : Nat) : Nat := getLe inode (40 + 4 * i) 4

def sibp (inode : Bytes) : Nat := getLe inode 88 4

def dibp (inode : Bytes) : Nat := getLe inode 92 4

def tibp (inode : Bytes) : Nat := getLe inode 96 4

def setDbp (inode : Bytes) (i v : Nat) : Bytes := setLe inode (40 + 4 * i) 4 v

def setSibp (inode : Bytes) (v : Nat) : Bytes := setLe inode 88 4 v

def setDibp (inode : Bytes) (v : Nat) : Bytes := setLe inode 92 4 v

def setTibp (inode : Bytes) (v : Nat) : Bytes := setLe inode 96 4 v

/-- `FS_EXT2_INODE_GET_SIZE`. -/
def inodeSize (inode : Bytes) : Nat := sizeLo inode + 2 ^ 32 * sizeHi inode

/-- `FS_EXT2_INODE_SET_SIZE`. -/
def setInodeSize (inode : Bytes) (size : Nat) : Bytes :=
  setLe (setLe inode 4 4 (u32 size)) 108 4 (u32 (size / 2 ^ 32))

/-- `FS_EXT2_INODE_SET_SIZE(inode, FS_EXT2_INODE_GET_SIZE(inode) + n)`: the macro computes its
second argument again after it has stored the low half. -/
def addInodeSize (inode : Bytes) (n : Nat) : Bytes :=
  let inode := setLe inode 4 4 (u32 (inodeSize inode + n))
  setLe inode 108 4 (u32 ((inodeSize inode + n) % 2 ^ 64 / 2 ^ 32))

end Inode

section BlockMap

/-- `fs_ext2_get_inode_pointer`, with what it leaves in `buf`. -/
def getInodePointer (sb : Superblock) (d inode : Bytes) (bind : Nat) (buf : Bytes) : Nat × Bytes :=
  let n := sb.dbpPerBlock
  if bind < 12 then (dbp inode bind, buf)
  else if bind < 12 + n then
    if sibp inode = 0 then (0, buf)
    else
      let buf := readBlock sb d (sibp inode) buf
      (word buf (bind - 12), buf)
  else if bind < 12 + n + n * n then
    if dibp inode = 0 then (0, buf)
    else
      let buf := readBlock sb d (dibp inode) buf
      let baddr := word buf ((bind - 12 - n) / n)
      if baddr = 0 then (0, buf)
      else
        let buf := readBlock sb d baddr buf
        (word buf ((bind - 12 - n) % n), buf)
  else
    if tibp inode = 0 then (0, buf)
    else
      let buf := readBlock sb d (tibp inode) buf
      -- the source divides and multiplies from left to right
      let baddr := word buf ((bind - 12 - n - n * n) / n * n)
      if baddr = 0 then (0, buf)
      else
        let buf := readBlock sb d baddr buf
        let baddr := word buf ((bind - 12 - n - n * n) / n)
        if baddr = 0 then (0, buf)
        else
          let buf := readBlock sb d baddr buf
          (word buf ((bind - 12 - n - n * n) % n), buf)

/-- `fs_ext2_read_inode_data`. -/
def readInodeData (sb : Superblock) (d inode : Bytes) (bind : Nat) (bout : Bytes) : Bool × Bytes :=
  let r := getInodePointer sb d inode bind bout
  if r.1 = 0 then (false, r.2) else (true, readBlock sb d r.1 r.2)

/-- `fs_ext2_write_inode_data`: the pointer blocks on the way are read into `bin` itself. -/
def writeInodeData (sb : Superblock) (d inode : Bytes) (bind : Nat) (bin : Bytes) : Bytes × Bytes :=
  let r := getInodePointer sb d inode bind bin
  if r.1 = 0 then (d, r.2) else (writeBlock sb d r.1 r.2, r.2)

end BlockMap

section Bitmaps

/-- `while(b & 0x80) { b <<= 1; bsh++; }`, of a byte that is not all ones. -/
def leadingOnes : Nat → Byte → Nat
  | 0, _ => 0
  | n + 1, b => if b &&& 0x80#8 ≠ 0#8 then leadingOnes n (b <<< 1) + 1 else 0

/-- The scan of one bitmap block from byte `bind` on, `n` bytes before its end. -/
def scanBitmapBlock (buf : Bytes) : Nat → Nat → Option Nat
  | 0, _ => none
  | n + 1, bind =>
      if buf bind ≠ 255#8 then some (u32 (bind * 8 + leadingOnes 8 (buf bind)))
      else scanBitmapBlock buf n (bind + 1)

/-- The scan of `n` bitmap blocks from `bmb` on, whose address is a `size_t`. -/
def scanBitmap (sb : Superblock) (d : Bytes) : Nat → Nat → Bytes → Option Nat
  | 0, _, _ => none
  | n + 1, bmb, buf =>
      let buf := ataRead d (bmb * sb.blockSectors) sb.blockSectors buf
      match scanBitmapBlock buf sb.blockSize 0 with
      | some u => some u
      | none => scanBitmap sb d n (bmb + 1) buf

/-- `fs_ext2_find_grp_unalloc_block`. -/
def findGrpUnallocBlock (g : Gdata) (d : Bytes) (blkgrp : Nat) (heap : Bytes) : Nat :=
  let grp := g.bt.groups blkgrp
  (scanBitmap g.sb d (grp.inodeBitmapAddr - grp.blockBitmapAddr) grp.blockBitmapAddr heap).getD
    noBlock

/-- The first of `n` groups from `bi` on with a free block, and that block's index. -/
def findFrom (g : Gdata) (d heap : Bytes) : Nat → Nat → Option (Nat × Nat)
  | 0, _ => none
  | n + 1, bi =>
      let ubi := findGrpUnallocBlock g d bi heap
      if ubi ≠ noBlock then some (bi, ubi) else findFrom g d heap n (bi + 1)

/-- Where the inode table of a group ends. -/
def tableEnd (g : Gdata) (bi : Nat) : Nat :=
  (g.bt.groups bi).inodeTableAddr + u32 (g.sb.inodesPerGroup * g.sb.inodeSize) / g.sb.blockSize

/-- `fs_ext2_find_unalloc_block`.  The second search runs over the groups before `bi`, but
answers with the number of the group `bi`. -/
def findUnallocBlock (g : Gdata) (d heap : Bytes) (blkgrpStart : Nat) : Nat :=
  match findFrom g d heap (g.bt.length - blkgrpStart) blkgrpStart with
  | some (bi, ubi) => u32 (tableEnd g bi + bi * g.sb.blocksPerGroup + ubi)
  | none =>
      let bi := max blkgrpStart g.bt.length
      match findFrom g d heap bi 0 with
      | some (_, ubi) => u32 (tableEnd g bi + bi * g.sb.blocksPerGroup + ubi)
      | none => noBlock

/-- The sector of bit `tind` of the bitmap at block `addr`. -/
def bitmapSector (sb : Superblock) (addr tind : Nat) : Nat :=
  u32 (addr * sb.blockSectors + tind / 8 / ataSectorSize)

/-- The body of the four `fs_ext2_mark_*` functions: one sector of a bitmap is read, one of
its bytes edited with the mask of the bit, and the sector written back. -/
def editBitmap (sb : Superblock) (d heap : Bytes) (addr tind : Nat) (edit : Byte → Byte → Byte) :
    Bytes :=
  let bmpAddr := bitmapSector sb addr tind
  let buf := ataRead d bmpAddr 1 heap
  let bmpByte := tind / 8 % ataSectorSize
  ataWrite d bmpAddr 1 (setByte buf bmpByte (edit (buf bmpByte) (bitMask (tind % 8))))

/-- `block_num - 1` and `inode_num - 1` on `uint32_t`. -/
def pred32 (x : Nat) : Nat := u32 (x + 2 ^ 32 - 1)

/-- `fs_ext2_mark_alloc_block`. -/
def markAllocBlock (g : Gdata) (d heap : Bytes) (blockNum : Nat) : Bytes :=
  editBitmap g.sb d heap (g.bt.groups (blockNum / g.sb.blocksPerGroup)).blockBitmapAddr
    (blockNum % g.sb.blocksPerGroup) (fun b mask => b ||| mask)

/-- `fs_ext2_mark_unalloc_block`: unlike its sibling it counts the blocks from 1. -/
def markUnallocBlock (g : Gdata) (d heap : Bytes) (blockNum : Nat) : Bytes :=
  editBitmap g.sb d heap (g.bt.groups (pred32 blockNum / g.sb.blocksPerGroup)).blockBitmapAddr
    (pred32 blockNum % g.sb.blocksPerGroup) (fun b mask => b &&& ~~~mask)

/-- `fs_ext2_mark_unalloc_inode`. -/
def markUnallocInode (g : Gdata) (d heap : Bytes) (inodeNum : Nat) : Bytes :=
  editBitmap g.sb d heap (g.bt.groups (pred32 inodeNum / g.sb.inodesPerGroup)).inodeBitmapAddr
    (pred32 inodeNum % g.sb.inodesPerGroup) (fun b mask => b &&& ~~~mask)

end Bitmaps

section Write

/-- The block of the inode table that `inode_num` stands in. -/
def inodeTableBlock (g : Gdata) (inodeNum : Nat) : Nat :=
  let tind := pred32 inodeNum % g.sb.inodesPerGroup
  u32 ((g.bt.groups (pred32 inodeNum / g.sb.inodesPerGroup)).inodeTableAddr +
    u32 (tind * g.sb.inodeSize) / g.sb.blockSize)

/-- `fs_ext2_write_inode`.  The inode is copied to its offset in the whole table, also when
the buffer holds a later block of it. -/
def writeInode (g : Gdata) (d heap : Bytes) (inodeNum : Nat) (inode : Bytes) : Bytes :=
  let tind := pred32 inodeNum % g.sb.inodesPerGroup
  let buf := readBlock g.sb d (inodeTableBlock g inodeNum) heap
  writeBlock g.sb d (inodeTableBlock g inodeNum)
    (copyTo buf (u32 (g.sb.inodeSize * tind)) inode g.sb.inodeSize)

/-- The sector of word `i` of block `baddr`. -/
def wordSector (sb : Superblock) (baddr i : Nat) : Nat :=
  u32 (baddr * sb.blockSectors) + i * 4 / ataSectorSize

/-- `((uint32_t*)buf)[i * sizeof(uint32_t) % ATA_SECTOR_SIZE] = ptr`. -/
def setSectorWord (buf : Bytes) (i ptr : Nat) : Bytes := setWord buf (i * 4 % ataSectorSize) ptr

/-- What `TRY_ALLOC_IBP` does when `ibp` is zero: the new `ibp`, the return value of the
caller and the medium. -/
def tryAllocIbp (g : Gdata) (d heap : Bytes) (inodeNum sibpAddr ptr : Nat) (buf : Bytes) :
    Nat × Bool × Bytes :=
  let ibp := findUnallocBlock g d heap (pred32 inodeNum / g.sb.inodesPerGroup)
  if ibp = 0 then (ibp, false, d)
  else
    let d := markAllocBlock g d heap ibp
    let buf := setSectorWord (copyTo buf 0 (fun _ => 0) ataSectorSize) sibpAddr ptr
    (ibp, true, ataWrite d (wordSector g.sb ibp sibpAddr) ataSectorSize buf)

/-- The last level of the writer: the word for `sibpAddr` of block `baddr`, through
`ATA_SECTOR_SIZE` sectors. -/
def writeSectorWord (sb : Superblock) (d : Bytes) (baddr sibpAddr ptr : Nat) (buf : Bytes) :
    Bytes :=
  let lba := wordSector sb baddr sibpAddr
  ataWrite d lba ataSectorSize (setSectorWord (ataRead d lba ataSectorSize buf) sibpAddr ptr)

/-- `fs_ext2_write_inode_block_pointer`: its return value, the inode and the medium. -/
def writeInodeBlockPointer (g : Gdata) (d heap inode : Bytes) (inodeNum bind ptr : Nat) :
    Bool × Bytes × Bytes :=
  let n := g.sb.dbpPerBlock
  let buf := heap
  if bind < 12 then
    let inode := setDbp inode bind ptr
    (true, inode, writeInode g d heap inodeNum inode)
  else if bind < 12 + n then
    let sibpAddr := bind - 12
    if sibp inode = 0 then
      let r := tryAllocIbp g d heap inodeNum sibpAddr ptr buf
      (r.2.1, setSibp inode r.1, r.2.2)
    else (true, inode, writeSectorWord g.sb d (sibp inode) sibpAddr ptr buf)
  else if bind < 12 + n + n * n then
    let dibpAddr := (bind - 12 - n) / n
    let sibpAddr := (bind - 12 - n) % n
    if dibp inode = 0 then
      let r := tryAllocIbp g d heap inodeNum sibpAddr ptr buf
      (r.2.1, setDibp inode r.1, r.2.2)
    else
      let buf := readBlock g.sb d (dibp inode) buf
      (true, inode, writeSectorWord g.sb d (word buf dibpAddr) sibpAddr ptr buf)
  else
    let tibpAddr := (bind - 12 - n - n * n) / n * n
    let dibpAddr := (bind - 12 - n - n * n) / n
    let sibpAddr := (bind - 12 - n - n * n) % n
    if tibp inode = 0 then
      let r := tryAllocIbp g d heap inodeNum sibpAddr ptr buf
      (r.2.1, setTibp inode r.1, r.2.2)
    else
      let buf := readBlock g.sb d (tibp inode) buf
      let buf := readBlock g.sb d (word buf tibpAddr) buf
      (true, inode, writeSectorWord g.sb d (word buf dibpAddr) sibpAddr ptr buf)

end Write

section Release

/-- The loop of `fs_ext2_free_file` from logical block `blki` on. -/
def freeFileLoop (g : Gdata) (heap file : Bytes) : Nat → Nat → Bytes → Bytes → Option Bytes
  | 0, _, _, _ => none
  | fuel + 1, blki, buf, d =>
      let r := getInodePointer g.sb d file blki buf
      if r.1 = 0 then some d
      else freeFileLoop g heap file fuel (u32 (blki + 1)) r.2 (markUnallocBlock g d heap r.1)

/-- `fs_ext2_free_file`. -/
def freeFile (g : Gdata) (fuel : Nat) (d heap file : Bytes) (fileNum : Nat) : Option Bytes :=
  (freeFileLoop g heap file fuel 0 heap d).map fun d => markUnallocInode g d heap fileNum

/-- The loop of `fs_ext2_open` under `FS_OPEN_RECREATE`, which also zeroes the pointers. -/
def recreateLoop (g : Gdata) (heap : Bytes) (inodeNum : Nat) :
    Nat → Nat → Bytes → Bytes → Bytes → Option (Bytes × Bytes)
  | 0, _, _, _, _ => none
  | fuel + 1, blki, inode, buf, d =>
      let r := getInodePointer g.sb d inode blki buf
      if r.1 = 0 then some (inode, d)
      else
        let w := writeInodeBlockPointer g d heap inode inodeNum blki 0
        recreateLoop g heap inodeNum fuel (u32 (blki + 1)) w.2.1 r.2
          (markUnallocBlock g w.2.2 heap r.1)

/-- What `fs_ext2_open` does with `FS_OPEN_WRITE|FS_OPEN_RECREATE` to the inode it found. -/
def openRecreate (g : Gdata) (fuel : Nat) (d heap inode : Bytes) (inodeNum : Nat) :
    Option (Bytes × Bytes) :=
  (recreateLoop g heap inodeNum fuel 0 inode heap d).map fun r =>
    let inode := setInodeSize r.1 0
    (inode, writeInode g r.2 heap inodeNum inode)

end Release

end UntitledOs.Fs
