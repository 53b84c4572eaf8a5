import UntitledOs.Fs.Directory
import UntitledOs.Fs.Release

/-!
# Reading files

`fs_ext2_open` behind the lookup, and `fs_ext2_read`.  The position of a
descriptor is a block and a byte in it; the end of a block is not turned into the
start of the next one before a read has to go on.  `long` and `size_t` have 64
bits.  The memory behind the block buffer of a descriptor stays as it is.
-/

namespace UntitledOs.Fs

open UntitledOs.Lib

variable {g : Gdata} {sb : Superblock} {d inode tail : Bytes}

section Code

/-- `gfs_ext2_fd`, with the flag that only a read looks at. -/
structure OpenFd extends Fd where
  isBufInit : Bool

def fsOpenRead : Nat := 1

/-- `for(blki = 0; fs_ext2_get_inode_pointer(.., blki, ..); ++blki);` -/
def countBlocksLoop (sb : Superblock) (d inode : Bytes) : Nat → Nat → Bytes → Option (Nat × Bytes)
  | 0, _, _ => none
  | fuel + 1, blki, buf =>
      let r := getInodePointer sb d inode blki buf
      if r.1 = 0 then some (blki, r.2)
      else countBlocksLoop sb d inode fuel (u32 (blki + 1)) r.2

/-- `fs_ext2_open` from the position of the descriptor on; `FS_OPEN_ENDPTR` is bit 4. -/
def openPtr (sb : Superblock) (fuel : Nat) (d : Bytes) (fd : OpenFd) (flags : Nat) : Option OpenFd :=
  if flags.testBit 4 then
    (countBlocksLoop sb d fd.inode fuel 0 fd.blkbuf).map fun r =>
      let byteaddr := inodeSize fd.inode % sb.blockSize
      { fd with
        blkbuf := r.2
        blki := r.1 - 1
        byteaddr := byteaddr
        isBlkValid := decide (r.1 ≠ 0 ∧ byteaddr ≠ 0) }
  else
    let r := getInodePointer sb d fd.inode 0 fd.blkbuf
    some { fd with
      blkbuf := r.2
      blki := 0
      byteaddr := 0
      isBlkValid := decide (r.1 ≠ 0) }

/-- `fs_ext2_open` with the inode that its lookup has found: the descriptor and the medium.
`FS_OPEN_WRITE` is bit 1 and `FS_OPEN_RECREATE` bit 3. -/
def openFound (g : Gdata) (fuel : Nat) (d heap : Bytes) (fd : OpenFd) (inodeNum : Nat)
    (inode blkbuf : Bytes) (flags : Nat) : Option (OpenFd × Bytes) :=
  let fd := { fd with isBufInit := false, inodeNum := inodeNum, inode := inode, blkbuf := blkbuf }
  if flags.testBit 3 && flags.testBit 1 then
    (openRecreate g fuel d heap inode inodeNum).bind fun r =>
      (openPtr g.sb fuel r.2 { fd with inode := r.1 } flags).map fun fd => (fd, r.2)
  else (openPtr g.sb fuel d fd flags).map fun fd => (fd, d)

/-- At the end of its block a read goes on to the next one; the flag tells if there is one. -/
def nextReadBlock (sb : Superblock) (d : Bytes) (fd : OpenFd) : Bool × OpenFd :=
  if fd.byteaddr = sb.blockSize then
    let r := readInodeData sb d fd.inode (u32 (fd.blki + 1)) fd.blkbuf
    (r.1, { fd with
      blkbuf := r.2
      blki := u32 (fd.blki + 1)
      byteaddr := 0
      isBlkValid := if r.1 then fd.isBlkValid else false })
  else (true, fd)

/-- The loop of `fs_ext2_read` with `left` of `count` bytes still to copy to `buf`: its return
value, the descriptor and the buffer. -/
def readLoop (sb : Superblock) (d : Bytes) (count : Nat) :
    Nat → OpenFd → Nat → Bytes → Option (Nat × OpenFd × Bytes)
  | 0, _, _, _ => none
  | fuel + 1, fd, left, buf =>
      if left = 0 then some (count, fd, buf)
      else if fd.isBlkValid = false then some (count - left, fd, buf)
      else
        let n := nextReadBlock sb d fd
        let fd := n.2
        if n.1 = false then readLoop sb d count fuel fd left buf
        else
          let tocopy := min left (sb.blockSize - fd.byteaddr)
          readLoop sb d count fuel { fd with byteaddr := fd.byteaddr + tocopy } (left - tocopy)
            (copyTo buf (count - left) (fun i => fd.blkbuf (fd.byteaddr + i)) tocopy)

/-- The position of a descriptor, a `uint32_t`. -/
def OpenFd.bytes (sb : Superblock) (fd : OpenFd) : Nat := u32 (fd.blki * sb.blockSize + fd.byteaddr)

/-- `fs_ext2_read`. -/
def read (sb : Superblock) (fuel : Nat) (d : Bytes) (fd : OpenFd) (buf : Bytes) (count : Nat) :
    Option (Nat × OpenFd × Bytes) :=
  -- the difference is a `uint64_t`
  let rest := (inodeSize fd.inode + 2 ^ 64 - fd.bytes sb) % 2 ^ 64
  let count := if rest < count then rest else count
  if fd.isBufInit = false then
    let r := readInodeData sb d fd.inode fd.blki fd.blkbuf
    if r.1 = false then some (0, { fd with blkbuf := r.2, isBlkValid := false }, buf)
    else readLoop sb d count fuel { fd with blkbuf := r.2 } count buf
  else readLoop sb d count fuel fd count buf

end Code

section File

/-- Buffers with the same memory behind the block. -/
def SameTail (sb : Superblock) (tail buf : Bytes) : Prop := ∀ i, sb.blockSize ≤ i → buf i = tail i

/-- The pointer of logical block `k`. -/
def pointerOf (sb : Superblock) (d inode tail : Bytes) (k : Nat) : Nat :=
  (getInodePointer sb d inode k tail).1

/-- Byte `p` of a file. -/
def fileByte (sb : Superblock) (d inode tail : Bytes) (p : Nat) : Byte :=
  d (blockStart sb (pointerOf sb d inode tail (p / sb.blockSize)) + p % sb.blockSize)

/-- The data blocks of a file that hold its first `size` bytes. -/
def dataBlocks (sb : Superblock) (size : Nat) : Nat := (size + sb.blockSize - 1) / sb.blockSize

/-- A file whose logical blocks all have pointers. -/
structure Filled (sb : Superblock) (d inode tail : Bytes) : Prop where
  blockSize_pos : 0 < sb.blockSize
  size_lt : inodeSize inode < 2 ^ 32
  present : ∀ k < dataBlocks sb (inodeSize inode), pointerOf sb d inode tail k ≠ 0

theorem readBlock_sameTail {buf buf' : Bytes} (h : SameTail sb buf buf') (b : Nat) :
    readBlock sb d b buf' = readBlock sb d b buf := by
  have hlen := blockSectors_mul sb
  funext i
  unfold readBlock ataRead copyTo
  rw [hlen]
  split
  · rfl
  · exact h i (by omega)

theorem SameTail.readBlock {buf : Bytes} (h : SameTail sb tail buf) (b : Nat) :
    SameTail sb tail (readBlock sb d b buf) := by
  intro i hi
  have hlen := blockSectors_mul sb
  unfold Fs.readBlock ataRead
  rw [copyTo_of_ge (by omega)]
  exact h i hi

theorem readBlock_data (b : Nat) (buf : Bytes) {i : Nat} (hi : i < sb.blockSize) :
    readBlock sb d b buf i = d (blockStart sb b + i) := by
  have hlen := blockSectors_mul sb
  have h := @copyTo_add buf (fun i => d (blockStart sb b + i)) 0 (sb.blockSectors * ataSectorSize) i
    (by omega)
  rwa [Nat.zero_add] at h

/-- The walk of the block map reads a block before it uses the buffer. -/
theorem getInodePointer_sameTail {buf : Bytes} (h : SameTail sb tail buf) (k : Nat) :
    (getInodePointer sb d inode k buf).1 = pointerOf sb d inode tail k ∧
      SameTail sb tail (getInodePointer sb d inode k buf).2 := by
  have hread : ∀ b, readBlock sb d b buf = readBlock sb d b tail := readBlock_sameTail h
  have htail := fun b => h.readBlock (d := d) b
  unfold pointerOf getInodePointer
  simp only [hread] at htail ⊢
  split
  · exact ⟨rfl, h⟩
  split
  · split
    · exact ⟨rfl, h⟩
    · exact ⟨rfl, htail _⟩
  split
  · split
    · exact ⟨rfl, h⟩
    · split
      · exact ⟨rfl, htail _⟩
      · exact ⟨rfl, (htail _).readBlock _⟩
  · split
    · exact ⟨rfl, h⟩
    · split
      · exact ⟨rfl, htail _⟩
      · split
        · exact ⟨rfl, (htail _).readBlock _⟩
        · exact ⟨rfl, ((htail _).readBlock _).readBlock _⟩

theorem readInodeData_sameTail {buf : Bytes} (h : SameTail sb tail buf) (k : Nat) :
    SameTail sb tail (readInodeData sb d inode k buf).2 ∧
    ((readInodeData sb d inode k buf).1 = false ↔ pointerOf sb d inode tail k = 0) ∧
    (pointerOf sb d inode tail k ≠ 0 → ∀ i < sb.blockSize,
      (readInodeData sb d inode k buf).2 i =
        d (blockStart sb (pointerOf sb d inode tail k) + i)) := by
  obtain ⟨hptr, htail⟩ := @getInodePointer_sameTail sb d inode tail _ h k
  unfold readInodeData
  simp only [hptr]
  split
  · rename_i hzero
    exact ⟨htail, ⟨fun _ => hzero, fun _ => rfl⟩, fun hne => absurd hzero hne⟩
  · rename_i hne
    exact ⟨htail.readBlock _, ⟨fun hfalse => absurd hfalse.symm Bool.false_ne_true,
      fun hzero => absurd hzero hne⟩,
      fun _ i hi => readBlock_data _ _ hi⟩

end File

section Read

/-- The descriptor stands at byte `p` of the file. -/
structure Positioned (sb : Superblock) (d inode tail : Bytes) (fd : OpenFd) (p : Nat) : Prop where
  file : fd.inode = inode
  buffer : SameTail sb tail fd.blkbuf
  uninit : fd.isBufInit = false
  position : fd.blki * sb.blockSize + fd.byteaddr = p
  le_size : p ≤ inodeSize inode
  byteaddr : fd.byteaddr < sb.blockSize ∨
    fd.byteaddr = sb.blockSize ∧ pointerOf sb d inode tail fd.blki ≠ 0

/-- The block buffer holds the block at which the descriptor stands. -/
def Loaded (sb : Superblock) (d inode tail : Bytes) (fd : OpenFd) : Prop :=
  ∀ i < sb.blockSize, fd.blkbuf i = d (blockStart sb (pointerOf sb d inode tail fd.blki) + i)

theorem dataBlocks_lt (hpos : 0 < sb.blockSize) {size k : Nat} (h : k * sb.blockSize < size) :
    k < dataBlocks sb size := by
  unfold dataBlocks
  rw [Nat.lt_div_iff_mul_lt hpos]
  omega

theorem Filled.pointer (hfile : Filled sb d inode tail) {k : Nat}
    (hk : k * sb.blockSize < inodeSize inode) : pointerOf sb d inode tail k ≠ 0 :=
  hfile.present k (dataBlocks_lt hfile.blockSize_pos hk)

/-- A descriptor that is not behind the last byte stands at a block with a pointer. -/
theorem Positioned.pointer {fd : OpenFd} {p : Nat} (hfile : Filled sb d inode tail)
    (h : Positioned sb d inode tail fd p) (hp : p < inodeSize inode) :
    pointerOf sb d inode tail fd.blki ≠ 0 := by
  have hpos := h.position
  rcases h.byteaddr with hlt | ⟨-, hptr⟩
  · exact hfile.pointer (by omega)
  · exact hptr

theorem fileByte_block (k : Nat) {i : Nat} (hi : i < sb.blockSize) :
    fileByte sb d inode tail (k * sb.blockSize + i) =
      d (blockStart sb (pointerOf sb d inode tail k) + i) := by
  have hdiv : (k * sb.blockSize + i) / sb.blockSize = k := by
    rw [Nat.mul_comm, Nat.mul_add_div (by omega), Nat.div_eq_of_lt hi, Nat.add_zero]
  have hmod : (k * sb.blockSize + i) % sb.blockSize = i := by
    rw [Nat.mul_comm, Nat.mul_add_mod, Nat.mod_eq_of_lt hi]
  unfold fileByte
  rw [hdiv, hmod]

theorem Loaded.byte {fd : OpenFd} (h : Loaded sb d inode tail fd) {i : Nat}
    (hi : i < sb.blockSize) :
    fd.blkbuf i = fileByte sb d inode tail (fd.blki * sb.blockSize + i) := by
  rw [fileByte_block fd.blki hi]
  exact h i hi

/-- Before it copies, the loop stands inside a loaded block. -/
theorem nextReadBlock_spec {fd : OpenFd} {p : Nat} (hfile : Filled sb d inode tail)
    (h : Positioned sb d inode tail fd p) (hload : Loaded sb d inode tail fd)
    (hvalid : fd.isBlkValid = true) (hp : p < inodeSize inode) :
    ∃ fd', nextReadBlock sb d fd = (true, fd') ∧ Positioned sb d inode tail fd' p ∧
      Loaded sb d inode tail fd' ∧ fd'.isBlkValid = true ∧ fd'.byteaddr < sb.blockSize := by
  obtain rfl := h.file
  have hpos := h.position
  have hsize := hfile.size_lt
  unfold nextReadBlock
  by_cases hend : fd.byteaddr = sb.blockSize
  · have hnext : (fd.blki + 1) * sb.blockSize = p := by
      rw [Nat.succ_mul]
      omega
    have hwrap : u32 (fd.blki + 1) = fd.blki + 1 := by
      have := Nat.le_mul_of_pos_right (fd.blki + 1) hfile.blockSize_pos
      exact Nat.mod_eq_of_lt (by omega)
    have hptr := hfile.pointer (k := fd.blki + 1) (by omega)
    obtain ⟨htail, hfound, hdata⟩ :=
      @readInodeData_sameTail sb d fd.inode tail _ h.buffer (fd.blki + 1)
    have hread : (readInodeData sb d fd.inode (fd.blki + 1) fd.blkbuf).1 = true := by
      rw [← Bool.not_eq_false, hfound]
      exact hptr
    rw [if_pos hend]
    simp only [hwrap, hread, if_true]
    refine ⟨_, rfl, ⟨rfl, htail, h.uninit, ?_, h.le_size, .inl hfile.blockSize_pos⟩, hdata hptr,
      hvalid, hfile.blockSize_pos⟩
    exact hnext
  · rw [if_neg hend]
    refine ⟨fd, rfl, h, hload, hvalid, ?_⟩
    rcases h.byteaddr with hlt | ⟨heq, -⟩
    · exact hlt
    · exact absurd heq hend

theorem readLoop_spec (hfile : Filled sb d inode tail) {count fuel left p : Nat} {fd : OpenFd}
    {buf : Bytes} (h : Positioned sb d inode tail fd p) (hload : Loaded sb d inode tail fd)
    (hvalid : fd.isBlkValid = true) (hptr : pointerOf sb d inode tail fd.blki ≠ 0)
    (hleft : p + left ≤ inodeSize inode) (hcount : left ≤ count) (hfuel : left < fuel) :
    ∃ fd', readLoop sb d count fuel fd left buf =
        some (count, fd', copyTo buf (count - left) (fun i => fileByte sb d inode tail (p + i)) left) ∧
      Positioned sb d inode tail fd' (p + left) ∧ fd'.isBlkValid = true ∧
      pointerOf sb d inode tail fd'.blki ≠ 0 := by
  induction fuel generalizing left p fd buf with
  | zero => omega
  | succ fuel ih =>
      rw [readLoop]
      by_cases hzero : left = 0
      · subst hzero
        refine ⟨fd, ?_, h, hvalid, hptr⟩
        rw [if_pos rfl]
        congr 3
        funext i
        unfold copyTo
        rw [if_neg (by omega)]
      · obtain ⟨fd', hnext, hpos', hload', hvalid', hbyte⟩ :=
          nextReadBlock_spec hfile h hload hvalid (by omega)
        have hvalidne : ¬ fd.isBlkValid = false := by
          rw [hvalid]
          decide
        rw [if_neg hzero, if_neg hvalidne]
        simp only [hnext, if_neg (show ¬ (true = false) by decide)]
        set n := min left (sb.blockSize - fd'.byteaddr) with hn
        have hplace := hpos'.position
        have hptr' : pointerOf sb d inode tail fd'.blki ≠ 0 := hpos'.pointer hfile (by omega)
        have hstep : Positioned sb d inode tail
            { fd' with byteaddr := fd'.byteaddr + n } (p + n) := by
          refine ⟨hpos'.file, hpos'.buffer, hpos'.uninit, ?_, by omega, ?_⟩
          · show fd'.blki * sb.blockSize + (fd'.byteaddr + n) = p + n
            omega
          · by_cases hfull : fd'.byteaddr + n < sb.blockSize
            · exact .inl hfull
            · exact .inr ⟨by show fd'.byteaddr + n = sb.blockSize; omega, hptr'⟩
        obtain ⟨fd'', hrun, hpos'', hvalid'', hptr''⟩ := @ih (left - n) (p + n) _
          (copyTo buf (count - left) (fun i => fd'.blkbuf (fd'.byteaddr + i)) n) hstep hload'
          hvalid' hptr' (by omega) (by omega) (by omega)
        refine ⟨fd'', ?_, ?_, hvalid'', hptr''⟩
        · rw [hrun]
          congr 3
          have hcopied : copyTo buf (count - left) (fun i => fd'.blkbuf (fd'.byteaddr + i)) n =
              copyTo buf (count - left) (fun i => fileByte sb d inode tail (p + i)) n :=
            copyTo_congr fun i hi => by
              rw [hload'.byte (by omega), ← hplace, Nat.add_assoc]
          rw [hcopied, show count - (left - n) = count - left + n by omega]
          have hshift : (fun i => fileByte sb d inode tail (p + n + i)) =
              fun i => (fun i => fileByte sb d inode tail (p + i)) (n + i) := by
            funext i
            rw [Nat.add_assoc]
          rw [hshift, copyTo_copyTo, show n + (left - n) = left by omega]
        · rwa [show p + n + (left - n) = p + left by omega] at hpos''

/-- What a read of `count` bytes at `p` should do: return the bytes that are left, up to `count`,
copy them, and move on. -/
structure ReadsFile (sb : Superblock) (d inode tail : Bytes) (p count : Nat) (buf : Bytes)
    (r : Nat × OpenFd × Bytes) : Prop where
  returned : r.1 = min count (inodeSize inode - p)
  copied : r.2.2 = copyTo buf 0 (fun i => fileByte sb d inode tail (p + i)) r.1
  moved : Positioned sb d inode tail r.2.1 (p + r.1)

theorem copyTo_zero (dst src : Bytes) (off : Nat) : copyTo dst off src 0 = dst := by
  funext i
  unfold copyTo
  rw [if_neg (by omega)]

theorem Positioned.bytes {fd : OpenFd} {p : Nat} (hfile : Filled sb d inode tail)
    (h : Positioned sb d inode tail fd p) : fd.bytes sb = p := by
  have hsize := hfile.size_lt
  have hle := h.le_size
  unfold OpenFd.bytes
  rw [h.position]
  exact Nat.mod_eq_of_lt (by omega)

theorem Positioned.rest {fd : OpenFd} {p : Nat} (hfile : Filled sb d inode tail)
    (h : Positioned sb d inode tail fd p) :
    (inodeSize fd.inode + 2 ^ 64 - fd.bytes sb) % 2 ^ 64 = inodeSize inode - p := by
  have hsize := hfile.size_lt
  have hle := h.le_size
  rw [h.bytes hfile, h.file]
  omega

/-- A read loads the block at which the descriptor stands and copies what is left of the file. -/
theorem read_eq (hfile : Filled sb d inode tail) {fd : OpenFd} {p : Nat}
    (h : Positioned sb d inode tail fd p) (buf : Bytes) (count fuel : Nat) :
    read sb fuel d fd buf count =
      let r := readInodeData sb d inode fd.blki fd.blkbuf
      if r.1 = false then some (0, { fd with blkbuf := r.2, isBlkValid := false }, buf)
      else readLoop sb d (min count (inodeSize inode - p)) fuel { fd with blkbuf := r.2 }
        (min count (inodeSize inode - p)) buf := by
  have hmin : (if inodeSize inode - p < count then inodeSize inode - p else count) =
      min count (inodeSize inode - p) := by
    split <;> omega
  unfold read
  rw [if_pos h.uninit, h.rest hfile, h.file, hmin]

theorem read_valid (hfile : Filled sb d inode tail) {fd : OpenFd} {p : Nat}
    (h : Positioned sb d inode tail fd p) (hvalid : fd.isBlkValid = true)
    (hptr : pointerOf sb d inode tail fd.blki ≠ 0) (buf : Bytes) (count : Nat) {fuel : Nat}
    (hfuel : count < fuel) :
    ∃ r, read sb fuel d fd buf count = some r ∧ ReadsFile sb d inode tail p count buf r ∧
      r.2.1.isBlkValid = true ∧ pointerOf sb d inode tail r.2.1.blki ≠ 0 := by
  have hle := h.le_size
  obtain ⟨htail, hfound, hdata⟩ := @readInodeData_sameTail sb d inode tail _ h.buffer fd.blki
  have hread : ¬ (readInodeData sb d inode fd.blki fd.blkbuf).1 = false := fun hnone =>
    hptr (hfound.mp hnone)
  rw [read_eq hfile h]
  simp only [if_neg hread]
  set n := min count (inodeSize inode - p) with hn
  have hstep : Positioned sb d inode tail
      { fd with blkbuf := (readInodeData sb d inode fd.blki fd.blkbuf).2 } p :=
    ⟨h.file, htail, h.uninit, h.position, h.le_size, h.byteaddr⟩
  obtain ⟨fd', hrun, hpos', hvalid', hptr'⟩ := @readLoop_spec sb d inode tail hfile n fuel n p _ buf
    hstep (hdata hptr) hvalid hptr (by omega) le_rfl (by omega)
  rw [Nat.sub_self] at hrun
  exact ⟨_, hrun, ⟨rfl, rfl, hpos'⟩, hvalid', hptr'⟩

/-- At the end of a file of whole blocks a descriptor may stand at a block that does not exist. -/
theorem read_end (hfile : Filled sb d inode tail) {fd : OpenFd} {p : Nat}
    (h : Positioned sb d inode tail fd p) (hptr : pointerOf sb d inode tail fd.blki = 0)
    (buf : Bytes) (count fuel : Nat) :
    ∃ r, read sb fuel d fd buf count = some r ∧ ReadsFile sb d inode tail p count buf r ∧
      r.2.1.isBlkValid = false ∧ r.2.1.blki = fd.blki := by
  obtain ⟨htail, hfound, -⟩ := @readInodeData_sameTail sb d inode tail _ h.buffer fd.blki
  have hend : p = inodeSize inode := by
    by_contra hne
    have hle := h.le_size
    exact h.pointer hfile (by omega) hptr
  rw [read_eq hfile h]
  simp only [if_pos (hfound.mpr hptr)]
  refine ⟨_, rfl, ⟨?_, (copyTo_zero _ _ _).symm, ?_⟩, rfl, rfl⟩
  · show 0 = _
    omega
  · exact ⟨h.file, htail, h.uninit, h.position, h.le_size, h.byteaddr⟩

theorem readLoop_succ (fuel : Nat) (sb : Superblock) (d : Bytes) (count : Nat) (fd : OpenFd)
    (left : Nat) (buf : Bytes) :
    readLoop sb d count (fuel + 1) fd left buf =
      if left = 0 then some (count, fd, buf)
      else if fd.isBlkValid = false then some (count - left, fd, buf)
      else
        let n := nextReadBlock sb d fd
        let fd := n.2
        if n.1 = false then readLoop sb d count fuel fd left buf
        else
          let tocopy := min left (sb.blockSize - fd.byteaddr)
          readLoop sb d count fuel { fd with byteaddr := fd.byteaddr + tocopy } (left - tocopy)
            (copyTo buf (count - left) (fun i => fd.blkbuf (fd.byteaddr + i)) tocopy) := rfl

theorem readLoop_steady (sb : Superblock) (d : Bytes) (count : Nat) (fd : OpenFd) (left : Nat)
    (buf : Bytes) : Steady fun fuel => readLoop sb d count fuel fd left buf := by
  intro fuel
  induction fuel generalizing fd left buf with
  | zero => exact Below.none _
  | succ fuel ih =>
      dsimp only
      rw [readLoop_succ fuel, readLoop_succ (fuel + 1)]
      dsimp only
      split
      · exact Below.refl _
      split
      · exact Below.refl _
      split
      · exact ih _ _ _
      · exact ih _ _ _

theorem read_steady (sb : Superblock) (d : Bytes) (fd : OpenFd) (buf : Bytes) (count : Nat) :
    Steady fun fuel => read sb fuel d fd buf count := by
  intro fuel
  simp only [read]
  split
  · split
    · exact Below.refl _
    · exact readLoop_steady _ _ _ _ _ _ fuel
  · exact readLoop_steady _ _ _ _ _ _ fuel

end Read

section Chunks

/-- The first `n` bytes of a memory. -/
def taken (m : Bytes) (n : Nat) : List Byte := (List.range n).map m

theorem taken_add (m : Bytes) (a b : Nat) :
    taken m (a + b) = taken m a ++ taken (fun i => m (a + i)) b := by
  unfold taken
  rw [List.range_add, List.map_append, List.map_map]
  rfl

theorem taken_congr {m m' : Bytes} {n : Nat} (h : ∀ i < n, m i = m' i) : taken m n = taken m' n :=
  List.map_congr_left fun i hi => h i (List.mem_range.mp hi)

theorem take_taken (m : Bytes) {a n : Nat} (h : a ≤ n) : (taken m n).take a = taken m a := by
  unfold taken
  rw [← List.map_take, List.take_range, Nat.min_eq_left h]

/-- The data blocks of a file one behind the other, cut to its size. -/
def fileData (sb : Superblock) (d inode tail : Bytes) : List Byte :=
  ((List.range (dataBlocks sb (inodeSize inode))).flatMap fun k =>
    taken (fun i => d (blockStart sb (pointerOf sb d inode tail k) + i)) sb.blockSize).take
      (inodeSize inode)

theorem fileData_eq (hpos : 0 < sb.blockSize) :
    fileData sb d inode tail = taken (fileByte sb d inode tail) (inodeSize inode) := by
  have hblocks : ∀ n, ((List.range n).flatMap fun k =>
      taken (fun i => d (blockStart sb (pointerOf sb d inode tail k) + i)) sb.blockSize) =
      taken (fileByte sb d inode tail) (n * sb.blockSize) := by
    intro n
    induction n with
    | zero => simp [taken]
    | succ n ih =>
        rw [List.range_succ, List.flatMap_append, ih, Nat.succ_mul, taken_add,
          List.flatMap_singleton]
        exact congrArg (taken (fileByte sb d inode tail) (n * sb.blockSize) ++ ·)
          (taken_congr fun i hi => (fileByte_block n hi).symm)
  unfold fileData
  rw [hblocks]
  refine take_taken _ ?_
  have hdiv := Nat.div_add_mod (inodeSize inode + sb.blockSize - 1) sb.blockSize
  have hmod := Nat.mod_lt (inodeSize inode + sb.blockSize - 1) hpos
  unfold dataBlocks
  rw [Nat.mul_comm]
  omega

/-- Reads of the given sizes one after the other, each into a buffer of its own: what they return
and the bytes they have copied. -/
def readChunks (sb : Superblock) (fuel : Nat) (d : Bytes) :
    OpenFd → List (Bytes × Nat) → Option (List (Nat × List Byte))
  | _, [] => some []
  | fd, (buf, count) :: rest =>
      (read sb fuel d fd buf count).bind fun r =>
        (readChunks sb fuel d r.2.1 rest).map fun rs => (r.1, taken r.2.2 r.1) :: rs

/-- What the reads should return when `left` bytes of the file are left. -/
def chunkSizes : Nat → List Nat → List Nat
  | _, [] => []
  | left, count :: rest => min count left :: chunkSizes (left - min count left) rest

/-- The descriptor is valid unless it stands at a block that does not exist. -/
def Ready (sb : Superblock) (d inode tail : Bytes) (fd : OpenFd) : Prop :=
  pointerOf sb d inode tail fd.blki ≠ 0 → fd.isBlkValid = true

/-- A read of a ready descriptor does what it should and leaves it ready. -/
theorem read_ready (hfile : Filled sb d inode tail) {fd : OpenFd} {p : Nat}
    (h : Positioned sb d inode tail fd p) (hready : Ready sb d inode tail fd) (buf : Bytes)
    (count : Nat) :
    ∃ r, Returns (fun fuel => read sb fuel d fd buf count) r ∧
      ReadsFile sb d inode tail p count buf r ∧ Ready sb d inode tail r.2.1 := by
  by_cases hptr : pointerOf sb d inode tail fd.blki = 0
  · obtain ⟨r, hrun, hreads, -, hblki⟩ := read_end hfile h hptr buf count 0
    refine ⟨r, (read_steady sb d fd buf count).returns 0 hrun, hreads, fun hne => ?_⟩
    rw [hblki] at hne
    exact absurd hptr hne
  · obtain ⟨r, hrun, hreads, hvalid, -⟩ :=
      read_valid hfile h (hready hptr) hptr buf count (Nat.lt_succ_self count)
    exact ⟨r, (read_steady sb d fd buf count).returns _ hrun, hreads, fun _ => hvalid⟩

theorem ReadsFile.taken {p count : Nat} {buf : Bytes} {r : Nat × OpenFd × Bytes}
    (h : ReadsFile sb d inode tail p count buf r) :
    Fs.taken r.2.2 r.1 = Fs.taken (fun i => fileByte sb d inode tail (p + i)) r.1 := by
  rw [h.copied]
  refine taken_congr fun i hi => ?_
  have hadd := @copyTo_add buf (fun i => fileByte sb d inode tail (p + i)) 0 r.1 i hi
  rwa [Nat.zero_add] at hadd

theorem readChunks_spec (hfile : Filled sb d inode tail) (chunks : List (Bytes × Nat))
    {fd : OpenFd} {p : Nat} (h : Positioned sb d inode tail fd p)
    (hready : Ready sb d inode tail fd) :
    ∃ rs, Returns (fun fuel => readChunks sb fuel d fd chunks) rs ∧
      rs.map Prod.fst = chunkSizes (inodeSize inode - p) (chunks.map Prod.snd) ∧
      rs.flatMap Prod.snd = taken (fun i => fileByte sb d inode tail (p + i))
        (min (chunks.map Prod.snd).sum (inodeSize inode - p)) := by
  induction chunks generalizing fd p with
  | nil => exact ⟨[], Returns.const _, rfl, by rw [List.map_nil, List.sum_nil, Nat.zero_min]; rfl⟩
  | cons chunk rest ih =>
      obtain ⟨buf, count⟩ := chunk
      obtain ⟨r, hrun, hreads, hready'⟩ := read_ready hfile h hready buf count
      obtain ⟨rs, hrest, hsizes, hbytes⟩ := ih hreads.moved hready'
      have hn := hreads.returned
      refine ⟨(r.1, taken r.2.2 r.1) :: rs, Returns.bind hrun (hrest.map _), ?_, ?_⟩
      · rw [List.map_cons, hsizes, List.map_cons, chunkSizes, hn, Nat.sub_sub]
      · rw [List.flatMap_cons, hbytes, List.map_cons, List.sum_cons, hreads.taken,
          show min (count + (rest.map Prod.snd).sum) (inodeSize inode - p) =
            r.1 + min (rest.map Prod.snd).sum (inodeSize inode - (p + r.1)) by omega, taken_add]
        simp only [Nat.add_assoc]

/-- Opening a file to read it puts the descriptor at its first byte. -/
theorem openFound_read (g : Gdata) (d heap : Bytes) (fd : OpenFd) (inodeNum : Nat)
    (inode blkbuf : Bytes) :
    ∃ fd', Returns (fun fuel => openFound g fuel d heap fd inodeNum inode blkbuf fsOpenRead)
        (fd', d) ∧
      (0 < g.sb.blockSize → Positioned g.sb d inode blkbuf fd' 0) ∧
      Ready g.sb d inode blkbuf fd' := by
  have hptr : getInodePointer g.sb d inode 0 blkbuf = (dbp inode 0, blkbuf) := by
    rw [getInodePointer, if_pos (by decide)]
  refine ⟨_, Returns.const _, fun hpos => ?_, fun hne => ?_⟩
  · refine ⟨rfl, fun i _ => ?_, rfl, Nat.zero_mul _, Nat.zero_le _, .inl hpos⟩
    show (getInodePointer g.sb d inode 0 blkbuf).2 i = blkbuf i
    rw [hptr]
  · exact decide_eq_true hne

/-- A file of 1500 bytes in the blocks 10 and 11. -/
def twoBlockFile : Bytes := setInodeSize (setDbp (setDbp (fun _ => 0) 0 10) 1 11) 1500

theorem twoBlockFile_filled (d : Bytes) : Filled (oneGroup 5).sb d twoBlockFile blankMedium where
  blockSize_pos := by decide
  size_lt := by decide +kernel
  present k hk := by
    have hk2 : k < 2 := by
      have hblocks : dataBlocks (oneGroup 5).sb (inodeSize twoBlockFile) = 2 := by decide +kernel
      omega
    have hdbp : ∀ k < 2, dbp twoBlockFile k ≠ 0 := by decide +kernel
    rw [pointerOf, getInodePointer, if_pos (by omega)]
    exact hdbp k hk2

end Chunks

end UntitledOs.Fs
