import UntitledOs.Fs.FileRead

/-!
# Seeking in files

`fs_ext2_seek` and the reads that follow it.  The position is a `uint32_t`, the
offset a `long` of 64 bits, and the size of a file a `uint64_t`; every sum takes
the type of the larger one.
-/

namespace UntitledOs.Fs

open UntitledOs.Lib

variable {sb : Superblock} {d inode tail : Bytes}

section Code

def fsSeekBegin : Nat := 0
def fsSeekEnd : Nat := 2

/-- The first half of `fs_ext2_seek`: the block, the byte in it and the buffer.  `FS_SEEK_CUR` is
bit 0 of `whence` and `FS_SEEK_END` bit 1. -/
def seekStart (sb : Superblock) (fuel : Nat) (d : Bytes) (fd : OpenFd) (whence : Nat) :
    Option (Nat × Nat × Bytes) :=
  if whence.testBit 0 then some (fd.blki, fd.byteaddr, fd.blkbuf)
  else if whence.testBit 1 then
    (countBlocksLoop sb d fd.inode fuel 0 fd.blkbuf).map fun r =>
      (r.1 - 1, inodeSize fd.inode % sb.blockSize, r.2)
  else some (0, 0, fd.blkbuf)

/-- The second half of `fs_ext2_seek`: `bytes` after it is adjusted by `offset`. -/
def seekBytes (bytes size : Nat) (offset : Int) : Nat :=
  let offset :=
    if 0 < offset then
      let offset := if 2 ^ 32 - 1 - offset < bytes then 2 ^ 32 - 1 - (bytes : Int) else offset
      -- the difference and the comparison have the type `uint64_t`
      if (size - offset) % 2 ^ 64 < bytes then ((size : Int) - bytes).bmod (2 ^ 64) else offset
    else if offset < 0 then
      if bytes < -offset % 2 ^ 32 then -(bytes : Int) % 2 ^ 32 else offset
    else offset
  ((bytes + offset) % 2 ^ 32).toNat

/-- `fs_ext2_seek`: its return value and the descriptor. -/
def seek (sb : Superblock) (fuel : Nat) (d : Bytes) (fd : OpenFd) (offset : Int) (whence : Nat) :
    Option (Nat × OpenFd) :=
  (seekStart sb fuel d fd whence).map fun r =>
    let bytes := seekBytes (u32 (r.1 * sb.blockSize + r.2.1)) (inodeSize fd.inode) offset
    (bytes, { fd with
      blkbuf := r.2.2
      blki := bytes / sb.blockSize
      byteaddr := bytes % sb.blockSize })

end Code

section Target

/-- Where a seek at byte `p` of a file of `size` bytes should start from. -/
def seekBase (size p whence : Nat) : Nat :=
  if whence.testBit 0 then p else if whence.testBit 1 then size else 0

/-- Where a seek at byte `p` of a file of `size` bytes should go. -/
def seekTarget (size p : Nat) (offset : Int) (whence : Nat) : Nat :=
  (max 0 (min (size : Int) (seekBase size p whence + offset))).toNat

/-- The seeks that go where they should: not by more than the size of the file, and not from the
end of a file of whole blocks, unless the result is at one of its ends. -/
structure SeekSafe (blockSize size : Nat) (offset : Int) (whence : Nat) : Prop where
  offset_le : offset ≤ size
  fromEnd : whence.testBit 0 = false → whence.testBit 1 = true → blockSize ∣ size → size ≠ 0 →
    blockSize ≤ offset ∨ offset ≤ -size

/-- Where `fs_ext2_seek` starts from. -/
def seekStartBytes (blockSize size p whence : Nat) : Nat :=
  if whence.testBit 0 then p
  else if whence.testBit 1 then
    ((size + blockSize - 1) / blockSize - 1) * blockSize + size % blockSize
  else 0

/-- An offset that is not negative is cut only if it is not larger than the file. -/
theorem seekBytes_eq {bytes size : Nat} {offset : Int} (hbytes : bytes ≤ size)
    (hsize : size < 2 ^ 31) (hlow : -2 ^ 31 ≤ offset) (hhigh : offset < 2 ^ 31) :
    seekBytes bytes size offset =
      if offset ≤ size then (max 0 (min (size : Int) (bytes + offset))).toNat
      else bytes + offset.toNat := by
  have hbmod : ((size : Int) - bytes).bmod (2 ^ 64) = size - bytes :=
    Int.bmod_eq_of_le (by omega) (by omega)
  unfold seekBytes
  rw [hbmod]
  rcases lt_trichotomy offset 0 with hneg | rfl | hpos
  · have hneg' : ¬ 0 < offset := by omega
    have hle : offset ≤ size := by omega
    simp only [if_neg hneg', if_pos hneg, if_pos hle]
    split <;> omega
  · simp
    omega
  · have hoverflow : ¬ 2 ^ 32 - 1 - offset < bytes := by omega
    simp only [if_pos hpos, if_neg hoverflow]
    by_cases hle : offset ≤ size
    · rw [if_pos hle]
      split <;> omega
    · rw [if_neg hle, if_neg (by omega)]
      omega

/-- The start of a seek from the end of a file lies a block before the end if the file is one of
whole blocks. -/
theorem endBytes_eq {blockSize : Nat} (hpos : 0 < blockSize) (size : Nat) :
    ((size + blockSize - 1) / blockSize - 1) * blockSize + size % blockSize =
      if blockSize ∣ size then size - blockSize else size := by
  obtain ⟨q, r, hr, rfl⟩ : ∃ q r, r < blockSize ∧ size = blockSize * q + r :=
    ⟨size / blockSize, size % blockSize, Nat.mod_lt _ hpos, (Nat.div_add_mod _ _).symm⟩
  rw [Nat.mul_add_mod, Nat.mod_eq_of_lt hr]
  have hdvd : blockSize ∣ blockSize * q + r ↔ r = 0 := by
    rw [← Nat.dvd_add_iff_right ⟨q, rfl⟩]
    exact ⟨fun h => Nat.eq_zero_of_dvd_of_lt h hr, fun h => h ▸ Nat.dvd_zero _⟩
  by_cases hzero : r = 0
  · subst hzero
    rw [if_pos (hdvd.mpr rfl), Nat.add_zero, Nat.add_zero, Nat.add_sub_assoc hpos,
      Nat.mul_add_div hpos, Nat.div_eq_of_lt (by omega), Nat.add_zero, Nat.sub_mul, Nat.one_mul,
      Nat.mul_comm]
  · rw [if_neg (mt hdvd.mp hzero), show blockSize * q + r + blockSize - 1 =
      blockSize * (q + 1) + (r - 1) by rw [Nat.mul_succ]; omega, Nat.mul_add_div hpos,
      Nat.div_eq_of_lt (by omega), Nat.add_zero, Nat.add_sub_cancel, Nat.mul_comm]

theorem seekStartBytes_le {blockSize size p : Nat} (hpos : 0 < blockSize) (hp : p ≤ size)
    (whence : Nat) : seekStartBytes blockSize size p whence ≤ size := by
  unfold seekStartBytes
  rw [endBytes_eq hpos]
  split
  · exact hp
  · split
    · split <;> omega
    · exact Nat.zero_le _

theorem seekBase_le {size p : Nat} (hp : p ≤ size) (whence : Nat) :
    seekBase size p whence ≤ size := by
  unfold seekBase
  split
  · exact hp
  · split <;> omega

/-- The arithmetic of a seek is right for the seeks that are safe, and for no other ones. -/
theorem seekBytes_eq_target_iff {blockSize size p : Nat} {offset : Int} {whence : Nat}
    (hpos : 0 < blockSize) (hp : p ≤ size) (hsize : size < 2 ^ 31) (hlow : -2 ^ 31 ≤ offset)
    (hhigh : offset < 2 ^ 31) :
    seekBytes (seekStartBytes blockSize size p whence) size offset =
        seekTarget size p offset whence ↔
      SeekSafe blockSize size offset whence := by
  have hbase := seekBase_le hp whence
  rw [seekBytes_eq (seekStartBytes_le hpos hp whence) hsize hlow hhigh]
  unfold seekTarget
  by_cases hle : offset ≤ size
  · rw [if_pos hle]
    by_cases hend : whence.testBit 0 = false ∧ whence.testBit 1 = true ∧ blockSize ∣ size
    · obtain ⟨hcur, hfin, hdvd⟩ := hend
      have hstart : seekStartBytes blockSize size p whence = size - blockSize := by
        rw [seekStartBytes, endBytes_eq hpos, if_pos hdvd, hcur, hfin]
        rfl
      have hbase' : seekBase size p whence = size := by
        rw [seekBase, hcur, hfin]
        rfl
      rw [hstart, hbase']
      have hblock : size ≠ 0 → blockSize ≤ size := fun hne =>
        Nat.le_of_dvd (Nat.pos_of_ne_zero hne) hdvd
      constructor
      · intro h
        refine ⟨hle, fun _ _ _ hne => ?_⟩
        have := hblock hne
        omega
      · intro h
        by_cases hne : size = 0
        · omega
        · have := hblock hne
          have := h.fromEnd hcur hfin hdvd hne
          omega
    · have hstart : seekStartBytes blockSize size p whence = seekBase size p whence := by
        unfold seekStartBytes seekBase
        rw [endBytes_eq hpos]
        split
        · rfl
        · rename_i hcur
          split
          · rename_i hfin
            rw [if_neg fun hdvd => hend ⟨Bool.eq_false_iff.mpr hcur, hfin, hdvd⟩]
          · rfl
      rw [hstart]
      exact ⟨fun _ => ⟨hle, fun hcur hfin hdvd _ => absurd ⟨hcur, hfin, hdvd⟩ hend⟩,
        fun _ => rfl⟩
  · rw [if_neg hle]
    constructor
    · intro h
      omega
    · intro h
      exact absurd h.offset_le hle

end Target

section Run

/-- A file without holes and without blocks behind its last byte. -/
structure Sized (sb : Superblock) (d inode tail : Bytes) : Prop extends
    Filled sb d inode tail where
  size_lt_int : inodeSize inode < 2 ^ 31
  ends : pointerOf sb d inode tail (dataBlocks sb (inodeSize inode)) = 0

theorem Sized.dataBlocks_le (hfile : Sized sb d inode tail) :
    dataBlocks sb (inodeSize inode) ≤ inodeSize inode := by
  have hpos := hfile.blockSize_pos
  by_contra hlt
  have hsucc := Nat.mul_le_mul_left sb.blockSize (Nat.succ_le_of_lt (Nat.lt_of_not_le hlt))
  have hle := Nat.mul_div_le (inodeSize inode + sb.blockSize - 1) sb.blockSize
  have hmul := Nat.le_mul_of_pos_left (inodeSize inode) hpos
  rw [Nat.mul_succ] at hsucc
  unfold dataBlocks at hsucc
  omega

/-- A byte up to the size of the file lies in a block with a pointer, unless it is the first one
behind whole blocks. -/
theorem Sized.pointer_eq_zero_iff (hfile : Sized sb d inode tail) {p : Nat}
    (hp : p ≤ inodeSize inode) :
    pointerOf sb d inode tail (p / sb.blockSize) = 0 ↔
      p = inodeSize inode ∧ sb.blockSize ∣ inodeSize inode := by
  have hpos := hfile.blockSize_pos
  constructor
  · intro hzero
    by_contra hne
    refine hfile.pointer ?_ hzero
    have hdiv := Nat.div_mul_le_self p sb.blockSize
    by_cases hend : p = inodeSize inode
    · refine Nat.lt_of_le_of_ne (by omega) fun heq => hne ⟨hend, ?_⟩
      exact ⟨p / sb.blockSize, by rw [← heq, Nat.mul_comm]⟩
    · omega
  · rintro ⟨rfl, q, hq⟩
    have hblocks : inodeSize inode / sb.blockSize = dataBlocks sb (inodeSize inode) := by
      unfold dataBlocks
      rw [hq, Nat.mul_div_cancel_left _ hpos, Nat.add_sub_assoc hpos, Nat.mul_add_div hpos,
        Nat.div_eq_of_lt (by omega), Nat.add_zero]
    rw [hblocks]
    exact hfile.ends

theorem countBlocksLoop_returns (hfile : Sized sb d inode tail) (n : Nat) {blki : Nat} {buf : Bytes}
    (h : SameTail sb tail buf) (hn : blki + n = dataBlocks sb (inodeSize inode)) :
    ∃ buf', Returns (fun fuel => countBlocksLoop sb d inode fuel blki buf)
      (dataBlocks sb (inodeSize inode), buf') ∧ SameTail sb tail buf' := by
  induction n generalizing blki buf with
  | zero =>
      obtain ⟨hptr, htail⟩ := @getInodePointer_sameTail sb d inode tail buf h blki
      obtain rfl := hn
      refine ⟨_, ⟨1, fun fuel hfuel => ?_⟩, htail⟩
      obtain ⟨k, rfl⟩ : ∃ k, fuel = k + 1 := ⟨fuel - 1, by omega⟩
      dsimp only
      rw [countBlocksLoop]
      simp only [hptr]
      rw [if_pos hfile.ends]
  | succ n ih =>
      obtain ⟨hptr, htail⟩ := @getInodePointer_sameTail sb d inode tail buf h blki
      have hblocks := hfile.dataBlocks_le
      have hsize := hfile.size_lt
      have hwrap : u32 (blki + 1) = blki + 1 := Nat.mod_eq_of_lt (by omega)
      obtain ⟨buf', ⟨k, hk⟩, htail'⟩ := @ih (blki + 1) _ htail (by omega)
      refine ⟨buf', ⟨k + 1, fun fuel hfuel => ?_⟩, htail'⟩
      obtain ⟨j, rfl⟩ : ∃ j, fuel = j + 1 := ⟨fuel - 1, by omega⟩
      dsimp only
      rw [countBlocksLoop]
      simp only [hptr]
      rw [if_neg (hfile.present blki (by omega)), hwrap]
      exact hk j (by omega)

theorem seekStart_returns (hfile : Sized sb d inode tail) {fd : OpenFd} {p : Nat}
    (h : Positioned sb d inode tail fd p) (whence : Nat) :
    ∃ r, Returns (fun fuel => seekStart sb fuel d fd whence) r ∧
      r.1 * sb.blockSize + r.2.1 = seekStartBytes sb.blockSize (inodeSize inode) p whence ∧
      SameTail sb tail r.2.2 := by
  have hfd := h.file
  have hpos := h.position
  unfold seekStart seekStartBytes
  by_cases hcur : whence.testBit 0 = true
  · simp only [if_pos hcur]
    exact ⟨_, Returns.const _, hpos, h.buffer⟩
  · simp only [if_neg hcur]
    by_cases hend : whence.testBit 1 = true
    · simp only [if_pos hend, hfd]
      obtain ⟨buf, hcount, htail⟩ := countBlocksLoop_returns hfile _ h.buffer (Nat.zero_add _)
      exact ⟨_, hcount.map _, rfl, htail⟩
    · simp only [if_neg hend]
      exact ⟨_, Returns.const _, Nat.zero_mul _, h.buffer⟩

/-- What a seek leaves of a descriptor: only the position is new. -/
structure SoughtTo (sb : Superblock) (tail : Bytes) (fd : OpenFd) (bytes : Nat) (fd' : OpenFd) :
    Prop where
  file : fd'.inode = fd.inode
  buffer : SameTail sb tail fd'.blkbuf
  isBufInit : fd'.isBufInit = fd.isBufInit
  isBlkValid : fd'.isBlkValid = fd.isBlkValid
  blki : fd'.blki = bytes / sb.blockSize
  byteaddr : fd'.byteaddr = bytes % sb.blockSize

theorem SoughtTo.bytes {fd fd' : OpenFd} {bytes : Nat} (h : SoughtTo sb tail fd bytes fd')
    (hbytes : bytes < 2 ^ 32) : fd'.bytes sb = bytes := by
  unfold OpenFd.bytes
  rw [h.blki, h.byteaddr, Nat.mul_comm, Nat.div_add_mod]
  exact Nat.mod_eq_of_lt hbytes

theorem seekBytes_lt (bytes size : Nat) (offset : Int) : seekBytes bytes size offset < 2 ^ 32 := by
  unfold seekBytes
  dsimp only
  omega

theorem seek_returns (hfile : Sized sb d inode tail) {fd : OpenFd} {p : Nat}
    (h : Positioned sb d inode tail fd p) (offset : Int) (whence : Nat) :
    ∃ r, Returns (fun fuel => seek sb fuel d fd offset whence) r ∧
      r.1 = seekBytes (seekStartBytes sb.blockSize (inodeSize inode) p whence) (inodeSize inode)
        offset ∧
      SoughtTo sb tail fd r.1 r.2 := by
  obtain ⟨r, hrun, hbytes, htail⟩ := seekStart_returns hfile h whence
  have hle := seekStartBytes_le hfile.blockSize_pos h.le_size whence
  have hsize := hfile.size_lt
  have hwrap : u32 (r.1 * sb.blockSize + r.2.1) =
      seekStartBytes sb.blockSize (inodeSize inode) p whence := by
    rw [hbytes]
    exact Nat.mod_eq_of_lt (by omega)
  refine ⟨_, hrun.map _, ?_, ⟨rfl, htail, rfl, rfl, rfl, rfl⟩⟩
  dsimp only
  rw [hwrap, h.file]

end Run

section History

/-- A call on an open descriptor. -/
inductive FileOp where
  | seek (offset : Int) (whence : Nat)
  | read (buf : Bytes) (count : Nat)

/-- Every seek goes where it should, and every read does what it should. -/
def OpsRight (sb : Superblock) (d inode tail : Bytes) : OpenFd → List FileOp → Prop
  | _, [] => True
  | fd, .seek offset whence :: rest =>
      ∃ r, Returns (fun fuel => seek sb fuel d fd offset whence) r ∧
        r.1 = seekTarget (inodeSize inode) (fd.bytes sb) offset whence ∧ r.2.bytes sb = r.1 ∧
        OpsRight sb d inode tail r.2 rest
  | fd, .read buf count :: rest =>
      ∃ r, Returns (fun fuel => read sb fuel d fd buf count) r ∧
        ReadsFile sb d inode tail (fd.bytes sb) count buf r ∧
        OpsRight sb d inode tail r.2.1 rest

/-- What the calls on a descriptor depend on: its position, whether it stands at a block that does
not exist, and whether it is valid. -/
structure Cursor where
  pos : Nat
  missing : Bool
  valid : Bool

/-- A seek to the end of a file of whole blocks ends at a block that does not exist. -/
def Cursor.seek (blockSize size : Nat) (c : Cursor) (offset : Int) (whence : Nat) : Cursor where
  pos := seekTarget size c.pos offset whence
  missing := decide (seekTarget size c.pos offset whence = size ∧ blockSize ∣ size)
  valid := c.valid

/-- A read at a block that does not exist invalidates the descriptor for good. -/
def Cursor.read (size : Nat) (c : Cursor) (count : Nat) : Cursor where
  pos := c.pos + min count (size - c.pos)
  missing := c.missing
  valid := c.valid && !c.missing

/-- The histories that go well: all seeks are safe, and a read from an invalid descriptor has
nothing to return. -/
def OpsSafe (blockSize size : Nat) : Cursor → List FileOp → Prop
  | _, [] => True
  | c, .seek offset whence :: rest =>
      SeekSafe blockSize size offset whence ∧
        OpsSafe blockSize size (c.seek blockSize size offset whence) rest
  | c, .read _ count :: rest =>
      (c.valid = true ∨ min count (size - c.pos) = 0) ∧
        OpsSafe blockSize size (c.read size count) rest

/-- The descriptor is what the cursor says. -/
structure Matches (sb : Superblock) (d inode tail : Bytes) (fd : OpenFd) (c : Cursor) : Prop where
  positioned : Positioned sb d inode tail fd c.pos
  missing : c.missing = true ↔ pointerOf sb d inode tail fd.blki = 0
  valid : fd.isBlkValid = c.valid

variable {fd : OpenFd} {c : Cursor}

theorem seekTarget_le (size p : Nat) (offset : Int) (whence : Nat) :
    seekTarget size p offset whence ≤ size := by
  unfold seekTarget
  omega

theorem Matches.seek (hfile : Sized sb d inode tail) (h : Matches sb d inode tail fd c)
    {offset : Int} {whence : Nat} (hlow : -2 ^ 31 ≤ offset) (hhigh : offset < 2 ^ 31) :
    ∃ r, Returns (fun fuel => seek sb fuel d fd offset whence) r ∧ r.2.bytes sb = r.1 ∧
      (r.1 = seekTarget (inodeSize inode) c.pos offset whence ↔
        SeekSafe sb.blockSize (inodeSize inode) offset whence) ∧
      (SeekSafe sb.blockSize (inodeSize inode) offset whence →
        Matches sb d inode tail r.2 (c.seek sb.blockSize (inodeSize inode) offset whence)) := by
  have hpos := hfile.blockSize_pos
  have hiff := @seekBytes_eq_target_iff sb.blockSize (inodeSize inode) c.pos offset whence hpos
    h.positioned.le_size hfile.size_lt_int hlow hhigh
  obtain ⟨r, hrun, hbytes, hsought⟩ := seek_returns hfile h.positioned offset whence
  rw [← hbytes] at hiff
  have hlt : r.1 < 2 ^ 32 := hbytes ▸ seekBytes_lt _ _ _
  refine ⟨r, hrun, hsought.bytes hlt, hiff, fun hsafe => ?_⟩
  have htarget := hiff.mpr hsafe
  have hle := seekTarget_le (inodeSize inode) c.pos offset whence
  rw [htarget] at hsought
  refine ⟨⟨hsought.file.trans h.positioned.file, hsought.buffer,
    hsought.isBufInit.trans h.positioned.uninit, ?_, hle, .inl ?_⟩, ?_,
    hsought.isBlkValid.trans h.valid⟩
  · rw [hsought.blki, hsought.byteaddr, Nat.mul_comm, Nat.div_add_mod]
    rfl
  · rw [hsought.byteaddr]
    exact Nat.mod_lt _ hpos
  · rw [hsought.blki, hfile.pointer_eq_zero_iff hle]
    exact decide_eq_true_iff

theorem read_invalid (hfile : Filled sb d inode tail) {p : Nat}
    (h : Positioned sb d inode tail fd p) (hvalid : fd.isBlkValid = false)
    (hptr : pointerOf sb d inode tail fd.blki ≠ 0) (buf : Bytes) (count fuel : Nat) :
    ∃ r, read sb (fuel + 1) d fd buf count = some r ∧ r.1 = 0 ∧ r.2.2 = buf ∧
      Positioned sb d inode tail r.2.1 p ∧ r.2.1.blki = fd.blki ∧ r.2.1.isBlkValid = false := by
  obtain ⟨htail, hfound, -⟩ := @readInodeData_sameTail sb d inode tail _ h.buffer fd.blki
  rw [read_eq hfile h]
  simp only [if_neg (mt hfound.mp hptr)]
  rw [readLoop_succ]
  have hplace : Positioned sb d inode tail
      { fd with blkbuf := (readInodeData sb d inode fd.blki fd.blkbuf).2 } p :=
    ⟨h.file, htail, h.uninit, h.position, h.le_size, h.byteaddr⟩
  split
  · rename_i hzero
    exact ⟨_, rfl, hzero, rfl, hplace, rfl, hvalid⟩
  · exact ⟨_, rfl, Nat.sub_self _, rfl, hplace, rfl, hvalid⟩

theorem Matches.read (hfile : Sized sb d inode tail) (h : Matches sb d inode tail fd c)
    (buf : Bytes) (count : Nat) :
    ∃ r, Returns (fun fuel => read sb fuel d fd buf count) r ∧
      (ReadsFile sb d inode tail c.pos count buf r ↔
        c.valid = true ∨ min count (inodeSize inode - c.pos) = 0) ∧
      (c.valid = true ∨ min count (inodeSize inode - c.pos) = 0 →
        Matches sb d inode tail r.2.1 (c.read (inodeSize inode) count)) := by
  have hpos := h.positioned
  by_cases hptr : pointerOf sb d inode tail fd.blki = 0
  · obtain ⟨r, hrun, hreads, hvalid, hblki⟩ := read_end hfile.toFilled hpos hptr buf count 0
    have hend : c.pos = inodeSize inode := by
      by_contra hne
      have hle := hpos.le_size
      exact hpos.pointer hfile.toFilled (by omega) hptr
    have hmissing := h.missing.mpr hptr
    refine ⟨r, (read_steady sb d fd buf count).returns 0 hrun,
      iff_of_true hreads (.inr (by omega)), fun _ => ⟨?_, ?_, ?_⟩⟩
    · have hmoved := hreads.moved
      rw [hreads.returned] at hmoved
      exact hmoved
    · rw [hblki]
      exact h.missing
    · rw [hvalid]
      show false = (c.valid && !c.missing)
      rw [hmissing, Bool.not_true, Bool.and_false]
  · have hmissing : c.missing = false := Bool.eq_false_iff.mpr (mt h.missing.mp hptr)
    cases hvalid : c.valid with
    | true =>
        obtain ⟨r, hrun, hreads, hvalid', hptr'⟩ := read_valid hfile.toFilled hpos
          (h.valid.trans hvalid) hptr buf count (Nat.lt_succ_self count)
        refine ⟨r, (read_steady sb d fd buf count).returns _ hrun, iff_of_true hreads (.inl rfl),
          fun _ => ⟨?_, ?_, ?_⟩⟩
        · have hmoved := hreads.moved
          rw [hreads.returned] at hmoved
          exact hmoved
        · exact iff_of_false (fun htrue => absurd (htrue.symm.trans hmissing) (by decide)) hptr'
        · rw [hvalid']
          show true = (c.valid && !c.missing)
          rw [hmissing, hvalid]
          rfl
    | false =>
        obtain ⟨r, hrun, hzero, hbuf, hplace, hblki, hinvalid⟩ := read_invalid hfile.toFilled hpos
          (h.valid.trans hvalid) hptr buf count 0
        refine ⟨r, (read_steady sb d fd buf count).returns _ hrun, ⟨fun hreads => ?_, ?_⟩, ?_⟩
        · exact .inr (hreads.returned.symm.trans hzero)
        · rintro (hfalse | hnothing)
          · cases hfalse
          · refine ⟨hzero.trans hnothing.symm, ?_, ?_⟩
            · rw [hzero, hbuf, copyTo_zero]
            · rwa [hzero]
        · rintro (hfalse | hnothing)
          · cases hfalse
          · refine ⟨?_, ?_, ?_⟩
            · show Positioned sb d inode tail r.2.1 (c.pos + min count (inodeSize inode - c.pos))
              rwa [hnothing]
            · rw [hblki]
              exact h.missing
            · rw [hinvalid]
              show false = (c.valid && !c.missing)
              rw [hvalid, Bool.false_and]

theorem opsRight_iff (hfile : Sized sb d inode tail) (ops : List FileOp) {fd : OpenFd} {c : Cursor}
    (h : Matches sb d inode tail fd c)
    (hrange : ∀ offset whence, .seek offset whence ∈ ops → -2 ^ 31 ≤ offset ∧ offset < 2 ^ 31) :
    OpsRight sb d inode tail fd ops ↔ OpsSafe sb.blockSize (inodeSize inode) c ops := by
  induction ops generalizing fd c with
  | nil => exact Iff.rfl
  | cons op rest ih =>
      have hrange' : ∀ offset whence, .seek offset whence ∈ rest →
          -2 ^ 31 ≤ offset ∧ offset < 2 ^ 31 :=
        fun offset whence hmem => hrange offset whence (List.mem_cons_of_mem _ hmem)
      have hplace := h.positioned.bytes hfile.toFilled
      cases op with
      | seek offset whence =>
          obtain ⟨hlow, hhigh⟩ := hrange offset whence (List.mem_cons_self ..)
          obtain ⟨r, hrun, hmoved, hiff, hnext⟩ := @Matches.seek sb d inode tail fd c hfile h
            offset whence hlow hhigh
          simp only [OpsRight, OpsSafe, hplace]
          constructor
          · rintro ⟨r', hrun', htarget, -, hrest⟩
            obtain rfl := hrun'.unique hrun
            have hsafe := hiff.mp htarget
            exact ⟨hsafe, (ih (hnext hsafe) hrange').mp hrest⟩
          · rintro ⟨hsafe, hrest⟩
            exact ⟨r, hrun, hiff.mpr hsafe, hmoved, (ih (hnext hsafe) hrange').mpr hrest⟩
      | read buf count =>
          obtain ⟨r, hrun, hiff, hnext⟩ := h.read hfile buf count
          simp only [OpsRight, OpsSafe, hplace]
          constructor
          · rintro ⟨r', hrun', hreads, hrest⟩
            obtain rfl := hrun'.unique hrun
            have hsafe := hiff.mp hreads
            exact ⟨hsafe, (ih (hnext hsafe) hrange').mp hrest⟩
          · rintro ⟨hsafe, hrest⟩
            exact ⟨r, hrun, hiff.mpr hsafe, (ih (hnext hsafe) hrange').mpr hrest⟩

/-- Every way to open a file gives a descriptor with a position in it. -/
theorem openPtr_positioned (hfile : Sized sb d inode tail) (hinode : fd.inode = inode)
    (hbuffer : SameTail sb tail fd.blkbuf) (huninit : fd.isBufInit = false) (flags : Nat) :
    ∃ fd', Returns (fun fuel => openPtr sb fuel d fd flags) fd' ∧
      Positioned sb d inode tail fd' (if flags.testBit 4 then
        seekStartBytes sb.blockSize (inodeSize inode) 0 fsSeekEnd else 0) := by
  obtain rfl := hinode
  have hpos := hfile.blockSize_pos
  unfold openPtr
  by_cases hend : flags.testBit 4 = true
  · simp only [if_pos hend]
    obtain ⟨buf, hcount, htail⟩ := countBlocksLoop_returns hfile _ hbuffer (Nat.zero_add _)
    exact ⟨_, hcount.map _, ⟨rfl, htail, huninit, rfl,
      seekStartBytes_le hpos (Nat.zero_le _) _, .inl (Nat.mod_lt _ hpos)⟩⟩
  · simp only [if_neg hend]
    obtain ⟨-, htail⟩ := @getInodePointer_sameTail sb d fd.inode tail _ hbuffer 0
    exact ⟨_, Returns.const _, ⟨rfl, htail, huninit, Nat.zero_mul _, Nat.zero_le _, .inl hpos⟩⟩

theorem twoBlockFile_sized (d : Bytes) : Sized (oneGroup 5).sb d twoBlockFile blankMedium where
  toFilled := twoBlockFile_filled d
  size_lt_int := by decide +kernel
  ends := by
    have hblocks : dataBlocks (oneGroup 5).sb (inodeSize twoBlockFile) = 2 := by decide +kernel
    rw [hblocks, pointerOf, getInodePointer, if_pos (by decide)]
    decide +kernel

/-- The file of two blocks, opened to read it. -/
def twoBlockFd : OpenFd := ⟨⟨12, twoBlockFile, blankMedium, 0, 0, true⟩, false⟩

theorem twoBlockFd_positioned (d : Bytes) :
    Positioned (oneGroup 5).sb d twoBlockFile blankMedium twoBlockFd 0 where
  file := rfl
  buffer _ _ := rfl
  uninit := rfl
  position := rfl
  le_size := Nat.zero_le _
  byteaddr := .inl (by decide)

end History

end UntitledOs.Fs
