import Mathlib.Data.List.GetD
import UntitledOs.Fs.FileRead
import UntitledOs.Fs.NewBlocks
import UntitledOs.Fs.Unlink

/-!
# Writing files

`fs_ext2_write` on a file that is empty when it is opened.  The blocks that the search hands out one
after the other become the direct blocks of the file.  Where they are spare, the directories are as
before.  A later read of the file returns what the calls have written as long as the search gives no
block twice.
-/

namespace UntitledOs.Fs

open UntitledOs.Lib

variable {g : Gdata} {sb : Superblock} {d d₀ heap buf inode : Bytes} {dirs : DirTable}
  {c : Nat → Byte} {fd : Fd} {total num n j p left count : Nat}

section Loop

/-- The number of blocks that the file has when the descriptor stands in the last one. -/
def Fd.blocks (fd : Fd) : Nat := fd.blki + fd.isBlkValid.toNat

/-- The descriptor of a file of `size` bytes stands at byte `p` of what is written. -/
structure Standing (g : Gdata) (d₀ heap : Bytes) (num n : Nat) (c : Nat → Byte) (size p : Nat)
    (fd : Fd) : Prop where
  number : fd.inodeNum = num
  position : fd.blki * g.sb.blockSize + fd.byteaddr = p
  inside : fd.byteaddr ≤ g.sb.blockSize
  fresh : fd.isBlkValid = false → fd.byteaddr = 0
  below : fd.blki < 12
  few : fd.blocks ≤ n
  pointers : ∀ j < 12, dbp fd.inode j = if j < fd.blocks then handedOut g d₀ heap num j else 0
  size : inodeSize fd.inode = size
  buffer : ∀ x < fd.byteaddr, fd.blkbuf x = c (fd.blki * g.sb.blockSize + x)

theorem Fd.blocks_valid (h : fd.isBlkValid = true) : fd.blocks = fd.blki + 1 := by
  rw [Fd.blocks, h]
  rfl

theorem Fd.blocks_invalid (h : fd.isBlkValid = false) : fd.blocks = fd.blki := by
  rw [Fd.blocks, h]
  rfl

theorem writeInodeBlockPointer_direct {bind ptr : Nat} (h : bind < 12) :
    writeInodeBlockPointer g d heap inode num bind ptr =
      (true, setDbp inode bind ptr, writeInode g d heap num (setDbp inode bind ptr)) := by
  simp only [writeInodeBlockPointer]
  rw [if_pos h]

variable {size : Nat} (hv : Volume g total d₀ dirs) (hw : Writable g total d₀ heap dirs num n)

/-- Some bytes are copied into the block. -/
theorem Standing.copy (h : Standing g d₀ heap num n c size p fd) (hvalid : fd.isBlkValid = true)
    {t : Nat} (ht : fd.byteaddr + t ≤ g.sb.blockSize) (hbuf : ∀ x < t, buf x = c (p + x)) :
    Standing g d₀ heap num n c size (p + t) { fd with
      blkbuf := copyTo fd.blkbuf fd.byteaddr buf t
      byteaddr := fd.byteaddr + t } := by
  have hpos := h.position
  refine ⟨h.number, ?_, ht, fun hfalse => ?_, h.below, h.few, h.pointers, h.size, fun x hx => ?_⟩
  · show fd.blki * g.sb.blockSize + (fd.byteaddr + t) = p + t
    omega
  · rw [show fd.isBlkValid = false from hfalse] at hvalid
    cases hvalid
  · have hx : x < fd.byteaddr + t := hx
    show copyTo fd.blkbuf fd.byteaddr buf t x = c (fd.blki * g.sb.blockSize + x)
    rcases Nat.lt_or_ge x fd.byteaddr with hlt | hge
    · rw [copyTo_of_lt hlt]
      exact h.buffer x hlt
    · obtain ⟨y, rfl⟩ := Nat.exists_eq_add_of_le hge
      rw [copyTo_add (by omega), hbuf y (by omega), ← hpos, Nat.add_assoc]

include hw in
/-- The pointer of a block of the file. -/
theorem Standing.pointer (h : Standing g d₀ heap num n c size p fd)
    (hvalid : fd.isBlkValid = true) :
    dbp fd.inode fd.blki = handedOut g d₀ heap num fd.blki ∧
      handedOut g d₀ heap num fd.blki ≠ 0 := by
  have hfew := h.few
  rw [Fd.blocks_valid hvalid] at hfew
  refine ⟨?_, (hw.found fd.blki (by omega)).1⟩
  rw [h.pointers _ h.below, Fd.blocks_valid hvalid, if_pos (by omega)]

include hv hw

/-- A block is allocated for a descriptor that has none. -/
theorem Standing.allocate (h : Standing g d₀ heap num n c size p fd)
    (hd : OnDisk g d₀ heap num c fd.blocks fd.blki d) (hinvalid : fd.isBlkValid = false)
    (hlt : fd.blki < n) :
    ∃ fd' d', allocDataBlock g d heap fd = some (fd', d') ∧
      Standing g d₀ heap num n c size p fd' ∧ OnDisk g d₀ heap num c fd'.blocks fd'.blki d' ∧
      fd'.isBlkValid = true ∧ fd'.byteaddr = 0 := by
  have hbelow := h.below
  have htotal := g.sb.blocksTotal_lt
  obtain ⟨-, hinside⟩ := hw.found fd.blki hlt
  rw [Fd.blocks_invalid hinvalid] at hd
  have hfind : findUnallocBlock g d heap (pred32 fd.inodeNum / g.sb.inodesPerGroup) =
      handedOut g d₀ heap num fd.blki := by
    rw [h.number]
    exact findUnallocBlock_congr hd.bitmaps hw.group
  have hsome : handedOut g d₀ heap num fd.blki ≠ noBlock := by
    unfold noBlock
    omega
  have halloc : allocDataBlock g d heap fd = some ({ fd with
      inode := setDbp fd.inode fd.blki (handedOut g d₀ heap num fd.blki)
      isBlkValid := true },
      writeInode g (markAllocBlock g d heap (handedOut g d₀ heap num fd.blki)) heap num
        (setDbp fd.inode fd.blki (handedOut g d₀ heap num fd.blki))) := by
    unfold allocDataBlock
    dsimp only
    rw [hfind, if_neg hsome, writeInodeBlockPointer_direct hbelow, h.number]
  refine ⟨_, _, halloc, ⟨h.number, h.position, h.inside, nofun, hbelow, hlt,
    fun j hj => ?_, ?_, h.buffer⟩, ?_, rfl, h.fresh hinvalid⟩
  · have hptr := h.pointers j hj
    rw [Fd.blocks_invalid hinvalid] at hptr
    show dbp (setDbp fd.inode fd.blki (handedOut g d₀ heap num fd.blki)) j =
      if j < fd.blki + 1 then _ else 0
    rw [dbp_setDbp (by omega), hptr]
    by_cases hsame : j = fd.blki
    · rw [hsame, if_pos rfl, if_pos (by omega)]
    · rw [if_neg hsame]
      exact if_congr (by omega) rfl rfl
  · show inodeSize (setDbp fd.inode fd.blki (handedOut g d₀ heap num fd.blki)) = size
    rw [inodeSize_setDbp hbelow]
    exact h.size
  · exact (hd.mark hw hlt le_rfl).writeInode hv hw (by omega) (by omega) _

omit hv in
/-- A full block is written out, and there is no next one yet. -/
theorem Standing.flush (h : Standing g d₀ heap num n c size p fd)
    (hd : OnDisk g d₀ heap num c fd.blocks fd.blki d) (hvalid : fd.isBlkValid = true)
    (hend : fd.byteaddr = g.sb.blockSize) (hlt : fd.blki + 1 < n) :
    ∃ fd' d', nextDataBlock g d fd = (false, fd', d') ∧
      Standing g d₀ heap num n c size p fd' ∧ OnDisk g d₀ heap num c fd'.blocks fd'.blki d' ∧
      fd'.isBlkValid = false := by
  have hdirect := hw.direct
  obtain ⟨hptr, hne⟩ := h.pointer hw hvalid
  have hwrite : writeInodeData g.sb d fd.inode fd.blki fd.blkbuf =
      (writeBlock g.sb d (handedOut g d₀ heap num fd.blki) fd.blkbuf, fd.blkbuf) := by
    rw [writeInodeData_direct h.below (hptr ▸ hne), hptr]
  have hwrap : u32 (fd.blki + 1) = fd.blki + 1 := Nat.mod_eq_of_lt (by omega)
  have hnext : dbp fd.inode (fd.blki + 1) = 0 := by
    rw [h.pointers _ (by omega), Fd.blocks_valid hvalid, if_neg (by omega)]
  have hread : ∀ d, readInodeData g.sb d fd.inode (fd.blki + 1) fd.blkbuf = (false, fd.blkbuf) :=
    fun d => by rw [readInodeData_direct (by omega), if_pos hnext]
  set next : Fd := { fd with
    blki := fd.blki + 1
    byteaddr := 0
    isBlkValid := false }
  have hstep : nextDataBlock g d fd =
      (false, next, writeBlock g.sb d (handedOut g d₀ heap num fd.blki) fd.blkbuf) := by
    unfold nextDataBlock
    rw [if_pos hend, hwrite, hwrap]
    dsimp only
    rw [hread]
    rfl
  have hblocks := Fd.blocks_valid hvalid
  have hpos := h.position
  rw [hblocks] at hd
  have hstand : Standing g d₀ heap num n c size p next := by
    refine ⟨h.number, ?_, Nat.zero_le _, fun _ => rfl, show fd.blki + 1 < 12 by omega,
      show fd.blki + 1 ≤ n by omega, ?_, h.size, fun x hx => absurd hx (Nat.not_lt_zero x)⟩
    · show (fd.blki + 1) * g.sb.blockSize + 0 = p
      rw [Nat.succ_mul]
      omega
    · have hsame : next.blocks = fd.blocks := (Fd.blocks_invalid rfl).trans hblocks.symm
      rw [hsame]
      exact h.pointers
  have hdata : OnDisk g d₀ heap num c (fd.blki + 1) fd.blki
      (writeBlock g.sb d (handedOut g d₀ heap num fd.blki) fd.blkbuf) :=
    hd.data hw (by omega) (Nat.lt_succ_self _) le_rfl
  refine ⟨next, _, hstep, hstand, ⟨hdata.bitmaps, fun j hj hlast x hx => ?_, hdata.marks,
    hdata.kept⟩, rfl⟩
  rcases Nat.lt_or_ge j fd.blki with hj' | hj'
  · exact hdata.stored j hj' hlast x hx
  · obtain rfl : j = fd.blki := Nat.le_antisymm (Nat.le_of_lt_succ hj) hj'
    rw [writeBlock_add hx]
    exact h.buffer x (by omega)

/-- Before it copies, the loop stands inside a block of the file. -/
theorem Standing.enter (h : Standing g d₀ heap num n c size p fd)
    (hd : OnDisk g d₀ heap num c fd.blocks fd.blki d) (hp : p < n * g.sb.blockSize)
    (hready : fd.isBlkValid = true → fd.byteaddr ≠ g.sb.blockSize) :
    ∃ fd' d',
      (if fd.isBlkValid then some (fd, d) else allocDataBlock g d heap fd) = some (fd', d') ∧
      nextDataBlock g d' fd' = (true, fd', d') ∧ Standing g d₀ heap num n c size p fd' ∧
      OnDisk g d₀ heap num c fd'.blocks fd'.blki d' ∧ fd'.isBlkValid = true ∧
      fd'.byteaddr < g.sb.blockSize := by
  have hnext : ∀ {fd d}, fd.byteaddr ≠ g.sb.blockSize → nextDataBlock g d fd = (true, fd, d) := by
    intro fd d hne
    rw [nextDataBlock, if_neg hne]
  have hpos := h.position
  by_cases hvalid : fd.isBlkValid = true
  · have hne := hready hvalid
    have hinside := h.inside
    exact ⟨fd, d, if_pos hvalid, hnext hne, h, hd, hvalid, by omega⟩
  · have hinvalid : fd.isBlkValid = false := Bool.eq_false_of_not_eq_true hvalid
    have hlt : fd.blki < n := Nat.lt_of_mul_lt_mul_right (a := g.sb.blockSize) (by omega)
    obtain ⟨fd', d', halloc, h', hd', hvalid', hzero⟩ := h.allocate hv hw hd hinvalid hlt
    have hblock : 0 < g.sb.blockSize := Nat.pos_of_ne_zero fun hnone => by
      rw [hnone, Nat.mul_zero] at hp
      omega
    exact ⟨fd', d', (if_neg hvalid).trans halloc, hnext (by omega), h', hd', hvalid', by omega⟩

omit hv hw in
theorem writeLoop_next {s : Fd × Bytes} {fuel : Nat} (hleft : left ≠ 0)
    (hs : (if fd.isBlkValid then some (fd, d) else allocDataBlock g d heap fd) = some s) :
    writeLoop g heap count (fuel + 1) d fd buf left =
      let n := nextDataBlock g s.2 s.1
      if n.1 = false then writeLoop g heap count fuel n.2.2 n.2.1 buf left
      else
        let tocopy := min left (g.sb.blockSize - n.2.1.byteaddr)
        writeLoop g heap count fuel n.2.2 { n.2.1 with
          blkbuf := copyTo n.2.1.blkbuf n.2.1.byteaddr buf tocopy
          byteaddr := n.2.1.byteaddr + tocopy } (fun i => buf (tocopy + i)) (left - tocopy) := by
  rw [writeLoop, if_neg hleft, hs]

/-- The loop copies all that is left, and ends with the last block in the buffer. -/
theorem Standing.loop (count : Nat) {fuel : Nat} (h : Standing g d₀ heap num n c size p fd)
    (hd : OnDisk g d₀ heap num c fd.blocks fd.blki d) (hroom : p + left ≤ n * g.sb.blockSize)
    (hused : fd.isBlkValid = true → 0 < fd.byteaddr) (hbuf : ∀ x < left, buf x = c (p + x))
    (hfuel : 2 * left + fd.isBlkValid.toNat < fuel) :
    ∃ fd' d', writeLoop g heap count fuel d fd buf left = some (count,
        growFile g (writeInodeData g.sb d' fd'.inode fd'.blki fd'.blkbuf).1 heap { fd' with
          blkbuf := (writeInodeData g.sb d' fd'.inode fd'.blki fd'.blkbuf).2 } count) ∧
      Standing g d₀ heap num n c size (p + left) fd' ∧
      OnDisk g d₀ heap num c fd'.blocks fd'.blki d' ∧
      (fd'.isBlkValid = true → 0 < fd'.byteaddr) := by
  -- the flush of a full block copies nothing, but the next block is not valid after it
  induction fuel generalizing left p fd d buf with
  | zero => omega
  | succ fuel ih =>
      by_cases hzero : left = 0
      · subst hzero
        exact ⟨fd, d, by rw [writeLoop, if_pos rfl], h, hd, hused⟩
      · by_cases hfull : fd.isBlkValid = true ∧ fd.byteaddr = g.sb.blockSize
        · obtain ⟨hvalid, hend⟩ := hfull
          have hpos := h.position
          have hlt : fd.blki + 1 < n := by
            refine Nat.lt_of_mul_lt_mul_right (a := g.sb.blockSize) ?_
            rw [Nat.succ_mul]
            omega
          obtain ⟨fd', d', hnext, h', hd', hinvalid⟩ := h.flush hw hd hvalid hend hlt
          have hless : 2 * left + fd'.isBlkValid.toNat < fuel := by
            rw [hinvalid, Bool.toNat_false]
            rw [hvalid, Bool.toNat_true] at hfuel
            omega
          obtain ⟨fd'', d'', hrun, hrest⟩ := ih h' hd' hroom (fun hvalid' => by
            rw [hinvalid] at hvalid'
            cases hvalid') hbuf hless
          refine ⟨fd'', d'', ?_, hrest⟩
          rw [writeLoop_next hzero (if_pos hvalid)]
          simp only [hnext, if_true]
          exact hrun
        · obtain ⟨fd', d', hs, hnext, h', hd', hvalid, hlt⟩ :=
            h.enter hv hw hd (by omega) fun hvalid hend => hfull ⟨hvalid, hend⟩
          set t := min left (g.sb.blockSize - fd'.byteaddr) with ht
          have hcopy := h'.copy hvalid (t := t) (by omega) fun x hx => hbuf x (by omega)
          have hless : 2 * (left - t) + fd'.isBlkValid.toNat < fuel := by
            have := Bool.toNat_le fd'.isBlkValid
            omega
          have hshift : ∀ x < left - t, (fun i => buf (t + i)) x = c (p + t + x) := fun x hx => by
            rw [Nat.add_assoc]
            exact hbuf (t + x) (by omega)
          obtain ⟨fd'', d'', hrun, h'', hrest⟩ := ih hcopy hd' (by omega)
            (fun _ => show 0 < fd'.byteaddr + t by omega) hshift hless
          refine ⟨fd'', d'', ?_, ?_, hrest⟩
          · rw [writeLoop_next hzero hs]
            simp only [hnext, if_neg (show ¬ (true = false) by decide)]
            exact hrun
          · rwa [show p + t + (left - t) = p + left by omega] at h''

end Loop

section Calls

/-- After a call the first `p` bytes of the file stand on the medium, and its inode. -/
structure StoredFile (g : Gdata) (d₀ heap : Bytes) (num : Nat) (c : Nat → Byte) (p : Nat) (fd : Fd)
    (d : Bytes) : Prop where
  used : fd.isBlkValid = true → 0 < fd.byteaddr
  inode : ∀ k < 128, slot g d num k = fd.inode k
  bytes : ∀ j, Unrepeated g d₀ heap num j fd.blocks →
    ∀ x < g.sb.blockSize, j * g.sb.blockSize + x < p →
    d (blockStart g.sb (handedOut g d₀ heap num j) + x) = c (j * g.sb.blockSize + x)

variable {size : Nat}

theorem lt_of_lt_dataBlocks {k : Nat} (hpos : 0 < sb.blockSize) (h : k < dataBlocks sb size) :
    k * sb.blockSize < size := by
  unfold dataBlocks at h
  rw [Nat.lt_div_iff_mul_lt hpos] at h
  omega

/-- The block of a byte that is written, and where the descriptor has it. -/
theorem Standing.place (h : Standing g d₀ heap num n c size p fd) {x : Nat}
    (hp : j * g.sb.blockSize + x < p) :
    j < fd.blocks ∧ (j < fd.blki ∨ j = fd.blki ∧ x < fd.byteaddr) := by
  have hpos := h.position
  have hinside := h.inside
  rcases Nat.lt_trichotomy j fd.blki with hlt | rfl | hgt
  · exact ⟨hlt.trans_le (Nat.le_add_right _ _), .inl hlt⟩
  · have hvalid : fd.isBlkValid = true := by
      by_contra hne
      have := h.fresh (Bool.eq_false_of_not_eq_true hne)
      omega
    rw [Fd.blocks_valid hvalid]
    exact ⟨Nat.lt_succ_self _, .inr ⟨rfl, by omega⟩⟩
  · have hmul := Nat.mul_le_mul_right g.sb.blockSize (Nat.succ_le_of_lt hgt)
    rw [Nat.succ_mul] at hmul
    omega

/-- Writes one after the other: what they return, and the medium. -/
def writeChunks (g : Gdata) (fuel : Nat) (heap : Bytes) :
    Bytes → Fd → List (Bytes × Nat) → Option (List Nat × Bytes)
  | d, _, [] => some ([], d)
  | d, fd, (buf, count) :: rest =>
      (write g fuel d heap fd buf count).bind fun r =>
        (writeChunks g fuel heap r.2.2 r.2.1 rest).map fun rs => (r.1 :: rs.1, rs.2)

/-- Byte `q` of the blocks that the search hands out, one behind the other. -/
def blockByte (g : Gdata) (d₀ heap : Bytes) (num : Nat) (d : Bytes) (q : Nat) : Byte :=
  d (blockStart g.sb (handedOut g d₀ heap num (q / g.sb.blockSize)) + q % g.sb.blockSize)

/-- The bytes of the writes one behind the other. -/
def written (chunks : List (Bytes × Nat)) : List Byte :=
  chunks.flatMap fun chunk => taken chunk.1 chunk.2

theorem length_taken (m : Bytes) (n : Nat) : (taken m n).length = n := by
  unfold taken
  rw [List.length_map, List.length_range]

theorem getD_taken {m : Bytes} {x : Nat} (hx : x < n) : (taken m n).getD x 0 = m x := by
  simp [taken, hx]

theorem length_written (chunks : List (Bytes × Nat)) :
    (written chunks).length = (chunks.map Prod.snd).sum := by
  induction chunks with
  | nil => rfl
  | cons chunk rest ih =>
      rw [List.map_cons, List.sum_cons, ← ih, written, List.flatMap_cons, List.length_append,
        length_taken]
      rfl

theorem taken_getD (bs : List Byte) : taken (fun x => bs.getD x 0) bs.length = bs := by
  refine List.ext_getElem (length_taken _ _) fun x hx hx' => ?_
  simp [taken, hx']

theorem writeLoop_steady (d : Bytes) (fd : Fd) (buf : Bytes) (left : Nat) :
    Steady fun fuel => writeLoop g heap count fuel d fd buf left := by
  intro fuel
  induction fuel generalizing d fd buf left with
  | zero => exact Below.none _
  | succ fuel ih =>
      dsimp only
      rw [writeLoop, writeLoop]
      by_cases hzero : left = 0
      · rw [if_pos hzero, if_pos hzero]
        exact Below.refl _
      · rw [if_neg hzero, if_neg hzero]
        generalize (if fd.isBlkValid then some (fd, d) else allocDataBlock g d heap fd) = s
        cases s with
        | none => exact Below.refl _
        | some s =>
            dsimp only
            split
            · exact ih _ _ _ _
            · exact ih _ _ _ _

variable (hv : Volume g total d₀ dirs) (hw : Writable g total d₀ heap dirs num n)
include hv hw

omit hv in
/-- The block in the buffer is written where it has a pointer. -/
theorem Standing.writeLast (h : Standing g d₀ heap num n c size p fd)
    (hd : OnDisk g d₀ heap num c fd.blocks fd.blki d) :
    ∃ d', writeInodeData g.sb d fd.inode fd.blki fd.blkbuf = (d', fd.blkbuf) ∧
      OnDisk g d₀ heap num c fd.blocks fd.blki d' ∧ ∀ x < fd.byteaddr, x < g.sb.blockSize →
        d' (blockStart g.sb (handedOut g d₀ heap num fd.blki) + x) =
          c (fd.blki * g.sb.blockSize + x) := by
  have hfew := h.few
  have hbelow := h.below
  by_cases hvalid : fd.isBlkValid = true
  · obtain ⟨hptr, hne⟩ := h.pointer hw hvalid
    have hblocks := Fd.blocks_valid hvalid
    rw [writeInodeData_direct hbelow (hptr ▸ hne), hptr]
    refine ⟨_, rfl, hd.data hw hfew (by omega) le_rfl, fun x hx hlt => ?_⟩
    rw [writeBlock_add hlt]
    exact h.buffer x hx
  · have hinvalid : fd.isBlkValid = false := Bool.eq_false_of_not_eq_true hvalid
    have hnone : dbp fd.inode fd.blki = 0 := by
      rw [h.pointers _ hbelow, Fd.blocks_invalid hinvalid, if_neg (Nat.lt_irrefl _)]
    rw [writeInodeData, getInodePointer_direct hbelow, if_pos hnone]
    have hzero := h.fresh hinvalid
    exact ⟨_, rfl, hd, fun x hx => by omega⟩

/-- At its end a call writes the last block and the inode. -/
theorem Standing.finish (count : Nat) (h : Standing g d₀ heap num n c size p fd)
    (hd : OnDisk g d₀ heap num c fd.blocks fd.blki d)
    (hused : fd.isBlkValid = true → 0 < fd.byteaddr) (hsize : size + 2 * count < 2 ^ 32) :
    ∃ fd' d', growFile g (writeInodeData g.sb d fd.inode fd.blki fd.blkbuf).1 heap { fd with
        blkbuf := (writeInodeData g.sb d fd.inode fd.blki fd.blkbuf).2 } count = (fd', d') ∧
      Standing g d₀ heap num n c (size + count) p fd' ∧
      OnDisk g d₀ heap num c fd'.blocks fd'.blki d' ∧ StoredFile g d₀ heap num c p fd' d' := by
  have hfew := h.few
  have hpos := h.position
  have hbelow := h.below
  obtain ⟨d₁, hwrite, hd₁, hlast⟩ := h.writeLast hw hd
  have hblki : fd.blki ≤ fd.blocks := Nat.le_add_right _ _
  have hnumber := h.number
  rw [hwrite]
  refine ⟨_, _, rfl, ⟨hnumber, hpos, h.inside, h.fresh, hbelow, hfew, fun j hj => ?_, ?_, h.buffer⟩,
    ?_, ?_⟩
  · exact (dbp_addInodeSize hj).trans (h.pointers j hj)
  · have hold := h.size
    show inodeSize (addInodeSize fd.inode count) = size + count
    rw [inodeSize_addInodeSize (by omega), hold]
  · show OnDisk g d₀ heap num c fd.blocks fd.blki
      (writeInode g d₁ heap fd.inodeNum (addInodeSize fd.inode count))
    rw [hnumber]
    exact hd₁.writeInode hv hw hfew (by omega) _
  · show StoredFile g d₀ heap num c p { fd with
      blkbuf := fd.blkbuf
      inode := addInodeSize fd.inode count }
      (writeInode g d₁ heap fd.inodeNum (addInodeSize fd.inode count))
    rw [hnumber]
    refine ⟨hused, writeInode_inside hv.inodes hw.tabled _, fun j hlast' x hx hp => ?_⟩
    have hj := h.place hp
    obtain ⟨hnum, hnumt⟩ := hw.number
    rw [writeInode_outside hv.inodes hw.tabled _
      (hw.outsideSlots j (by omega) _ (inBlock_add hx) num hnum hnumt)]
    rcases hj.2 with hlt | ⟨rfl, hlt⟩
    · exact hd₁.stored j hlt hlast' x hx
    · exact hlast x hlt hx

/-- The calls return their counts, and the file then holds what they have written. -/
theorem Standing.writeChunks (chunks : List (Bytes × Nat)) (h : Standing g d₀ heap num n c p p fd)
    (hd : OnDisk g d₀ heap num c fd.blocks fd.blki d)
    (hs : StoredFile g d₀ heap num c p fd d)
    (hroom : p + (chunks.map Prod.snd).sum ≤ n * g.sb.blockSize)
    (hsize : 2 * (p + (chunks.map Prod.snd).sum) < 2 ^ 32)
    (hc : ∀ x < (chunks.map Prod.snd).sum, c (p + x) = (written chunks).getD x 0) :
    ∃ fd' d',
      Returns (fun fuel => Fs.writeChunks g fuel heap d fd chunks) (chunks.map Prod.snd, d') ∧
      Standing g d₀ heap num n c (p + (chunks.map Prod.snd).sum)
        (p + (chunks.map Prod.snd).sum) fd' ∧
      OnDisk g d₀ heap num c fd'.blocks fd'.blki d' ∧
      StoredFile g d₀ heap num c (p + (chunks.map Prod.snd).sum) fd' d' := by
  induction chunks generalizing p fd d with
  | nil => exact ⟨fd, d, Returns.const _, h, hd, hs⟩
  | cons chunk rest ih =>
      obtain ⟨buf, count⟩ := chunk
      simp only [List.map_cons, List.sum_cons] at hroom hsize hc ⊢
      have hwritten : written ((buf, count) :: rest) = taken buf count ++ written rest := rfl
      rw [hwritten] at hc
      have hbuf : ∀ x < count, buf x = c (p + x) := by
        intro x hx
        rw [hc x (by omega), List.getD_append _ _ _ _ (by rwa [length_taken]), getD_taken hx]
      obtain ⟨fd₁, d₁, hrun, h₁, hd₁, hused⟩ := h.loop hv hw count hd (by omega) hs.used hbuf
        (Nat.lt_succ_self _)
      obtain ⟨fd₂, d₂, hend, h₂, hd₂, hs₂⟩ := h₁.finish hv hw count hd₁ hused (by omega)
      rw [hend] at hrun
      have hwrite := (writeLoop_steady d fd buf count).returns _ hrun
      obtain ⟨fd', d', hrest, hstands⟩ := ih h₂ hd₂ hs₂ (by omega) (by omega) fun x hx => by
        rw [Nat.add_assoc, hc (count + x) (by omega),
          List.getD_append_right _ _ _ _ (by rw [length_taken]; omega), length_taken,
          Nat.add_sub_cancel_left]
      refine ⟨fd', d', Returns.bind hwrite (hrest.map _), ?_⟩
      rwa [Nat.add_assoc] at hstands

/-- The directories are as before. -/
theorem OnDisk.volume {i full : Nat} (h : OnDisk g d₀ heap num c i full d) (hi : i ≤ n) :
    Volume g total d dirs := by
  obtain ⟨hnum, hnumt⟩ := hw.number
  refine hv.congr (fun num' blocks hb k hk => ?_) fun num' blocks hb a ha => ?_
  · obtain ⟨hpos, hle⟩ := hv.number num' blocks hb
    have hne : num' ≠ num := by
      rintro rfl
      rw [hw.file] at hb
      cases hb
    refine dbp_congr (slot_congr hv.inodes.size fun a ha => ?_) hk
    exact h.kept a (ha.apart hv.inodes hpos hle hnum hnumt hne) fun j hj =>
      ⟨fun hin => hw.outsideSlots j (by omega) a hin num' hpos hle ha,
        fun heq => hv.marksInSlots a (heq ▸ hw.isMark (by omega)) num' hpos hle ha⟩
  · exact h.kept a (hv.slots num' blocks hb a ha num hnum hnumt) fun j hj =>
      ⟨fun hin => hw.outsideDirs j (by omega) a hin num' blocks hb ha,
        fun heq => hv.marksInDirs a (heq ▸ hw.isMark (by omega)) num' blocks hb ha⟩

omit hv in
/-- The pointer of a block that holds a byte of the file. -/
theorem Standing.dbp {k : Nat} (h : Standing g d₀ heap num n c size p fd)
    (hk : k * g.sb.blockSize < p) :
    k < fd.blocks ∧ Fs.dbp fd.inode k = handedOut g d₀ heap num k := by
  have hdirect := hw.direct
  have hfew := h.few
  obtain ⟨hlt, -⟩ := h.place (x := 0) hk
  rw [h.pointers k (by omega), if_pos hlt]
  exact ⟨hlt, rfl⟩

omit hv in
/-- The file has a block for each byte, and no other. -/
theorem StoredFile.blocks_iff {k : Nat} (hs : StoredFile g d₀ heap num c p fd d)
    (h : Standing g d₀ heap num n c size p fd) : k < fd.blocks ↔ k * g.sb.blockSize < p := by
  refine ⟨fun hk => ?_, fun hk => (h.place (x := 0) hk).1⟩
  have hpos := h.position
  have hblock : 0 < g.sb.blockSize := Nat.zero_lt_of_lt hw.tabled
  by_cases hvalid : fd.isBlkValid = true
  · have hused := hs.used hvalid
    rw [Fd.blocks_valid hvalid] at hk
    have hmul := Nat.mul_le_mul_right g.sb.blockSize (Nat.le_of_lt_succ hk)
    omega
  · rw [Fd.blocks_invalid (Bool.eq_false_of_not_eq_true hvalid)] at hk
    have hmul := Nat.mul_le_mul_right g.sb.blockSize (Nat.succ_le_of_lt hk)
    rw [Nat.succ_mul] at hmul
    omega

omit hv in
/-- A read finds the blocks of the file one behind the other. -/
theorem Standing.filled (h : Standing g d₀ heap num n c p p fd) (hp : p < 2 ^ 32)
    (hinode : ∀ k < 128, inode k = fd.inode k) (tail : Bytes) :
    Filled g.sb d inode tail ∧
      fileData g.sb d inode tail = taken (blockByte g d₀ heap num d) p := by
  have hdirect := hw.direct
  have hfew := h.few
  have hblock : 0 < g.sb.blockSize := Nat.zero_lt_of_lt hw.tabled
  have hsize : inodeSize inode = p := (inodeSize_congr hinode).trans h.size
  have hpointer : ∀ k, k * g.sb.blockSize < p →
      pointerOf g.sb d inode tail k = handedOut g d₀ heap num k := by
    intro k hk
    obtain ⟨hlt, hptr⟩ := h.dbp hw hk
    rw [pointerOf, getInodePointer_direct (by omega), dbp_congr hinode (by omega), hptr]
  refine ⟨⟨hblock, by omega, fun k hk => ?_⟩, ?_⟩
  · have hk : k * g.sb.blockSize < p := lt_of_lt_dataBlocks hblock (hsize ▸ hk)
    obtain ⟨hlt, -⟩ := h.dbp hw hk
    rw [hpointer k hk]
    exact (hw.found k (by omega)).1
  · rw [fileData_eq hblock, hsize]
    refine taken_congr fun q hq => ?_
    have hdiv := Nat.div_add_mod' q g.sb.blockSize
    rw [fileByte, hpointer _ (by omega), blockByte]

end Calls

section File

def fsOpenWrite : Nat := 2

/-- Opened for writing, the file takes the writes and leaves `d'`. -/
def Writes (g : Gdata) (d heap : Bytes) (num : Nat) (fd : OpenFd) (out blkbuf : Bytes)
    (chunks : List (Bytes × Nat)) (d' : Bytes) : Prop :=
  ∃ fd', Returns (fun fuel => openFound g fuel d heap fd num (readInode g d heap num out) blkbuf
      fsOpenWrite) (fd', d) ∧
    Returns (fun fuel => writeChunks g fuel heap d fd'.toFd chunks) (chunks.map Prod.snd, d')

/-- Opened for reading, the file gives the bytes `bs` to reads of any sizes. -/
def ReadsBack (g : Gdata) (d : Bytes) (num : Nat) (bs : List Byte) : Prop :=
  ∀ (fd : OpenFd) (heap out blkbuf : Bytes) (reads : List (Bytes × Nat)), ∃ fd' rs,
    Returns (fun fuel => openFound g fuel d heap fd num (readInode g d heap num out) blkbuf
      fsOpenRead) (fd', d) ∧
    Returns (fun fuel => readChunks g.sb fuel d fd' reads) rs ∧
    rs.map Prod.fst = chunkSizes bs.length (reads.map Prod.snd) ∧
    rs.flatMap Prod.snd = bs.take (reads.map Prod.snd).sum

theorem Writes.unique {fd : OpenFd} {out blkbuf d₁ d₂ : Bytes} {chunks : List (Bytes × Nat)}
    (h : Writes g d heap num fd out blkbuf chunks d₁)
    (h' : Writes g d heap num fd out blkbuf chunks d₂) : d₁ = d₂ := by
  obtain ⟨fd₁, hopen, hrun⟩ := h
  obtain ⟨fd₂, hopen', hrun'⟩ := h'
  obtain rfl : fd₁ = fd₂ := congrArg Prod.fst (hopen.unique hopen')
  exact congrArg Prod.snd (hrun.unique hrun')

variable {fd : OpenFd} {out blkbuf : Bytes} {path : Path}

/-- The writes return, and the descriptor stands behind what they have written. -/
theorem Writable.writes (hv : Volume g total d dirs) (hw : Writable g total d heap dirs num n)
    (chunks : List (Bytes × Nat)) (hroom : (chunks.map Prod.snd).sum ≤ n * g.sb.blockSize)
    (hsize : 2 * (chunks.map Prod.snd).sum < 2 ^ 32)
    (hc : ∀ x < (chunks.map Prod.snd).sum, c x = (written chunks).getD x 0) :
    ∃ fd' d', Writes g d heap num fd out blkbuf chunks d' ∧
      Standing g d heap num n c (chunks.map Prod.snd).sum (chunks.map Prod.snd).sum fd' ∧
      OnDisk g d heap num c fd'.blocks fd'.blki d' ∧
      StoredFile g d heap num c (chunks.map Prod.snd).sum fd' d' := by
  have hsame : ∀ k < 128, readInode g d heap num out k = slot g d num k :=
    slot_readInode hv.inodes out
  have hempty : ∀ j < 12, dbp (readInode g d heap num out) j = 0 := fun j hj =>
    (dbp_congr hsame hj).trans (hw.pointers j hj)
  set fd₀ : OpenFd := ⟨⟨num, readInode g d heap num out, blkbuf, 0, 0, false⟩, false⟩ with hfd₀
  have hopen : ∀ fuel, openFound g fuel d heap fd num (readInode g d heap num out) blkbuf
      fsOpenWrite = some (fd₀, d) := by
    intro fuel
    have hptr := @getInodePointer_direct g.sb d (readInode g d heap num out) blkbuf 0 (by decide)
    rw [hempty 0 (by decide)] at hptr
    simp [openFound, openPtr, fsOpenWrite, hptr, hfd₀, Nat.testBit]
  have hstart : Standing g d heap num n c 0 0 fd₀.toFd := by
    refine ⟨rfl, Nat.zero_mul _, Nat.zero_le _, fun _ => rfl, show 0 < 12 by decide, Nat.zero_le _,
      hempty, ?_, fun x hx => absurd hx (Nat.not_lt_zero x)⟩
    exact (inodeSize_congr hsame).trans hw.size
  have hdisk : OnDisk g d heap num c 0 0 d := ⟨fun _ _ => rfl,
    fun j hj => absurd hj (Nat.not_lt_zero j), fun j hj => absurd hj (Nat.not_lt_zero j),
    fun _ _ _ => rfl⟩
  have hstored : StoredFile g d heap num c 0 fd₀.toFd d := ⟨nofun, fun k hk => (hsame k hk).symm,
    fun j _ x _ hlt => absurd hlt (Nat.not_lt_zero _)⟩
  obtain ⟨fd', d', hrun, hend⟩ := hstart.writeChunks hv hw chunks hdisk hstored
    (by omega) (by omega) fun x hx => by rw [Nat.zero_add, hc x hx]
  rw [Nat.zero_add] at hend
  exact ⟨fd', d', ⟨fd₀, ⟨0, fun fuel _ => hopen fuel⟩, hrun⟩, hend⟩

/-- Where no block is repeated, the blocks hold what was written. -/
theorem StoredFile.taken {fd : Fd} {p : Nat} (hs : StoredFile g d₀ heap num c p fd d)
    (hw : Writable g total d₀ heap dirs num n) (h : Standing g d₀ heap num n c p p fd)
    (hlast : ∀ j, Unrepeated g d₀ heap num j (dataBlocks g.sb p)) :
    Fs.taken (blockByte g d₀ heap num d) p = Fs.taken c p := by
  have hblock : 0 < g.sb.blockSize := Nat.zero_lt_of_lt hw.tabled
  refine taken_congr fun q hq => ?_
  have hdiv := Nat.div_add_mod' q g.sb.blockSize
  have hplace : Unrepeated g d₀ heap num (q / g.sb.blockSize) fd.blocks := fun k hk =>
    hlast _ k (dataBlocks_lt hblock ((hs.blocks_iff hw h).mp hk))
  have hbyte := hs.bytes _ hplace _ (Nat.mod_lt q hblock) (by omega)
  rwa [hdiv] at hbyte

/-- Where a block is handed out again, a byte of it goes to the later one. -/
theorem StoredFile.overwritten {fd : Fd} {p j k : Nat} (hs : StoredFile g d₀ heap num c p fd d)
    (hw : Writable g total d₀ heap dirs num n) (h : Standing g d₀ heap num n c p p fd) (hjk : j < k)
    (hk : k * g.sb.blockSize < p)
    (heq : blockStart g.sb (handedOut g d₀ heap num k) =
      blockStart g.sb (handedOut g d₀ heap num j)) :
    ∃ m > j, blockByte g d₀ heap num d (j * g.sb.blockSize) = c (m * g.sb.blockSize) := by
  have hblock : 0 < g.sb.blockSize := Nat.zero_lt_of_lt hw.tabled
  have hlt := (hs.blocks_iff hw h).mpr hk
  -- the last of the blocks at this place
  set same : Nat → Prop := fun k =>
    blockStart g.sb (handedOut g d₀ heap num k) = blockStart g.sb (handedOut g d₀ heap num j)
  have hsame : same (Nat.findGreatest same (fd.blocks - 1)) :=
    Nat.findGreatest_spec (P := same) (by omega : k ≤ fd.blocks - 1) heq
  have hge : k ≤ Nat.findGreatest same (fd.blocks - 1) :=
    Nat.le_findGreatest (by omega) heq
  have hle := Nat.findGreatest_le (P := same) (fd.blocks - 1)
  set m := Nat.findGreatest same (fd.blocks - 1) with hm
  refine ⟨m, by omega, ?_⟩
  have hlast : Unrepeated g d₀ heap num m fd.blocks := fun l hl hml hplace =>
    Nat.findGreatest_is_greatest (P := same) (hm ▸ hml) (by omega) (hplace.trans hsame)
  have hbyte := hs.bytes m hlast 0 hblock ((hs.blocks_iff hw h).mp (by omega))
  rw [Nat.add_zero, Nat.add_zero, hsame] at hbyte
  rw [blockByte, Nat.mul_div_cancel _ hblock, Nat.mul_mod_left, Nat.add_zero]
  exact hbyte

/-- The file `"b"` of `wideTwoNames`. -/
theorem wideSecond_writable : Writable wideGroup 32 wideTwoNames blankMedium
    (wideTable (rootOnly [firstName, wideSecond])) 17 2 := by
  have hfound : ∀ j < 2, handedOut wideGroup wideTwoNames blankMedium 17 j = 6 := by decide +kernel
  have hsize : wideGroup.sb.blockSize = 4096 := show u32 (1024 * 2 ^ 2) = 4096 by decide
  have hsectors : wideGroup.sb.blockSectors = 8 := show u32 (1024 * 2 ^ 2) / 512 = 8 by decide
  have hplace : ∀ j < 2, ∀ a,
      InBlock wideGroup.sb (handedOut wideGroup wideTwoNames blankMedium 17 j) a →
      24576 ≤ a ∧ a < 28672 := by
    intro j hj a ha
    rw [hfound j hj] at ha
    unfold InBlock at ha
    rw [blockStart_wideGroup (by decide), hsize] at ha
    omega
  have hbitmaps : ∀ a, InBitmaps wideGroup a → a < 20480 := by
    rintro a ⟨bi, -, x, hx, k, hk, rfl⟩
    have hx : x < 1 := hx
    have haddr : (wideGroup.bt.groups bi).blockBitmapAddr = 3 := rfl
    unfold bitmapAddr ataSectorSize
    rw [hsectors, haddr]
    omega
  have hspare : Spare wideGroup 32 wideTwoNames blankMedium
      (wideTable (rootOnly [firstName, wideSecond])) 17 2 := by
    refine ⟨fun j hj => ?_, fun j hj a ha hmark => ?_, fun j hj a ha hbits => ?_,
      fun j hj a ha i hi hit hslot => ?_, fun j hj a ha num' blocks hb hdir => ?_,
      fun a ha i hi hit hslot => ?_⟩
    · rw [hfound j hj]
      decide
    · have hlow := isMark_wideGroup hmark
      have hhigh := hplace j hj a ha
      omega
    · have hlow := hbitmaps a hbits
      have hhigh := hplace j hj a ha
      omega
    · have hlow := inSlot_wideGroup hi hit hslot
      have hhigh := hplace j hj a ha
      omega
    · obtain ⟨hnum, rfl⟩ : num' = 2 ∧ [[firstName, wideSecond]] = blocks := by
        unfold wideTable rootOnly at hb
        split at hb
        · exact ⟨‹_›, Option.some.inj hb⟩
        · cases hb
      rw [hnum] at hdir
      have hhigh := wideTwoNames_root.inDir hdir
      have hlow := hplace j hj a ha
      omega
    · have hhigh := inSlot_wideGroup hi hit hslot
      have hlow := hbitmaps a ha
      omega
  exact ⟨hspare, by decide, by decide, by decide, by decide, by decide, by decide +kernel,
    by decide +kernel⟩

end File

end UntitledOs.Fs
