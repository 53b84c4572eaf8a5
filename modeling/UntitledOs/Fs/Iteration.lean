import UntitledOs.Fs.FileRead
import UntitledOs.Fs.PathLookup

/-!
# Iterating over a directory

`fs_ext2_iterate_dir_next` moves on before it returns: at the end of a block it has
already loaded the next one over the block of the entry it returns, and at the end of
the directory it goes back and turns the iterator off.  The entries ahead of an iterator
are the invariant.
-/

namespace UntitledOs.Fs

open UntitledOs.Lib

variable {sb : Superblock} {d inode tail pbuf stack : Bytes} {it : DirIterator}

/-- An entry of a directory.  A dead one has no name here. -/
structure DirRecord where
  inodeNum : Nat
  size : Nat
  name : List Byte
  name_le : name.length ≤ 255
  size_ge : direntSzWoName + name.length ≤ size

/-- The entry at offset `o` of a block. -/
structure RecordAt (sb : Superblock) (blk : Bytes) (o : Nat) (e : DirRecord) : Prop where
  inodeNum : deInodeNum (fun i => blk (o + i)) = e.inodeNum
  size : deEntrySz (fun i => blk (o + i)) = e.size
  length : e.inodeNum ≠ 0 → deNameLength sb (fun i => blk (o + i)) = e.name.length
  name : e.inodeNum ≠ 0 → ∀ i < e.name.length, blk (o + direntSzWoName + i) = e.name.getD i 0

/-- The entries fill the block from offset `o` to its end. -/
inductive BlockTiled (sb : Superblock) (blk : Bytes) : Nat → List DirRecord → Prop
  | last {o : Nat} {e : DirRecord} (here : RecordAt sb blk o e)
      (ends : o + e.size = sb.blockSize) : BlockTiled sb blk o [e]
  | more {o : Nat} {e : DirRecord} {es : List DirRecord} (here : RecordAt sb blk o e)
      (rest : BlockTiled sb blk (o + e.size) es) : BlockTiled sb blk o (e :: es)

/-- The logical blocks of a directory, each with its entries; `pbuf` is the buffer that
they are read into. -/
structure TiledDir (sb : Superblock) (d inode pbuf : Bytes) (blocks : List (List DirRecord)) :
    Prop where
  present : ∀ j < blocks.length, pointerOf sb d inode pbuf j ≠ 0
  ended : pointerOf sb d inode pbuf blocks.length = 0
  tiled : ∀ j (hj : j < blocks.length),
    BlockTiled sb (fun i => d (blockStart sb (pointerOf sb d inode pbuf j) + i)) 0 blocks[j]
  length_lt : blocks.length < 2 ^ 32

/-- The call number `n`, from 0 on, of `fs_ext2_iterate_dir_next`. -/
def dirCall (sb : Superblock) (d : Bytes) (it : DirIterator) : Nat → Bool × DirIterator
  | 0 => iterateDirNext sb d it
  | n + 1 => iterateDirNext sb d (dirCall sb d it n).2

/-- What `cur` says of an entry; the name of a live one ends with a zero. -/
structure Shows (cur : Bytes) (e : DirRecord) : Prop where
  inodeNum : deInodeNum cur = e.inodeNum
  size : deEntrySz cur = e.size
  name : e.inodeNum ≠ 0 → ∀ i < e.name.length, cur (direntSzWoName + i) = e.name.getD i 0
  closed : e.inodeNum ≠ 0 → cur (direntSzWoName + e.name.length) = 0

section Blocks

variable {blk blk' : Bytes} {o : Nat} {e : DirRecord} {es : List DirRecord}

theorem RecordAt.congr (h : RecordAt sb blk o e)
    (heq : ∀ i < direntSzWoName + e.name.length, blk' (o + i) = blk (o + i)) :
    RecordAt sb blk' o e := by
  have hfield : ∀ a n, a + n ≤ direntSzWoName →
      getLe (fun i => blk' (o + i)) a n = getLe (fun i => blk (o + i)) a n := by
    intro a n han
    exact getLe_congr fun i hi => heq (a + i) (by omega)
  have hlen : deNameLength sb (fun i => blk' (o + i)) = deNameLength sb fun i => blk (o + i) := by
    unfold deNameLength deNameLengthLo deTypeByte
    rw [hfield 6 1 (by decide), hfield 7 1 (by decide)]
  refine ⟨?_, ?_, fun hlive => ?_, fun hlive i hi => ?_⟩
  · rw [deInodeNum, hfield 0 4 (by decide)]
    exact h.inodeNum
  · rw [deEntrySz, hfield 4 2 (by decide)]
    exact h.size
  · rw [hlen]
    exact h.length hlive
  · rw [Nat.add_assoc, heq _ (by omega), ← Nat.add_assoc]
    exact h.name hlive i hi

theorem BlockTiled.fits (h : BlockTiled sb blk o es) : o + direntSzWoName ≤ sb.blockSize := by
  induction h with
  | last here ends =>
      rename_i e
      have := e.size_ge
      omega
  | more here rest ih => omega

theorem BlockTiled.congr (h : BlockTiled sb blk o es)
    (heq : ∀ i < sb.blockSize, blk' i = blk i) : BlockTiled sb blk' o es := by
  induction h with
  | last here ends =>
      rename_i e
      have hsize := e.size_ge
      exact .last (here.congr fun i hi => heq _ (by omega)) ends
  | more here rest ih =>
      rename_i e _
      have hsize := e.size_ge
      have hfits := rest.fits
      exact .more (here.congr fun i hi => heq _ (by omega)) ih

theorem BlockTiled.head (h : BlockTiled sb blk o (e :: es)) :
    RecordAt sb blk o e ∧ o + e.size ≤ sb.blockSize := by
  cases h with
  | last here ends => exact ⟨here, ends.le⟩
  | more here rest =>
      have hfits := rest.fits
      exact ⟨here, by omega⟩

end Blocks

section Load

variable {e : DirRecord}

theorem loadEntry_shows (hvalid : it.isValid = true) (h : RecordAt sb it.blkbuf it.byteaddr e) :
    Shows (loadEntry sb it).cur e ∧ (loadEntry sb it).isValid = true := by
  set head := copyTo it.cur 0 (fun i => it.blkbuf (it.byteaddr + i)) direntSzWoName with hhead
  have hfield : ∀ a n, a + n ≤ direntSzWoName →
      getLe head a n = getLe (fun i => it.blkbuf (it.byteaddr + i)) a n := by
    intro a n han
    have := @getLe_copyTo it.cur (fun i => it.blkbuf (it.byteaddr + i)) 0 a n direntSzWoName han
    rwa [Nat.zero_add] at this
  have hnum : deInodeNum head = e.inodeNum := (hfield 0 4 (by decide)).trans h.inodeNum
  have hsize : deEntrySz head = e.size := (hfield 4 2 (by decide)).trans h.size
  rw [loadEntry_eq]
  simp only [← hhead, hnum]
  by_cases hdead : e.inodeNum = 0
  · rw [if_pos hdead]
    exact ⟨⟨hnum, hsize, fun hlive => absurd hdead hlive, fun hlive => absurd hdead hlive⟩, hvalid⟩
  · have hlen : min (deNameLength sb head) 256 = e.name.length := by
      have hname : deNameLength sb head = e.name.length := by
        rw [← h.length hdead]
        unfold deNameLength deNameLengthLo deTypeByte
        rw [hfield 6 1 (by decide), hfield 7 1 (by decide)]
      have := e.name_le
      omega
    have hle := e.name_le
    have hkeep : ∀ i < direntSzWoName, setByte (copyTo head direntSzWoName
        (fun i => it.blkbuf (it.byteaddr + direntSzWoName + i)) e.name.length)
        (direntSzWoName + e.name.length) 0 i = head i := by
      intro i hi
      rw [setByte, if_neg (by omega), copyTo_of_lt hi]
    rw [if_neg hdead, hlen]
    refine ⟨⟨?_, ?_, fun _ i hi => ?_, fun _ => ?_⟩, by simp; omega⟩
    · rw [← hnum]
      exact getLe_congr fun i hi => hkeep _ (by unfold direntSzWoName; omega)
    · rw [← hsize]
      exact getLe_congr fun i hi => hkeep _ (by unfold direntSzWoName; omega)
    · simp only
      rw [setByte, if_neg (by omega), copyTo_add hi]
      exact h.name hdead i hi
    · simp [setByte]

end Load

section Walk

variable {blocks : List (List DirRecord)} {e : DirRecord} {es : List DirRecord}

/-- The entries that an iterator still has to return. -/
inductive Ahead (sb : Superblock) (d inode pbuf : Bytes) (blocks : List (List DirRecord)) :
    DirIterator → List DirRecord → Prop
  | off {it : DirIterator} (invalid : it.isValid = false) : Ahead sb d inode pbuf blocks it []
  | on {it : DirIterator} {es : List DirRecord} (valid : it.isValid = true)
      (dir : it.dir = inode) (buffer : SameTail sb pbuf it.blkbuf)
      (inside : it.blki < blocks.length) (here : BlockTiled sb it.blkbuf it.byteaddr es) :
      Ahead sb d inode pbuf blocks it (es ++ (blocks.drop (it.blki + 1)).flatten)

theorem TiledDir.read (h : TiledDir sb d inode pbuf blocks) {buf : Bytes}
    (hbuf : SameTail sb pbuf buf) {j : Nat} (hj : j < blocks.length) :
    (readInodeData sb d inode j buf).1 = true ∧
    SameTail sb pbuf (readInodeData sb d inode j buf).2 ∧
    BlockTiled sb (readInodeData sb d inode j buf).2 0 blocks[j] := by
  obtain ⟨htail, hfound, hdata⟩ := @readInodeData_sameTail sb d inode pbuf _ hbuf j
  have hptr := h.present j hj
  refine ⟨?_, htail, (h.tiled j hj).congr (hdata hptr)⟩
  cases hread : (readInodeData sb d inode j buf).1 with
  | true => rfl
  | false => exact absurd (hfound.mp hread) hptr

theorem TiledDir.stop (h : TiledDir sb d inode pbuf blocks) {buf : Bytes}
    (hbuf : SameTail sb pbuf buf) : (readInodeData sb d inode blocks.length buf).1 = false := by
  obtain ⟨-, hfound, -⟩ := @readInodeData_sameTail sb d inode pbuf _ hbuf blocks.length
  exact hfound.mpr h.ended

theorem BlockTiled.ne_nil {blk : Bytes} {o : Nat} (h : BlockTiled sb blk o es) : es ≠ [] := by
  cases h <;> simp

theorem iterateDirNext_eq (hvalid : it.isValid = true) :
    iterateDirNext sb d it =
      if sb.blockSize ≤ entryEnd sb it then
        let r := readInodeData sb d it.dir (u32 (it.blki + 1)) it.blkbuf
        if r.1 then (true, { loadEntry sb it with
          blki := u32 (it.blki + 1)
          blkbuf := r.2
          byteaddr := 0 })
        else (true, { loadEntry sb it with
          blkbuf := r.2
          byteaddr := entryEnd sb it - deEntrySz (loadEntry sb it).cur
          isValid := false })
      else (true, { loadEntry sb it with byteaddr := entryEnd sb it }) := by
  unfold iterateDirNext
  rw [if_neg (by simp [hvalid])]
  simp only [loadEntry_byteaddr, loadEntry_blki, loadEntry_dir, loadEntry_blkbuf]
  rfl

theorem Ahead.step (hdir : TiledDir sb d inode pbuf blocks)
    (h : Ahead sb d inode pbuf blocks it (e :: es)) :
    (iterateDirNext sb d it).1 = true ∧ Shows (iterateDirNext sb d it).2.cur e ∧
      Ahead sb d inode pbuf blocks (iterateDirNext sb d it).2 es := by
  generalize hall : e :: es = all at h
  cases h with
  | off invalid => cases hall
  | on valid dir buffer inside here =>
      rename_i rest
      obtain ⟨e', es', rfl⟩ := List.exists_cons_of_ne_nil here.ne_nil
      obtain ⟨rfl, rfl⟩ := List.cons.inj hall
      obtain ⟨hrecord, hfits⟩ := here.head
      obtain ⟨hshows, hvalid⟩ := loadEntry_shows valid hrecord
      have hlen := hdir.length_lt
      have hsize : sb.blockSize < 2 ^ 32 := Nat.mod_lt _ (by norm_num)
      have hend : entryEnd sb it = it.byteaddr + e.size := by
        rw [entryEnd, hshows.size]
        exact Nat.mod_eq_of_lt (by omega)
      have hblki : u32 (it.blki + 1) = it.blki + 1 := Nat.mod_eq_of_lt (by omega)
      rw [iterateDirNext_eq valid, hend]
      cases here with
      | more _ tail =>
          -- the next entry is in the same block
          have hmore := tail.fits
          have hin : ¬ sb.blockSize ≤ it.byteaddr + e.size := by
            unfold direntSzWoName at hmore
            omega
          rw [if_neg hin]
          refine ⟨rfl, hshows, ?_⟩
          rw [← loadEntry_blki sb it] at inside ⊢
          rw [← loadEntry_blkbuf sb it] at buffer tail
          exact .on hvalid ((loadEntry_dir sb it).trans dir) buffer inside tail
      | last _ ends =>
          rw [if_pos ends.ge, hblki, dir]
          by_cases hlast : it.blki + 1 < blocks.length
          · obtain ⟨hread, htail, htiled⟩ := hdir.read buffer hlast
            simp only [hread, if_true]
            refine ⟨trivial, hshows, ?_⟩
            rw [List.drop_eq_getElem_cons hlast, List.flatten_cons]
            exact .on hvalid ((loadEntry_dir sb it).trans dir) htail hlast htiled
          · have hread := hdir.stop buffer
            rw [show blocks.length = it.blki + 1 by omega] at hread
            simp only [hread, Bool.false_eq_true, if_false]
            refine ⟨trivial, hshows, ?_⟩
            rw [List.drop_eq_nil_of_le (by omega)]
            exact .off rfl

/-- An iterator with nothing ahead is turned off, and stays so. -/
theorem Ahead.stop (h : Ahead sb d inode pbuf blocks it []) :
    (iterateDirNext sb d it).1 = false ∧ (iterateDirNext sb d it).2 = it := by
  generalize hall : ([] : List DirRecord) = all at h
  cases h with
  | off invalid => simp [iterateDirNext, invalid]
  | on valid dir buffer inside here =>
      have := here.ne_nil
      simp_all

theorem Ahead.calls (hdir : TiledDir sb d inode pbuf blocks)
    (h : Ahead sb d inode pbuf blocks it es) (n : Nat) :
    Ahead sb d inode pbuf blocks (dirCall sb d it n).2 (es.drop (n + 1)) ∧
    (∀ hn : n < es.length, (dirCall sb d it n).1 = true ∧ Shows (dirCall sb d it n).2.cur es[n]) ∧
    (es.length ≤ n → (dirCall sb d it n).1 = false) := by
  have hcall : ∀ (it : DirIterator) (k : Nat), Ahead sb d inode pbuf blocks it (es.drop k) →
      Ahead sb d inode pbuf blocks (iterateDirNext sb d it).2 (es.drop (k + 1)) ∧
      (∀ hk : k < es.length, (iterateDirNext sb d it).1 = true ∧
        Shows (iterateDirNext sb d it).2.cur es[k]) ∧
      (es.length ≤ k → (iterateDirNext sb d it).1 = false) := by
    intro it k hahead
    by_cases hk : k < es.length
    · rw [List.drop_eq_getElem_cons hk] at hahead
      obtain ⟨htrue, hshows, hrest⟩ := hahead.step hdir
      exact ⟨hrest, fun _ => ⟨htrue, hshows⟩, fun hle => absurd hk (by omega)⟩
    · rw [List.drop_eq_nil_of_le (by omega)] at hahead
      obtain ⟨hfalse, hsame⟩ := hahead.stop
      rw [hsame, List.drop_eq_nil_of_le (by omega)]
      exact ⟨hahead, fun hlt => absurd hlt hk, fun _ => hfalse⟩
  induction n with
  | zero => exact hcall it 0 h
  | succ n ih => exact hcall _ (n + 1) ih.1

theorem ahead_start (hdir : TiledDir sb d inode pbuf blocks) (stack : Bytes) :
    Ahead sb d inode pbuf blocks (iterateDirStart sb d inode pbuf stack) blocks.flatten := by
  have hbuf : SameTail sb pbuf pbuf := fun _ _ => rfl
  by_cases hempty : blocks.length = 0
  · obtain rfl := List.eq_nil_of_length_eq_zero hempty
    exact .off (hdir.stop hbuf)
  · have hpos : 0 < blocks.length := by omega
    obtain ⟨hread, htail, htiled⟩ := hdir.read hbuf hpos
    have hflat : blocks.flatten = blocks[0] ++ (blocks.drop 1).flatten := by
      rw [← List.flatten_cons, ← List.drop_eq_getElem_cons hpos, List.drop_zero]
    rw [hflat]
    exact .on hread rfl htail hpos htiled

end Walk

instance (sb : Superblock) (blk : Bytes) (o : Nat) (e : DirRecord) : Decidable (RecordAt sb blk o e) :=
  decidable_of_iff (deInodeNum (fun i => blk (o + i)) = e.inodeNum ∧
      deEntrySz (fun i => blk (o + i)) = e.size ∧
      (e.inodeNum ≠ 0 → deNameLength sb (fun i => blk (o + i)) = e.name.length) ∧
      (e.inodeNum ≠ 0 → ∀ i < e.name.length, blk (o + direntSzWoName + i) = e.name.getD i 0))
    ⟨fun h => ⟨h.1, h.2.1, h.2.2.1, h.2.2.2⟩, fun h => ⟨h.inodeNum, h.size, h.length, h.name⟩⟩

/-- The entries of the directory in `fourEntryDisk`; the second one is dead. -/
def recordA : DirRecord := ⟨12, 16, [97], by decide, by decide⟩
def recordDead : DirRecord := ⟨0, 1008, [], by decide, by decide⟩
def recordBc : DirRecord := ⟨13, 512, [98, 99], by decide, by decide⟩
def recordE : DirRecord := ⟨14, 512, [101], by decide, by decide⟩

theorem tiledDir_fourEntries :
    TiledDir oneEntrySb fourEntryDisk fourEntryInode (fun _ => 0)
      [[recordA, recordDead], [recordBc, recordE]] := by
  have hfirst : pointerOf oneEntrySb fourEntryDisk fourEntryInode (fun _ => 0) 0 = 10 := by
    decide +kernel
  have hsecond : pointerOf oneEntrySb fourEntryDisk fourEntryInode (fun _ => 0) 1 = 11 := by
    decide +kernel
  have hthird : pointerOf oneEntrySb fourEntryDisk fourEntryInode (fun _ => 0) 2 = 0 := by
    decide +kernel
  refine ⟨fun j hj => ?_, hthird, fun j hj => ?_, by decide⟩
  · match j, hj with
    | 0, _ => rw [hfirst]; decide
    | 1, _ => rw [hsecond]; decide
  · match j, hj with
    | 0, _ =>
        rw [hfirst]
        exact .more (by decide +kernel) (.last (by decide +kernel) (by decide +kernel))
    | 1, _ =>
        rw [hsecond]
        exact .more (by decide +kernel) (.last (by decide +kernel) (by decide +kernel))

/-- The call number `n` on the directory of `fourEntryDisk`. -/
def fourEntryCall (n : Nat) : Bool × DirIterator :=
  dirCall oneEntrySb fourEntryDisk
    (iterateDirStart oneEntrySb fourEntryDisk fourEntryInode (fun _ => 0) (fun _ => 0)) n

end UntitledOs.Fs
