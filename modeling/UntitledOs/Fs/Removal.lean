import UntitledOs.Fs.Insertion

/-!
# Removing entries from a directory

`fs_ext2_remove_dirent` goes on behind an entry that it has removed, with a copy of the iterator
from the entry before.  The copy gives the place of that entry as long as both lie in one block and
the entry before was not itself enlarged.
-/

namespace UntitledOs.Fs

open UntitledOs.Lib

variable {g : Gdata} {sb : Superblock} {d heap dir blk blk' : Bytes} {it : DirIterator}
  {e p : DirRecord} {es done pre post : List DirRecord} {blocks : List (List DirRecord)}
  {deInode j : Nat}

/-- The locals of `fs_ext2_remove_dirent`, the inode that its iterators point to, and the medium.
The iterators share one block buffer, that of `it`. -/
structure RemoveState where
  it : DirIterator
  itPrev : DirIterator
  dir : Bytes
  medium : Bytes

/-- The entry before takes the place of the one at the iterator. -/
def joinEntry (sb : Superblock) (s : RemoveState) : RemoveState :=
  let prevEsz := deEntrySz s.itPrev.cur
  let cur := setDeEntrySz s.itPrev.cur ((prevEsz + deEntrySz s.it.cur) % 2 ^ 16)
  let buf := copyBehind s.it.blkbuf s.itPrev.byteaddr prevEsz cur direntSzWoName
  let w := writeInodeData sb s.medium s.dir s.itPrev.blki buf
  { s with
    it := { s.it with blkbuf := w.2 }
    itPrev := { s.itPrev with cur := cur }
    medium := w.1 }

/-- The entry at the iterator becomes empty space; one that fills the last block goes with it. -/
def emptyEntry (g : Gdata) (heap : Bytes) (dirNum : Nat) (s : RemoveState) : RemoveState :=
  let cur := setDeInodeNum s.it.cur 0
  let buf := copyBehind s.it.blkbuf s.it.byteaddr (deEntrySz cur) cur direntSzWoName
  let w := writeInodeData g.sb s.medium s.dir s.it.blki buf
  let it := { s.it with
    blkbuf := w.2
    cur := cur }
  let next := getInodePointer g.sb w.1 s.dir (u32 (it.blki + 1)) heap
  if deEntrySz cur = g.sb.blockSize ∧ next.1 = 0 then
    let d := markUnallocBlock g w.1 heap (getInodePointer g.sb w.1 s.dir it.blki next.2).1
    let r := writeInodeBlockPointer g d heap s.dir dirNum it.blki 0
    { it := { it with dir := r.2.1 }, itPrev := { it with dir := r.2.1 }, dir := r.2.1,
      medium := r.2.2 }
  else { s with
    it := it
    itPrev := it
    medium := w.1 }

/-- The loop of `fs_ext2_remove_dirent`. -/
def removeLoop (g : Gdata) (heap : Bytes) (dirNum deInode : Nat) : Nat → RemoveState → Option RemoveState
  | 0, _ => none
  | fuel + 1, s =>
      let r := iterateDirNext g.sb s.medium s.it
      let s := { s with it := r.2 }
      if r.1 = false then some s
      else if deInodeNum s.it.cur = deInode then
        if s.itPrev.isValid = true ∧ s.itPrev.blki = s.it.blki then
          removeLoop g heap dirNum deInode fuel (joinEntry g.sb s)
        else removeLoop g heap dirNum deInode fuel (emptyEntry g heap dirNum s)
      else removeLoop g heap dirNum deInode fuel { s with itPrev := s.it }

/-- `fs_ext2_remove_dirent`: the inode of the directory and the medium afterwards.  Only the
validity of `it_prev` is set at the start. -/
def removeDirent (g : Gdata) (fuel : Nat) (d heap stack dir : Bytes) (prev : DirIterator)
    (dirNum deInode : Nat) : Option (Bytes × Bytes) :=
  (removeLoop g heap dirNum deInode fuel
    { it := iterateDirStart g.sb d dir heap stack
      itPrev := { prev with isValid := false }
      dir := dir
      medium := d }).map fun s => (s.dir, s.medium)

/-! ## The entries that are left -/

/-- Empty space where an entry was. -/
def DirRecord.emptied (e : DirRecord) : DirRecord := { e with inodeNum := 0 }

/-- An entry with the place of the next one. -/
def DirRecord.joined (p e : DirRecord) : DirRecord where
  inodeNum := p.inodeNum
  size := p.size + e.size
  name := p.name
  name_le := p.name_le
  size_ge := p.size_ge.trans (Nat.le_add_right _ _)

/-- The entries behind `p`, and `p`, when those of an inode are removed. -/
def clearedFrom (deInode : Nat) : DirRecord → List DirRecord → List DirRecord
  | p, [] => [p]
  | p, e :: es =>
      if e.inodeNum = deInode then clearedFrom deInode (p.joined e) es
      else p :: clearedFrom deInode e es

/-- The entries of a block when those of an inode are removed. -/
def cleared (deInode : Nat) : List DirRecord → List DirRecord
  | [] => []
  | e :: es =>
      if e.inodeNum = deInode then clearedFrom deInode e.emptied es else clearedFrom deInode e es

/-- The entries of an inode among `es` each lie behind another entry, which is not enlarged
(`fresh`), and before a third, unless the block is the last one. -/
def ClearableFrom (deInode : Nat) (last : Prop) : (fresh : Bool) → List DirRecord → Prop
  | _, [] => True
  | fresh, e :: es =>
      if e.inodeNum = deInode then
        fresh = true ∧ (es ≠ [] ∨ last) ∧ ClearableFrom deInode last false es
      else ClearableFrom deInode last true es

/-- The first entry of a block is one to remove only in block 0. -/
def Clearable (deInode j : Nat) (last : Prop) : List DirRecord → Prop
  | [] => True
  | e :: es => (e.inodeNum = deInode → j = 0 ∧ es ≠ []) ∧ ClearableFrom deInode last true es

/-- What a directory says: the entries in use, in order. -/
def liveNames (es : List DirRecord) : List (Nat × List Byte) :=
  (es.filter fun e => e.inodeNum ≠ 0).map fun e => (e.inodeNum, e.name)

section Entries

theorem liveNames_append (es es' : List DirRecord) :
    liveNames (es ++ es') = liveNames es ++ liveNames es' := by
  simp [liveNames]

theorem liveNames_cons (e : DirRecord) (es : List DirRecord) :
    liveNames (e :: es) = liveNames [e] ++ liveNames es := liveNames_append [e] es

theorem liveNames_joined (p e : DirRecord) : liveNames [p.joined e] = liveNames [p] := by
  by_cases hdead : p.inodeNum = 0
  · simp [liveNames, DirRecord.joined, hdead]
  · simp [liveNames, DirRecord.joined, hdead]

/-- An entry that stays is kept by the filter. -/
theorem liveNames_kept (hother : e.inodeNum ≠ deInode) :
    (liveNames [e]).filter (fun x => x.1 ≠ deInode) = liveNames [e] := by
  by_cases hdead : e.inodeNum = 0
  · simp [liveNames, hdead]
  · simp [liveNames, hdead, hother]

theorem liveNames_clearedFrom (hlive : deInode ≠ 0) (p : DirRecord) (es : List DirRecord) :
    liveNames (clearedFrom deInode p es) =
      liveNames [p] ++ (liveNames es).filter fun x => x.1 ≠ deInode := by
  induction es generalizing p with
  | nil => simp [clearedFrom, liveNames]
  | cons e es ih =>
      rw [clearedFrom, liveNames_cons e es, List.filter_append]
      by_cases hgone : e.inodeNum = deInode
      · rw [if_pos hgone, ih, liveNames_joined]
        simp [liveNames, hgone, hlive]
      · rw [if_neg hgone, liveNames_cons, ih, liveNames_kept hgone]

theorem liveNames_cleared (hlive : deInode ≠ 0) (es : List DirRecord) :
    liveNames (cleared deInode es) = (liveNames es).filter fun x => x.1 ≠ deInode := by
  cases es with
  | nil => rfl
  | cons e es =>
      rw [cleared, liveNames_cons, List.filter_append]
      by_cases hgone : e.inodeNum = deInode
      · rw [if_pos hgone, liveNames_clearedFrom hlive]
        simp [liveNames, DirRecord.emptied, hgone, hlive]
      · rw [if_neg hgone, liveNames_clearedFrom hlive, liveNames_kept hgone]

theorem liveNames_flatten (hlive : deInode ≠ 0) (blocks : List (List DirRecord)) :
    liveNames (blocks.map (cleared deInode)).flatten =
      (liveNames blocks.flatten).filter fun x => x.1 ≠ deInode := by
  induction blocks with
  | nil => rfl
  | cons block blocks ih =>
      rw [List.map_cons, List.flatten_cons, List.flatten_cons, liveNames_append, liveNames_append,
        List.filter_append, liveNames_cleared hlive, ih]

end Entries

/-! ## The loop -/

section Loop

variable {s : RemoveState} {dirNum fuel : Nat} {fresh : Bool}

theorem removeLoop_end (h : s.it.isValid = false) (fuel : Nat) :
    removeLoop g heap dirNum deInode (fuel + 1) s = some s := by
  have hnext : iterateDirNext g.sb s.medium s.it = (false, s.it) := if_pos h
  simp only [removeLoop, hnext]
  rfl

theorem removeLoop_pass {r : Bool × DirIterator} (h : iterateDirNext g.sb s.medium s.it = r)
    (hmore : r.1 = true) (hother : deInodeNum r.2.cur ≠ deInode) (fuel : Nat) :
    removeLoop g heap dirNum deInode (fuel + 1) s = removeLoop g heap dirNum deInode fuel
      { s with
        it := r.2
        itPrev := r.2 } := by
  simp only [removeLoop, h, hmore, if_neg hother]
  rfl

theorem removeLoop_join {r : Bool × DirIterator} (h : iterateDirNext g.sb s.medium s.it = r)
    (hmore : r.1 = true) (hgone : deInodeNum r.2.cur = deInode)
    (hprev : s.itPrev.isValid = true ∧ s.itPrev.blki = r.2.blki) (fuel : Nat) :
    removeLoop g heap dirNum deInode (fuel + 1) s =
      removeLoop g heap dirNum deInode fuel (joinEntry g.sb { s with it := r.2 }) := by
  simp only [removeLoop, h, hmore, if_pos hgone, if_pos hprev]
  rfl

theorem removeLoop_empty {r : Bool × DirIterator} (h : iterateDirNext g.sb s.medium s.it = r)
    (hmore : r.1 = true) (hgone : deInodeNum r.2.cur = deInode) (hprev : s.itPrev.isValid = false)
    (fuel : Nat) :
    removeLoop g heap dirNum deInode (fuel + 1) s =
      removeLoop g heap dirNum deInode fuel (emptyEntry g heap dirNum { s with it := r.2 }) := by
  have hnot : ¬ (s.itPrev.isValid = true ∧ s.itPrev.blki = r.2.blki) := by
    rw [hprev]
    simp
  simp only [removeLoop, h, hmore, if_pos hgone, if_neg hnot]
  rfl

/-- The loop stands in front of block `j`. -/
structure Front (sb : Superblock) (dir : Bytes) (blocks : List (List DirRecord)) (s : RemoveState)
    (j : Nat) : Prop where
  inode : s.dir = dir
  directory : DirectDir sb s.medium dir blocks
  stands : j < blocks.length → StandsAt sb s.medium dir s.it j 0
  ended : j = blocks.length → s.it.isValid = false
  prev : j = 0 → s.itPrev.isValid = false

/-- The loop stands behind `p` in block `j`, and `itPrev` says where `p` is unless it was enlarged. -/
structure Behind (sb : Superblock) (dir : Bytes) (blocks : List (List DirRecord)) (s : RemoveState)
    (j : Nat) (done : List DirRecord) (p : DirRecord) (post : List DirRecord) (fresh : Bool) :
    Prop where
  inode : s.dir = dir
  directory : DirectDir sb s.medium dir blocks
  lt : j < blocks.length
  block : blocks[j] = done ++ p :: post
  stands : post ≠ [] → StandsAt sb s.medium dir s.it j (span done + p.size)
  across : post = [] → j + 1 < blocks.length → StandsAt sb s.medium dir s.it (j + 1) 0
  ended : post = [] → j + 1 = blocks.length → s.it.isValid = false
  prev : fresh = true → post ≠ [] → s.itPrev.isValid = true ∧ s.itPrev.blki = j ∧
    s.itPrev.byteaddr = span done + p.size ∧
    ∀ i < direntSzWoName, s.itPrev.cur i = dirBlock sb s.medium dir j (span done + i)

/-- The loop moves on over an entry that stays. -/
theorem behind_of_next {r : Bool × DirIterator} (hinode : s.dir = dir)
    (hdir : DirectDir g.sb s.medium dir blocks) (hj : j < blocks.length)
    (hblock : blocks[j] = pre ++ e :: post)
    (hsteps : Steps g.sb s.medium dir blocks.length e post j (span pre) it r.2) :
    Behind g.sb dir blocks
      { s with
        it := r.2
        itPrev := r.2 } j pre e post true where
  inode := hinode
  directory := hdir
  lt := hj
  block := hblock
  stands := hsteps.inside
  across := hsteps.across
  ended hnil hlast := (hsteps.back hnil hlast).1
  prev _ hpost :=
    ⟨(hsteps.inside hpost).valid, (hsteps.inside hpost).blki, (hsteps.inside hpost).byteaddr,
      hsteps.header⟩

theorem Behind.next (h : Behind g.sb dir blocks s j done p (e :: post) fresh) :
    (iterateDirNext g.sb s.medium s.it).1 = true ∧
      Steps g.sb s.medium dir blocks.length e post j (span (done ++ [p])) s.it
        (iterateDirNext g.sb s.medium s.it).2 := by
  have hj := h.lt
  have hblock : blocks[j] = (done ++ [p]) ++ e :: post := by
    rw [h.block, List.append_assoc]
    rfl
  have hstands := h.stands (by simp)
  rw [show span done + p.size = span (done ++ [p]) by simp] at hstands
  exact hstands.next h.directory h.lt hblock

theorem Behind.pass (h : Behind g.sb dir blocks s j done p (e :: post) fresh)
    (hother : e.inodeNum ≠ deInode) (heap : Bytes) (dirNum : Nat) :
    ∃ s', Behind g.sb dir blocks s' j (done ++ [p]) e post true ∧ s'.medium = s.medium ∧
      ∀ fuel, removeLoop g heap dirNum deInode (fuel + 1) s =
        removeLoop g heap dirNum deInode fuel s' := by
  obtain ⟨hmore, hsteps⟩ := h.next
  have hj := h.lt
  have hblock : blocks[j] = (done ++ [p]) ++ e :: post := by
    rw [h.block, List.append_assoc]
    rfl
  refine ⟨_, behind_of_next h.inode h.directory h.lt hblock hsteps, rfl, fun fuel => ?_⟩
  exact removeLoop_pass rfl hmore (by rwa [hsteps.shows.inodeNum]) fuel

/-- A header written over that of `p`, with the name of `p` behind it. -/
theorem Written.header {header : Bytes} {old : List DirRecord} {q : DirRecord}
    (hrecord : RecordAt sb blk (span pre) p) (hnum : deInodeNum header = q.inodeNum)
    (hsize : deEntrySz header = q.size) (hlive : q.inodeNum ≠ 0 → p.inodeNum ≠ 0)
    (hlen : q.inodeNum ≠ 0 → deNameLength sb header = q.name.length) (hname : q.name = p.name)
    (hspan : q.size = span old) :
    Written sb blk (copyTo blk (span pre) header direntSzWoName) pre old [q] := by
  have hq := q.size_ge
  have hhead : ∀ i < direntSzWoName,
      copyTo blk (span pre) header direntSzWoName (span pre + i) = header i := fun i hi =>
    copyTo_add hi
  obtain ⟨hnum', hsize', hlen'⟩ := @header_congr sb header _ hhead
  refine ⟨fun i hi => ?_, ⟨?_, trivial⟩, by rw [← hspan]; exact Nat.add_zero _, by simp⟩
  · rcases hi with hi | hi
    · exact copyTo_of_lt hi
    · exact copyTo_of_ge (by omega)
  · refine ⟨hnum'.trans hnum, hsize'.trans hsize, fun hq => hlen'.trans (hlen hq), fun hq i hi => ?_⟩
    rw [copyTo_of_ge (by omega), hname]
    exact hrecord.name (hlive hq) i (by rwa [← hname])

/-- The entries of a block, where the iterator stands behind one of them. -/
theorem Behind.chained (h : Behind sb dir blocks s j done p post fresh) :
    RecordAt sb (dirBlock sb s.medium dir j) (span done) p ∧
      span done + (p.size + span post) = sb.blockSize := by
  have htiled := h.directory.tiled j h.lt
  rw [h.block, blockTiled_iff, chained_append, Nat.zero_add] at htiled
  obtain ⟨-, ⟨-, hrecord, -⟩, hend⟩ := htiled
  rw [span_append, span_cons, Nat.zero_add] at hend
  exact ⟨hrecord, hend⟩

/-- An entry is joined to the one before. -/
theorem Behind.join (h : Behind g.sb dir blocks s j done p (e :: post) true)
    (hsmall : g.sb.blockSize < 2 ^ 16) (hgone : e.inodeNum = deInode)
    (hpost : post ≠ [] ∨ j + 1 = blocks.length) (heap : Bytes) (dirNum : Nat) :
    ∃ s', Behind g.sb dir (blocks.set j (done ++ p.joined e :: post)) s' j done (p.joined e) post
        false ∧
      (∀ i, ¬ InBlock g.sb (dbp dir j) i → s'.medium i = s.medium i) ∧
      ∀ fuel, removeLoop g heap dirNum deInode (fuel + 1) s =
        removeLoop g heap dirNum deInode fuel s' := by
  obtain ⟨hmore, hsteps⟩ := h.next
  obtain ⟨hvalid, hblki, haddr, hcur⟩ := h.prev rfl (by simp)
  obtain ⟨hrecord, hend⟩ := h.chained
  have hstands := h.stands (by simp)
  have hfew := h.directory.few
  have hlt := h.lt
  rw [show span done + p.size = span (done ++ [p]) by simp] at hstands
  obtain ⟨hplace, hbuf⟩ := hsteps.place hstands hpost
  set it' := (iterateDirNext g.sb s.medium s.it).2
  obtain ⟨hnum, hsize, hlen⟩ := @header_congr g.sb _ _ hcur
  have hpsize : deEntrySz s.itPrev.cur = p.size := hsize.trans hrecord.size
  rw [span_cons] at hend
  have hsum : (p.size + e.size) % 2 ^ 16 = p.size + e.size := Nat.mod_eq_of_lt (by omega)
  -- the header of the entry before, with both sizes
  set cur := setDeEntrySz s.itPrev.cur (p.size + e.size) with hcurEq
  have hcurSize : deEntrySz cur = p.size + e.size := by
    rw [hcurEq, deEntrySz, setDeEntrySz, getLe_setLe]
    exact hsum
  have hcurNum : deInodeNum cur = p.inodeNum :=
    (@getLe_setLe_of_disjoint _ 4 2 _ 0 4 (.inl (by decide))).trans (hnum.trans hrecord.inodeNum)
  have hsizes := p.size_ge
  have hwritten : Written g.sb it'.blkbuf (copyTo it'.blkbuf (span done) cur direntSzWoName) done
      [p, e] [p.joined e] := by
    refine Written.header (hrecord.congr fun i hi => hbuf _ (by omega)) hcurNum hcurSize id
      (fun hlive => ?_) rfl (by simp [DirRecord.joined])
    rw [hcurEq, deNameLength_setDeEntrySz, hlen]
    exact hrecord.length hlive
  have hblock : blocks[j] = done ++ ([p, e] ++ post) := by
    rw [h.block]
    rfl
  obtain ⟨hdir', hframe⟩ := hwritten.directory h.directory hlt hblock hbuf
  have hwrite := @writeInodeData_direct g.sb s.medium dir j (by omega) (h.directory.present j hlt)
  have hjoin : joinEntry g.sb { s with it := it' } =
      { s with
        it := { it' with blkbuf := copyTo it'.blkbuf (span done) cur direntSzWoName }
        itPrev := { s.itPrev with cur := cur }
        medium := writeBlock g.sb s.medium (dbp dir j)
          (copyTo it'.blkbuf (span done) cur direntSzWoName) } := by
    unfold joinEntry
    simp only [hpsize, hsteps.shows.size, hsum, ← hcurEq, haddr, copyBehind_eq, hblki, h.inode,
      hwrite]
  refine ⟨joinEntry g.sb { s with it := it' }, ?_, fun i hi => ?_, fun fuel => ?_⟩
  · rw [hjoin]
    refine ⟨h.inode, hdir', by simpa using hlt, by simp, fun hne => ?_, fun hnil hmore => ?_,
      fun hnil hlast => ?_, fun hfalse => by cases hfalse⟩
    · have hinside := hsteps.inside hne
      refine ⟨hinside.valid, hinside.inode, hinside.blki, ?_, fun i hi =>
        (dirBlock_writeBlock hi).symm⟩
      rw [hinside.byteaddr]
      simp [DirRecord.joined, Nat.add_assoc]
    · rw [List.length_set] at hmore
      have := hpost.resolve_left fun hne => hne hnil
      omega
    · exact (hsteps.back hnil (hpost.resolve_left fun hne => hne hnil)).1
  · rw [hjoin]
    exact writeBlock_of_outside hi
  · exact removeLoop_join rfl hmore (hsteps.shows.inodeNum.trans hgone)
      ⟨hvalid, hblki.trans hplace.symm⟩ fuel

/-- The first entry of a directory becomes empty space. -/
theorem Front.empty (h : Front g.sb dir blocks s 0) (hpos : 0 < blocks.length)
    (hblock : blocks[0] = e :: post) (hgone : e.inodeNum = deInode) (hpost : post ≠ [])
    (heap : Bytes) (dirNum : Nat) :
    ∃ s', Behind g.sb dir (blocks.set 0 (e.emptied :: post)) s' 0 [] e.emptied post true ∧
      (∀ i, ¬ InBlock g.sb (dbp dir 0) i → s'.medium i = s.medium i) ∧
      ∀ fuel, removeLoop g heap dirNum deInode (fuel + 1) s =
        removeLoop g heap dirNum deInode fuel s' := by
  have hstands := h.stands hpos
  obtain ⟨hmore, hsteps⟩ := @StandsAt.next g.sb s.medium dir s.it e [] post blocks 0 hstands
    h.directory hpos hblock
  have hinside := hsteps.inside hpost
  obtain ⟨-, hbuf⟩ := hsteps.place hstands (.inl hpost)
  set it' := (iterateDirNext g.sb s.medium s.it).2
  have htiled := h.directory.tiled 0 hpos
  rw [hblock, blockTiled_iff] at htiled
  obtain ⟨-, ⟨hrecord, -⟩, hend⟩ := htiled
  obtain ⟨e', post', rfl⟩ := List.exists_cons_of_ne_nil hpost
  have hsize := e.size_ge
  have hsize' := e'.size_ge
  rw [span_cons, span_cons, Nat.zero_add] at hend
  set cur := setDeInodeNum it'.cur 0 with hcurEq
  have hcurSize : deEntrySz cur = e.size :=
    (@getLe_setLe_of_disjoint _ 0 4 _ 4 2 (.inr (by decide))).trans hsteps.shows.size
  have hcurNum : deInodeNum cur = 0 := by
    rw [hcurEq, deInodeNum, setDeInodeNum, getLe_setLe]
    rfl
  have hwritten : Written g.sb it'.blkbuf (copyTo it'.blkbuf 0 cur direntSzWoName) []
      [e] [e.emptied] :=
    @Written.header g.sb it'.blkbuf e [] cur [e] e.emptied
      (hrecord.congr fun i hi => hbuf _ (by omega)) hcurNum hcurSize (fun hne => absurd rfl hne)
      (fun hne => absurd rfl hne) rfl (Nat.add_zero _).symm
  obtain ⟨hdir', hframe⟩ := hwritten.directory h.directory hpos hblock hbuf
  have hwrite := @writeInodeData_direct g.sb s.medium dir 0 (by omega) (h.directory.present 0 hpos)
  have haddr : it'.byteaddr = 0 + e.size := hinside.byteaddr
  have hfill : ¬ e.size = g.sb.blockSize := by
    unfold direntSzWoName at hsize'
    omega
  have hempty : emptyEntry g heap dirNum { s with it := it' } =
      { s with
        it := { it' with
          blkbuf := copyTo it'.blkbuf 0 cur direntSzWoName
          cur := cur }
        itPrev := { it' with
          blkbuf := copyTo it'.blkbuf 0 cur direntSzWoName
          cur := cur }
        medium := writeBlock g.sb s.medium (dbp dir 0)
          (copyTo it'.blkbuf 0 cur direntSzWoName) } := by
    unfold emptyEntry
    simp only [← hcurEq, hcurSize, haddr, copyBehind_eq, hinside.blki, h.inode, hwrite, hfill,
      false_and, if_false]
  have hread : ∀ i < g.sb.blockSize, dirBlock g.sb (writeBlock g.sb s.medium (dbp dir 0)
      (copyTo it'.blkbuf 0 cur direntSzWoName)) dir 0 i =
        copyTo it'.blkbuf 0 cur direntSzWoName i := fun i hi => dirBlock_writeBlock hi
  refine ⟨emptyEntry g heap dirNum { s with it := it' }, ?_, fun i hi => ?_, fun fuel => ?_⟩
  · rw [hempty]
    refine ⟨h.inode, hdir', by simpa using hpos, by simp, fun _ => ?_,
      fun hnil => absurd hnil hpost, fun hnil => absurd hnil hpost,
      fun _ _ => ⟨hinside.valid, hinside.blki, hinside.byteaddr, fun i hi => ?_⟩⟩
    · exact ⟨hinside.valid, hinside.inode, hinside.blki, hinside.byteaddr, fun i hi =>
        (hread i hi).symm⟩
    · rw [span_nil, hread _ (by omega), copyTo_add hi]
  · rw [hempty]
    exact writeBlock_of_outside hi
  · exact removeLoop_empty rfl hmore (hsteps.shows.inodeNum.trans hgone) (h.prev rfl) fuel

/-- The loop takes the first entry of a block. -/
theorem Front.enter (h : Front g.sb dir blocks s j) (hj : j < blocks.length)
    (hblock : blocks[j] = e :: post) (hother : e.inodeNum ≠ deInode) (heap : Bytes)
    (dirNum : Nat) :
    ∃ s', Behind g.sb dir blocks s' j [] e post true ∧ s'.medium = s.medium ∧
      ∀ fuel, removeLoop g heap dirNum deInode (fuel + 1) s =
        removeLoop g heap dirNum deInode fuel s' := by
  obtain ⟨hmore, hsteps⟩ := @StandsAt.next g.sb s.medium dir s.it e [] post blocks j (h.stands hj)
    h.directory hj hblock
  refine ⟨{ s with
    it := (iterateDirNext g.sb s.medium s.it).2
    itPrev := (iterateDirNext g.sb s.medium s.it).2 }, @behind_of_next g dir s.it e [] post blocks j s _ h.inode h.directory hj hblock hsteps,
    rfl, fun fuel => ?_⟩
  exact removeLoop_pass rfl hmore (by rwa [hsteps.shows.inodeNum]) fuel

/-- The loop behind the last entry of a block stands in front of the next one. -/
theorem Behind.front (h : Behind g.sb dir blocks s j done p [] fresh) :
    Front g.sb dir blocks s (j + 1) where
  inode := h.inode
  directory := h.directory
  stands := h.across rfl
  ended := h.ended rfl
  prev hzero := absurd hzero (Nat.succ_ne_zero j)

/-- The entries of the inode in the rest of a block are removed. -/
theorem Behind.clear (h : Behind g.sb dir blocks s j done p post fresh)
    (hsmall : g.sb.blockSize < 2 ^ 16)
    (hclear : ClearableFrom deInode (j + 1 = blocks.length) fresh post) (heap : Bytes)
    (dirNum : Nat) :
    ∃ s' n, Front g.sb dir (blocks.set j (done ++ clearedFrom deInode p post)) s' (j + 1) ∧
      (∀ i, ¬ InBlock g.sb (dbp dir j) i → s'.medium i = s.medium i) ∧
      ∀ fuel, removeLoop g heap dirNum deInode (fuel + n) s =
        removeLoop g heap dirNum deInode fuel s' := by
  induction post generalizing blocks s done p fresh with
  | nil =>
      refine ⟨s, 0, ?_, fun _ _ => rfl, fun _ => rfl⟩
      have hfront := h.front
      rwa [clearedFrom, ← h.block, List.set_getElem_self]
  | cons e post ih =>
      unfold ClearableFrom at hclear
      by_cases hgone : e.inodeNum = deInode
      · rw [if_pos hgone] at hclear
        obtain ⟨rfl, hpost, hrest⟩ := hclear
        obtain ⟨s₁, hbehind, hframe, hstep⟩ := h.join hsmall hgone hpost heap dirNum
        obtain ⟨s', n, hfront, hframe', hrun⟩ := ih hbehind (by rwa [List.length_set])
        refine ⟨s', n + 1, ?_, fun i hi => (hframe' i hi).trans (hframe i hi), fun fuel => ?_⟩
        · rw [clearedFrom, if_pos hgone]
          rwa [List.set_set] at hfront
        · rw [← Nat.add_assoc, hstep, hrun]
      · rw [if_neg hgone] at hclear
        obtain ⟨s₁, hbehind, hmedium, hstep⟩ := h.pass hgone heap dirNum
        obtain ⟨s', n, hfront, hframe, hrun⟩ := ih hbehind hclear
        refine ⟨s', n + 1, ?_, fun i hi => (hframe i hi).trans (congrFun hmedium i), fun fuel => ?_⟩
        · rw [clearedFrom, if_neg hgone]
          rwa [List.append_assoc] at hfront
        · rw [← Nat.add_assoc, hstep, hrun]

theorem Front.clearBlock (h : Front g.sb dir blocks s j) (hj : j < blocks.length)
    (hsmall : g.sb.blockSize < 2 ^ 16)
    (hclear : Clearable deInode j (j + 1 = blocks.length) blocks[j]) (heap : Bytes)
    (dirNum : Nat) :
    ∃ s' n, Front g.sb dir (blocks.set j (cleared deInode blocks[j])) s' (j + 1) ∧
      (∀ i, ¬ InBlock g.sb (dbp dir j) i → s'.medium i = s.medium i) ∧
      ∀ fuel, removeLoop g heap dirNum deInode (fuel + n) s =
        removeLoop g heap dirNum deInode fuel s' := by
  obtain ⟨e, post, hblock⟩ := List.exists_cons_of_ne_nil (h.directory.tiled j hj).ne_nil
  rw [hblock] at hclear ⊢
  obtain ⟨hfirst, hrest⟩ := hclear
  rw [cleared]
  by_cases hgone : e.inodeNum = deInode
  · obtain ⟨rfl, hpost⟩ := hfirst hgone
    obtain ⟨s₁, hbehind, hframe, hstep⟩ := h.empty hj hblock hgone hpost heap dirNum
    obtain ⟨s', n, hfront, hframe', hrun⟩ := hbehind.clear hsmall
      (by rwa [List.length_set]) heap dirNum
    refine ⟨s', n + 1, ?_, fun i hi => (hframe' i hi).trans (hframe i hi), fun fuel => ?_⟩
    · rw [if_pos hgone]
      rwa [List.set_set] at hfront
    · rw [← Nat.add_assoc, hstep, hrun]
  · obtain ⟨s₁, hbehind, hmedium, hstep⟩ :=
      h.enter hj hblock hgone heap dirNum
    obtain ⟨s', n, hfront, hframe, hrun⟩ := hbehind.clear hsmall hrest heap dirNum
    refine ⟨s', n + 1, ?_, fun i hi => (hframe i hi).trans (congrFun hmedium i), fun fuel => ?_⟩
    · rw [if_neg hgone]
      exact hfront
    · rw [← Nat.add_assoc, hstep, hrun]

/-- The entries of the inode are removed from block `j` on. -/
theorem Front.clear (hsmall : g.sb.blockSize < 2 ^ 16) (m : Nat) (hm : j + m = blocks.length)
    (h : Front g.sb dir blocks s j)
    (hclear : ∀ i (hi : i < blocks.length), j ≤ i →
      Clearable deInode i (i + 1 = blocks.length) blocks[i]) (heap : Bytes) (dirNum : Nat) :
    ∃ s' n, s'.dir = dir ∧
      DirectDir g.sb s'.medium dir (blocks.take j ++ (blocks.drop j).map (cleared deInode)) ∧
      (∀ i, (∀ k < blocks.length, ¬ InBlock g.sb (dbp dir k) i) → s'.medium i = s.medium i) ∧
      ∀ fuel, removeLoop g heap dirNum deInode (fuel + n) s = some s' := by
  induction m generalizing blocks s j with
  | zero =>
      obtain rfl : j = blocks.length := hm
      refine ⟨s, 1, h.inode, ?_, fun _ _ => rfl, fun fuel => removeLoop_end (h.ended rfl) fuel⟩
      simpa using h.directory
  | succ m ih =>
      have hj : j < blocks.length := by omega
      obtain ⟨s₁, n, hfront, hframe, hrun⟩ := h.clearBlock hj hsmall (hclear j hj le_rfl) heap dirNum
      obtain ⟨s', k, hinode, hdir, hframe', hrun'⟩ := ih (by rw [List.length_set]; omega) hfront
        fun i hi hle => by
          rw [List.length_set] at hi ⊢
          rw [List.getElem_set_ne (by omega)]
          exact hclear i hi (by omega)
      refine ⟨s', k + n, hinode, ?_, fun i hi => ?_, fun fuel => ?_⟩
      · rw [List.drop_set_of_lt (by omega), List.take_succ_eq_append_getElem (by simpa using hj),
          List.getElem_set_self, List.take_set_of_le le_rfl] at hdir
        rwa [List.drop_eq_getElem_cons hj, List.map_cons, ← List.singleton_append,
          ← List.append_assoc]
      · rw [List.length_set] at hframe'
        exact (hframe' i hi).trans (hframe i (hi j hj))
      · rw [← Nat.add_assoc, hrun, hrun']

end Loop

theorem DirectDir.clears (hdir : DirectDir g.sb d dir blocks) (hsmall : g.sb.blockSize < 2 ^ 16)
    (hclear : ∀ j (hj : j < blocks.length),
      Clearable deInode j (j + 1 = blocks.length) blocks[j])
    (heap stack : Bytes) (prev : DirIterator) (dirNum : Nat) :
    ∃ d', Returns (fun fuel => removeDirent g fuel d heap stack dir prev dirNum deInode) (dir, d') ∧
      DirectDir g.sb d' dir (blocks.map (cleared deInode)) ∧
      ∀ i, (∀ j < blocks.length, ¬ InBlock g.sb (dbp dir j) i) → d' i = d i := by
  have hfront : Front g.sb dir blocks
      { it := iterateDirStart g.sb d dir heap stack
        itPrev := { prev with isValid := false }
        dir := dir
        medium := d } 0 := by
    refine ⟨rfl, hdir, fun hpos => hdir.start (List.ne_nil_of_length_pos hpos) heap stack,
      fun hnone => ?_, fun _ => rfl⟩
    have hzero : dbp dir 0 = 0 := by
      have hended := hdir.ended
      rwa [← hnone] at hended
    simp only [iterateDirStart, readInodeData_direct (show 0 < 12 by decide), if_pos hzero]
  obtain ⟨s', n, hinode, hdir', hframe, hrun⟩ := Front.clear hsmall blocks.length (Nat.zero_add _)
    hfront (fun j hj _ => hclear j hj) heap dirNum
  refine ⟨s'.medium, ⟨n, fun fuel hfuel => ?_⟩, by simpa using hdir', hframe⟩
  obtain ⟨k, rfl⟩ := Nat.exists_eq_add_of_le' hfuel
  simp only [removeDirent, hrun, Option.map_some, hinode]

/-- A root directory of one block with the entries `"a"` and `"b"`. -/
def twoNames : Bytes :=
  setLe (setLe (setLe (setLe (lookupMedium 12 97) 10252 4 11) 10256 2 1012) 10258 1 1) 10260 1 98

def firstName : DirRecord := { recordA with
  inodeNum := 2
  size := 12
  size_ge := by decide }

def secondName : DirRecord := ⟨11, 1012, [98], by decide, by decide⟩

theorem directDir_twoNames :
    DirectDir (oneGroup 5).sb twoNames selfDir [[firstName, secondName]] := by
  have hdbp : ∀ i < 12, dbp selfDir i = if i = 0 then 10 else 0 := fun i hi =>
    dbp_lookupMedium blankMedium hi
  refine ⟨by decide, fun j hj => ?_, hdbp 1 (by decide), fun j hj => ?_, fun i hi j hj hne => ?_⟩
  · obtain rfl : j = 0 := by simpa using hj
    rw [hdbp 0 (by decide)]
    decide
  · obtain rfl : j = 0 := by simpa using hj
    unfold dirBlock
    rw [hdbp 0 (by decide)]
    exact .more ⟨by decide +kernel, by decide +kernel, fun _ => by decide +kernel,
      fun _ => by decide +kernel⟩ (.last ⟨by decide +kernel, by decide +kernel,
        fun _ => by decide +kernel, fun _ => by decide +kernel⟩ (by decide +kernel))
  · simp only [List.length_singleton] at hi hj
    omega

end UntitledOs.Fs
