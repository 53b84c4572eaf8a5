import UntitledOs.Fs.Resolve

/-!
# Entering a name in a directory

`fs_ext2_occupy_vacant_dirent` stops at the first entry that it finds room in, an entry not in
use or the slack behind an entry, and writes through an iterator that has moved on.  The place it
writes to is the right one as long as the entry does not end its block; at the end of the
directory the iterator steps back, which a split makes up for where the entry is longer than what
lies before it.
-/

namespace UntitledOs.Fs

open UntitledOs.Lib

variable {g : Gdata} {sb : Superblock} {d heap stack dir blk blk' : Bytes} {it : DirIterator}
  {o : Nat} {e : DirRecord} {es es' pre post mid : List DirRecord} {blocks : List (List DirRecord)}
  {name : List Byte}

/-! ## Chains of entries -/

/-- The bytes that entries take. -/
def span (es : List DirRecord) : Nat := (es.map DirRecord.size).sum

/-- The entries stand one behind the other from offset `o` on. -/
def Chained (sb : Superblock) (blk : Bytes) : Nat → List DirRecord → Prop
  | _, [] => True
  | o, e :: es => RecordAt sb blk o e ∧ Chained sb blk (o + e.size) es

@[simp] theorem span_nil : span [] = 0 := rfl

@[simp] theorem span_cons : span (e :: es) = e.size + span es := rfl

@[simp] theorem span_append : span (es ++ es') = span es + span es' := by
  simp [span]

theorem chained_append :
    Chained sb blk o (es ++ es') ↔ Chained sb blk o es ∧ Chained sb blk (o + span es) es' := by
  induction es generalizing o with
  | nil => simp [Chained]
  | cons e es ih =>
      simp only [List.cons_append, Chained, ih, span_cons, Nat.add_assoc]
      exact and_assoc.symm

theorem Chained.congr (h : Chained sb blk o es)
    (heq : ∀ i, o ≤ i → i < o + span es → blk' i = blk i) : Chained sb blk' o es := by
  induction es generalizing o with
  | nil => trivial
  | cons e es ih =>
      have hsize := e.size_ge
      rw [span_cons] at heq
      exact ⟨h.1.congr fun i hi => heq _ (by omega) (by omega),
        ih h.2 fun i hlow hhigh => heq i (by omega) (by omega)⟩

theorem blockTiled_iff :
    BlockTiled sb blk o es ↔ es ≠ [] ∧ Chained sb blk o es ∧ o + span es = sb.blockSize := by
  constructor
  · intro h
    induction h with
    | last here ends => exact ⟨by simp, ⟨here, trivial⟩, by simpa using ends⟩
    | more here rest ih => exact ⟨by simp, ⟨here, ih.2.1⟩, by rw [span_cons, ← ih.2.2]; omega⟩
  · rintro ⟨hne, hchain, hspan⟩
    induction es generalizing o with
    | nil => exact absurd rfl hne
    | cons e es ih =>
        cases es with
        | nil => exact .last hchain.1 (by simpa using hspan)
        | cons e' es =>
            refine .more hchain.1 (ih (by simp) hchain.2 ?_)
            rw [span_cons] at hspan
            omega

/-- The bytes of `old` are written over with entries of the same length. -/
structure Written (sb : Superblock) (blk blk' : Bytes) (pre old mid : List DirRecord) : Prop where
  kept : ∀ i, i < span pre ∨ span pre + span old ≤ i → blk' i = blk i
  here : Chained sb blk' (span pre) mid
  length : span mid = span old
  ne_nil : mid ≠ []

theorem Written.splice {old : List DirRecord} (h : Written sb blk blk' pre old mid)
    (htiled : BlockTiled sb blk 0 (pre ++ (old ++ post))) :
    BlockTiled sb blk' 0 (pre ++ (mid ++ post)) := by
  rw [blockTiled_iff] at htiled ⊢
  obtain ⟨-, hchain, hend⟩ := htiled
  simp only [chained_append, span_append, Nat.zero_add] at hchain hend ⊢
  rw [h.length]
  exact ⟨by simp [h.ne_nil], ⟨hchain.1.congr fun i _ hi => h.kept i (by omega), h.here,
    hchain.2.2.congr fun i hi _ => h.kept i (.inr hi)⟩, hend⟩

/-! ## The iterator in a directory of direct blocks -/

/-- Logical block `j` of a directory. -/
def dirBlock (sb : Superblock) (d dir : Bytes) (j : Nat) : Bytes := fun i =>
  d (blockStart sb (dbp dir j) + i)

/-- A directory of direct blocks, no two of them the same. -/
structure DirectDir (sb : Superblock) (d dir : Bytes) (blocks : List (List DirRecord)) : Prop where
  few : blocks.length < 12
  present : ∀ j < blocks.length, dbp dir j ≠ 0
  ended : dbp dir blocks.length = 0
  tiled : ∀ j (hj : j < blocks.length), BlockTiled sb (dirBlock sb d dir j) 0 blocks[j]
  apart : ∀ i < blocks.length, ∀ j < blocks.length, i ≠ j →
    blockStart sb (dbp dir i) ≠ blockStart sb (dbp dir j)

theorem pointerOf_direct {j : Nat} (hj : j < 12) (pbuf : Bytes) :
    pointerOf sb d dir pbuf j = dbp dir j := by
  rw [pointerOf, getInodePointer, if_pos hj]

theorem DirectDir.tiledDir (h : DirectDir sb d dir blocks) (pbuf : Bytes) :
    TiledDir sb d dir pbuf blocks := by
  have hfew := h.few
  refine ⟨fun j hj => ?_, ?_, fun j hj => ?_, by omega⟩
  · rw [pointerOf_direct (by omega)]
    exact h.present j hj
  · rw [pointerOf_direct hfew]
    exact h.ended
  · rw [pointerOf_direct (by omega)]
    exact h.tiled j hj

/-- The iterator stands at offset `o` of block `j`. -/
structure StandsAt (sb : Superblock) (d dir : Bytes) (it : DirIterator) (j o : Nat) : Prop where
  valid : it.isValid = true
  inode : it.dir = dir
  blki : it.blki = j
  byteaddr : it.byteaddr = o
  buffer : ∀ i < sb.blockSize, it.blkbuf i = dirBlock sb d dir j i

/-- The iterator `it'` comes from `it` by a call at the entry `e`, with `post` behind it in the
block. -/
structure Steps (sb : Superblock) (d dir : Bytes) (count : Nat) (e : DirRecord)
    (post : List DirRecord) (j o : Nat) (it it' : DirIterator) : Prop where
  header : ∀ i < direntSzWoName, it'.cur i = dirBlock sb d dir j (o + i)
  shows : Shows it'.cur e
  inside : post ≠ [] → StandsAt sb d dir it' j (o + e.size)
  across : post = [] → j + 1 < count → StandsAt sb d dir it' (j + 1) 0
  back : post = [] → j + 1 = count →
    it'.isValid = false ∧ it'.blki = j ∧ it'.byteaddr = o ∧ it'.blkbuf = it.blkbuf

theorem loadEntry_header {i : Nat} (hi : i < direntSzWoName) :
    (loadEntry sb it).cur i = it.blkbuf (it.byteaddr + i) := by
  have hhead : copyTo it.cur 0 (fun i => it.blkbuf (it.byteaddr + i)) direntSzWoName i =
      it.blkbuf (it.byteaddr + i) := by
    have := @copyTo_add it.cur (fun i => it.blkbuf (it.byteaddr + i)) 0 direntSzWoName i hi
    rwa [Nat.zero_add] at this
  rw [loadEntry_eq]
  by_cases hdead : deInodeNum (copyTo it.cur 0 (fun i => it.blkbuf (it.byteaddr + i))
      direntSzWoName) = 0
  · simp only [if_pos hdead]
    exact hhead
  · simp only [if_neg hdead]
    rw [setByte, if_neg (by omega), copyTo_of_lt hi]
    exact hhead

theorem readInodeData_direct {j : Nat} (hj : j < 12) (buf : Bytes) :
    readInodeData sb d dir j buf =
      if dbp dir j = 0 then (false, buf) else (true, readBlock sb d (dbp dir j) buf) := by
  rw [readInodeData, getInodePointer, if_pos hj]

theorem StandsAt.next {j : Nat} (h : StandsAt sb d dir it j (span pre))
    (hdir : DirectDir sb d dir blocks) (hj : j < blocks.length)
    (hblock : blocks[j] = pre ++ e :: post) :
    (iterateDirNext sb d it).1 = true ∧
      Steps sb d dir blocks.length e post j (span pre) it (iterateDirNext sb d it).2 := by
  have htiled := hdir.tiled j hj
  have hfew := hdir.few
  rw [hblock, blockTiled_iff, chained_append, Nat.zero_add] at htiled
  obtain ⟨-, ⟨-, hrecord, -⟩, hend⟩ := htiled
  rw [span_append, span_cons] at hend
  have hbuf : ∀ i, span pre + i < sb.blockSize →
      it.blkbuf (it.byteaddr + i) = dirBlock sb d dir j (span pre + i) := by
    intro i hi
    rw [h.byteaddr]
    exact h.buffer _ hi
  have hsize := e.size_ge
  have hload : RecordAt sb it.blkbuf it.byteaddr e := by
    rw [h.byteaddr]
    exact hrecord.congr fun i hi => h.buffer _ (by omega)
  obtain ⟨hshows, hvalid⟩ := loadEntry_shows h.valid hload
  have hhead : ∀ i < direntSzWoName,
      (loadEntry sb it).cur i = dirBlock sb d dir j (span pre + i) := by
    intro i hi
    rw [loadEntry_header hi]
    exact hbuf i (by omega)
  have hblockSize : sb.blockSize < 2 ^ 32 := Nat.mod_lt _ (by norm_num)
  have hentry : entryEnd sb it = span pre + e.size := by
    rw [entryEnd, hshows.size, h.byteaddr]
    exact Nat.mod_eq_of_lt (by omega)
  have hnext : u32 (it.blki + 1) = j + 1 := by
    rw [h.blki]
    exact Nat.mod_eq_of_lt (by omega)
  rw [iterateDirNext_eq h.valid, hentry, hnext, h.inode]
  by_cases hpost : post = []
  · -- the entry ends its block
    have hleave : sb.blockSize ≤ span pre + e.size := by
      simp only [hpost, span_nil] at hend
      omega
    rw [if_pos hleave, readInodeData_direct (by omega)]
    by_cases hlast : j + 1 < blocks.length
    · simp only [if_neg (hdir.present _ hlast), if_true]
      refine ⟨trivial, hhead, hshows, fun hne => absurd hpost hne, fun _ _ => ?_,
        fun _ heq => absurd heq (by omega)⟩
      exact ⟨hvalid, (loadEntry_dir sb it).trans h.inode, rfl, rfl,
        fun i hi => readBlock_data _ _ hi⟩
    · have hcount : j + 1 = blocks.length := by omega
      have hzero : dbp dir (j + 1) = 0 := by
        rw [hcount]
        exact hdir.ended
      simp only [if_pos hzero, Bool.false_eq_true, if_false]
      refine ⟨trivial, hhead, hshows, fun hne => absurd hpost hne, fun _ hlt => absurd hlt hlast,
        fun _ _ => ⟨rfl, (loadEntry_blki sb it).trans h.blki, ?_, rfl⟩⟩
      simp only [hshows.size, Nat.add_sub_cancel]
  · have hstay : ¬ sb.blockSize ≤ span pre + e.size := by
      obtain ⟨e', post', rfl⟩ := List.exists_cons_of_ne_nil hpost
      have := e'.size_ge
      rw [span_cons] at hend
      unfold direntSzWoName at this
      omega
    rw [if_neg hstay]
    refine ⟨rfl, hhead, hshows, fun _ => ?_, fun hnil => absurd hnil hpost,
      fun hnil => absurd hnil hpost⟩
    exact ⟨hvalid, (loadEntry_dir sb it).trans h.inode, (loadEntry_blki sb it).trans h.blki, rfl,
      fun i hi => (congrFun (loadEntry_blkbuf sb it) i).trans (h.buffer i hi)⟩

theorem DirectDir.start (h : DirectDir sb d dir blocks) (hne : blocks ≠ []) (pbuf stack : Bytes) :
    StandsAt sb d dir (iterateDirStart sb d dir pbuf stack) 0 0 := by
  have hpresent := h.present 0 (List.length_pos_of_ne_nil hne)
  unfold iterateDirStart
  rw [readInodeData_direct (by omega), if_neg hpresent]
  exact ⟨rfl, rfl, rfl, rfl, fun i hi => readBlock_data _ _ hi⟩

/-! ## The walk to the entry that is taken -/

/-- There is room in the entry with this header, as the code computes it. -/
def HasRoom (sb : Superblock) (de : Bytes) (name : List Byte) : Prop :=
  (deInodeNum de = 0 ∧ direntSzWoName + name.length ≤ deEntrySz de) ∨
    direntSzWoName + name.length ≤ entryGap sb de

/-- The entries before the one at the split have no room. -/
structure Passed (sb : Superblock) (d dir : Bytes) (blocks : List (List DirRecord)) (j : Nat)
    (pre : List DirRecord) (name : List Byte) : Prop where
  blocks : ∀ j' (hj' : j' < blocks.length), j' < j → ∀ before e after,
    blocks[j'] = before ++ e :: after →
    ¬ HasRoom sb (fun i => dirBlock sb d dir j' (span before + i)) name
  block : ∀ before e after, pre = before ++ e :: after →
    ¬ HasRoom sb (fun i => dirBlock sb d dir j (span before + i)) name

theorem header_congr {de de' : Bytes} (h : ∀ i < direntSzWoName, de' i = de i) :
    deInodeNum de' = deInodeNum de ∧ deEntrySz de' = deEntrySz de ∧
      deNameLength sb de' = deNameLength sb de := by
  have hfield : ∀ a n, a + n ≤ direntSzWoName → getLe de' a n = getLe de a n := by
    intro a n han
    exact getLe_congr fun i hi => h (a + i) (by omega)
  refine ⟨hfield 0 4 (by decide), hfield 4 2 (by decide), ?_⟩
  unfold deNameLength deNameLengthLo deTypeByte
  rw [hfield 6 1 (by decide), hfield 7 1 (by decide)]

theorem hasRoom_congr {de de' : Bytes} (h : ∀ i < direntSzWoName, de' i = de i) :
    HasRoom sb de' name ↔ HasRoom sb de name := by
  obtain ⟨hnum, hsize, hlen⟩ := @header_congr sb de de' h
  unfold HasRoom entryGap
  rw [hnum, hsize, hlen]

section Loop

variable {deInode type : Nat} {j : Nat}

/-- The loop goes on behind an entry without room. -/
theorem StandsAt.pass (h : StandsAt g.sb d dir it j (span pre)) (hdir : DirectDir g.sb d dir blocks)
    (hj : j < blocks.length) (hblock : blocks[j] = pre ++ e :: post)
    (hroom : ¬ HasRoom g.sb (fun i => dirBlock g.sb d dir j (span pre + i)) name) (fuel : Nat) :
    occupyLoop g d stack dir deInode type name (fuel + 1) it =
      occupyLoop g d stack dir deInode type name fuel (iterateDirNext g.sb d it).2 := by
  obtain ⟨hmore, hsteps⟩ := h.next hdir hj hblock
  have hroom' := (@hasRoom_congr g.sb name _ _ hsteps.header).not.mpr hroom
  unfold HasRoom at hroom'
  rw [not_or] at hroom'
  simp only [occupyLoop]
  rw [if_neg (by rw [hmore]; decide), if_neg hroom'.1, if_neg hroom'.2]

/-- The walk through the entries of a block up to one of them. -/
theorem StandsAt.walk (h : StandsAt g.sb d dir it j 0) (hdir : DirectDir g.sb d dir blocks)
    (hj : j < blocks.length) (hblock : blocks[j] = pre ++ e :: post)
    (hpre : ∀ before e' after, pre = before ++ e' :: after →
      ¬ HasRoom g.sb (fun i => dirBlock g.sb d dir j (span before + i)) name) :
    ∃ it', StandsAt g.sb d dir it' j (span pre) ∧
      ∀ fuel, occupyLoop g d stack dir deInode type name (fuel + pre.length) it =
        occupyLoop g d stack dir deInode type name fuel it' := by
  induction pre using List.reverseRecOn generalizing e post with
  | nil => exact ⟨it, h, fun _ => rfl⟩
  | append_singleton pre last ih =>
      rw [List.append_assoc] at hblock
      obtain ⟨it', hstands, hloop⟩ := ih hblock fun before e' after heq =>
        hpre before e' (after ++ [last]) (by rw [heq]; simp)
      obtain ⟨-, hsteps⟩ := hstands.next hdir hj hblock
      refine ⟨(iterateDirNext g.sb d it').2, ?_, fun fuel => ?_⟩
      · rw [span_append, span_cons, span_nil, Nat.add_zero]
        exact hsteps.inside (by simp)
      · rw [List.length_append, List.length_singleton, Nat.add_comm pre.length 1, ← Nat.add_assoc,
          hloop]
        exact hstands.pass hdir hj hblock (hpre pre last [] rfl) fuel

/-- The walk through whole blocks. -/
theorem DirectDir.walk (hdir : DirectDir g.sb d dir blocks) (hj : j < blocks.length)
    (hpassed : Passed g.sb d dir blocks j pre name) (pbuf : Bytes) :
    ∃ it n, StandsAt g.sb d dir it j 0 ∧
      ∀ fuel, occupyLoop g d stack dir deInode type name (fuel + n)
          (iterateDirStart g.sb d dir pbuf stack) =
        occupyLoop g d stack dir deInode type name fuel it := by
  have hblocks := hpassed.blocks
  clear hpassed
  induction j with
  | zero =>
      refine ⟨_, 0, hdir.start ?_ pbuf stack, fun _ => rfl⟩
      rintro rfl
      simp at hj
  | succ j ih =>
      have hj' : j < blocks.length := by omega
      obtain ⟨it, n, hstands, hloop⟩ := ih hj' fun i hi hlt => hblocks i hi (by omega)
      have hne : blocks[j] ≠ [] := (hdir.tiled j hj').ne_nil
      have hsplit := (List.dropLast_append_getLast hne).symm
      obtain ⟨it', hstands', hloop'⟩ := hstands.walk hdir hj' hsplit fun before e' after heq =>
        hblocks j hj' (by omega) before e' (after ++ [blocks[j].getLast hne])
          (hsplit.trans (by rw [heq]; simp))
      obtain ⟨-, hsteps⟩ := hstands'.next hdir hj' hsplit
      refine ⟨_, n + (1 + blocks[j].dropLast.length), hsteps.across rfl hj, fun fuel => ?_⟩
      have hpass := @StandsAt.pass g d stack dir it' _ _ [] blocks name deInode type j hstands' hdir
        hj' hsplit (hblocks j hj' (by omega) _ _ _ hsplit) fuel
      rw [← hpass, ← hloop', ← hloop]
      congr 1
      omega

end Loop

/-! ## What is written -/

theorem copyBehind_eq (buf src : Bytes) (off back n : Nat) :
    copyBehind buf (off + back) back src n = copyTo buf off src n := by
  funext i
  unfold copyBehind copyTo
  by_cases hin : off ≤ i ∧ i < off + n
  · rw [if_pos hin, if_pos (by omega)]
    congr 1
    omega
  · rw [if_neg hin, if_neg (by omega)]

/-- A header and a name at offset `o`. -/
def placed (buf : Bytes) (o : Nat) (header name : Bytes) (n : Nat) : Bytes :=
  copyTo (copyTo buf o header direntSzWoName) (o + direntSzWoName) name n

theorem placed_of_outside {buf header nm : Bytes} {n i : Nat}
    (h : i < o ∨ o + (direntSzWoName + n) ≤ i) : placed buf o header nm n i = buf i := by
  unfold placed
  rcases h with h | h
  · rw [copyTo_of_lt (by omega), copyTo_of_lt h]
  · rw [copyTo_of_ge (by omega), copyTo_of_ge (by omega)]

theorem recordAt_placed {buf header nm : Bytes} (hnum : deInodeNum header = e.inodeNum)
    (hsize : deEntrySz header = e.size) (hlen : deNameLength sb header = e.name.length)
    (hname : ∀ i < e.name.length, nm i = e.name.getD i 0) :
    RecordAt sb (placed buf o header nm e.name.length) o e := by
  have hhead : ∀ i < direntSzWoName, placed buf o header nm e.name.length (o + i) = header i := by
    intro i hi
    unfold placed
    rw [copyTo_of_lt (by omega), copyTo_add hi]
  obtain ⟨hnum', hsize', hlen'⟩ := @header_congr sb header _ hhead
  refine ⟨hnum'.trans hnum, hsize'.trans hsize, fun _ => hlen'.trans hlen, fun _ i hi => ?_⟩
  rw [placed, copyTo_add hi]
  exact hname i hi

theorem deEntrySz_setDirentNameln (n : Nat) (de : Bytes) :
    deEntrySz (setDirentNameln sb n de).2 = deEntrySz de := by
  unfold setDirentNameln deEntrySz
  split
  · exact getLe_setLe_of_disjoint (.inl (by decide))
  · rw [getLe_setLe_of_disjoint (.inl (by decide)), getLe_setLe_of_disjoint (.inl (by decide))]

/-- The header of a new entry. -/
theorem formDirent_fields {de : Bytes} {deInode : Nat} (hname : name.length ≤ 255)
    (hnum : deInode < 2 ^ 32) (type : Nat) :
    (formDirent sb de deInode type name).1 = name.length ∧
    deInodeNum (formDirent sb de deInode type name).2 = deInode ∧
    deEntrySz (formDirent sb de deInode type name).2 = deEntrySz de ∧
    deNameLength sb (formDirent sb de deInode type name).2 = name.length := by
  have hmod : name.length % 2 ^ 16 = name.length := Nat.mod_eq_of_lt (by omega)
  have hbyte : name.length % 256 = name.length := Nat.mod_eq_of_lt (by omega)
  have hhigh : name.length / 256 = 0 := Nat.div_eq_of_lt (by omega)
  have hmin : min name.length 255 = name.length := by omega
  have hinode : deInode % 256 ^ 4 = deInode := Nat.mod_eq_of_lt (by omega)
  refine ⟨?_, ?_, ?_, ?_⟩
  · unfold formDirent setDirentNameln
    rw [hmod]
    split
    · exact hmin
    · rfl
  · unfold formDirent setDirentNameln deInodeNum setDeTypeByte setDeInodeNum
    split
    · rw [getLe_setLe_of_disjoint (.inl (by decide)), getLe_setLe_of_disjoint (.inl (by decide)),
        getLe_setLe, hinode]
    · rw [getLe_setLe_of_disjoint (.inl (by decide)), getLe_setLe_of_disjoint (.inl (by decide)),
        getLe_setLe_of_disjoint (.inl (by decide)), getLe_setLe, hinode]
  · unfold formDirent
    rw [deEntrySz_setDirentNameln]
    unfold setDeTypeByte setDeInodeNum deEntrySz
    rw [getLe_setLe_of_disjoint (.inl (by decide)), getLe_setLe_of_disjoint (.inr (by decide))]
  · unfold formDirent setDirentNameln deNameLength deNameLengthLo deTypeByte
    rw [hmod]
    cases sb.dirsHaveType with
    | true =>
        simp only [if_true, hmin]
        rw [getLe_setLe]
        exact hbyte
    | false =>
        simp only [Bool.false_eq_true, if_false, hbyte, hhigh, Nat.zero_mod]
        rw [getLe_setLe_of_disjoint (.inl (by decide)), getLe_setLe, getLe_setLe]
        simpa using hbyte

/-! ## The entries afterwards -/

/-- The entries that stand in the place of the one that was taken. -/
inductive Entered (e : DirRecord) (deInode : Nat) (name : List Byte) : List DirRecord → Prop
  | reused (n : DirRecord) (dead : e.inodeNum = 0) (inodeNum : n.inodeNum = deInode)
      (size : n.size = e.size) (named : n.name = name) : Entered e deInode name [n]
  | split (s n : DirRecord) (live : e.inodeNum ≠ 0) (kept : s.inodeNum = e.inodeNum)
      (shrunk : s.size = shrinkSize e.name.length) (same : s.name = e.name)
      (inodeNum : n.inodeNum = deInode) (size : s.size + n.size = e.size) (named : n.name = name) :
      Entered e deInode name [s, n]

/-- The entry takes the name, and the iterator still has its place: an entry ends its block
only where it is split, ends the directory and is longer than what lies before it. -/
inductive Takes (blocks : List (List DirRecord)) (j : Nat) (pre : List DirRecord) (e : DirRecord)
    (post : List DirRecord) (name : List Byte) : Prop
  | reuse (dead : e.inodeNum = 0) (fits : direntSzWoName + name.length ≤ e.size)
      (more : post ≠ []) : Takes blocks j pre e post name
  | split (live : e.inodeNum ≠ 0)
      (fits : shrinkSize e.name.length + (direntSzWoName + name.length) ≤ e.size)
      (stands : post ≠ [] ∨ j + 1 = blocks.length ∧ span pre < e.size) :
      Takes blocks j pre e post name

theorem shrinkSize_ge {n : Nat} (hn : n ≤ 255) :
    direntSzWoName + n ≤ shrinkSize n ∧ shrinkSize n < 2 ^ 16 := by
  unfold shrinkSize direntSzWoName
  dsimp only
  omega

section Place

variable {deInode type j : Nat}

theorem reuseEntry_eq (it : DirIterator) (hname : name.length ≤ 255) (hnum : deInode < 2 ^ 32)
    (haddr : it.byteaddr = o + deEntrySz it.cur) :
    reuseEntry sb it deInode type name = placed it.blkbuf o
      (formDirent sb it.cur deInode type name).2 (nameBytes name) name.length := by
  obtain ⟨hlen, -, hsize, -⟩ := @formDirent_fields sb name it.cur deInode hname hnum type
  unfold reuseEntry
  simp only [hlen, hsize, haddr]
  rw [copyBehind_eq, Nat.add_right_comm, copyBehind_eq]
  rfl

/-- An entry that is not in use takes the name. -/
theorem Written.reuse (hname : name.length ≤ 255) (hnum : deInode < 2 ^ 32)
    (hdead : e.inodeNum = 0) (hfits : direntSzWoName + name.length ≤ e.size)
    (hshows : Shows it.cur e) (haddr : it.byteaddr = span pre + e.size) (type : Nat) :
    ∃ mid, Entered e deInode name mid ∧
      Written sb it.blkbuf (reuseEntry sb it deInode type name) pre [e] mid := by
  obtain ⟨-, hinode, hsize, hlen⟩ := @formDirent_fields sb name it.cur deInode hname hnum type
  rw [reuseEntry_eq it hname hnum (by rw [haddr, hshows.size])]
  have hspan : span [e] = e.size := Nat.add_zero _
  refine ⟨[⟨deInode, e.size, name, hname, hfits⟩], .reused _ hdead rfl rfl rfl,
    fun i hi => placed_of_outside (by omega), ⟨?_, trivial⟩, rfl, by simp⟩
  exact @recordAt_placed sb (span pre) ⟨deInode, e.size, name, hname, hfits⟩ it.blkbuf _ _ hinode
    (hsize.trans hshows.size) hlen fun _ _ => rfl

theorem deNameLength_setDeEntrySz (de : Bytes) (v : Nat) :
    deNameLength sb (setDeEntrySz de v) = deNameLength sb de := by
  unfold deNameLength deNameLengthLo deTypeByte setDeEntrySz
  rw [getLe_setLe_of_disjoint (.inr (by decide)), getLe_setLe_of_disjoint (.inr (by decide))]

theorem entryGap_eq {cur : Bytes} (hsize : deEntrySz cur = e.size)
    (hlen : deNameLength sb cur = e.name.length) (hfits : shrinkSize e.name.length ≤ e.size) :
    entryGap sb cur = e.size - shrinkSize e.name.length := by
  have hlt := deEntrySz_lt cur
  unfold entryGap
  rw [hsize, hlen, show e.size + 2 ^ 64 - shrinkSize e.name.length =
    e.size - shrinkSize e.name.length + 2 ^ 64 by omega, Nat.add_mod_right]
  exact Nat.mod_eq_of_lt (by omega)

theorem splitEntry_eq (it : DirIterator) (hname : name.length ≤ 255) (hnum : deInode < 2 ^ 32)
    (hshows : Shows it.cur e) (hlen : deNameLength sb it.cur = e.name.length)
    (hfits : shrinkSize e.name.length ≤ e.size) (hblock : o + e.size < 2 ^ 32)
    (haddr : (if it.byteaddr < e.size then it.byteaddr else it.byteaddr - e.size) = o) :
    splitEntry sb stack it deInode type name =
      placed (placed it.blkbuf o (setDeEntrySz it.cur (shrinkSize e.name.length))
          (fun i => it.cur (direntSzWoName + i)) e.name.length) (o + shrinkSize e.name.length)
        (setDeEntrySz (formDirent sb stack deInode type name).2
          (e.size - shrinkSize e.name.length)) (nameBytes name) name.length := by
  obtain ⟨hform, -, -, -⟩ := @formDirent_fields sb name stack deInode hname hnum type
  have hlt := deEntrySz_lt it.cur
  have hshrunk : shrinkSize e.name.length < 2 ^ 16 := (shrinkSize_ge e.name_le).2
  have hgap := @entryGap_eq sb e _ hshows.size hlen hfits
  have hset : deEntrySz (setDeEntrySz it.cur (shrinkSize e.name.length)) =
      shrinkSize e.name.length := by
    unfold deEntrySz setDeEntrySz
    rw [getLe_setLe]
    exact Nat.mod_eq_of_lt hshrunk
  have hnext : u32 (o + shrinkSize e.name.length) = o + shrinkSize e.name.length :=
    Nat.mod_eq_of_lt (by omega)
  have hgap16 : (e.size - shrinkSize e.name.length) % 2 ^ 16 =
      e.size - shrinkSize e.name.length := by
    have := hshows.size
    exact Nat.mod_eq_of_lt (by omega)
  have hcur : ∀ i, setDeEntrySz it.cur (shrinkSize e.name.length) (direntSzWoName + i) =
      it.cur (direntSzWoName + i) := by
    intro i
    exact setLe_of_outside (.inr (by unfold direntSzWoName; omega))
  unfold splitEntry
  simp only [hgap, hlen, hshows.size, haddr, hset, hnext, hform, hgap16, hcur]
  rfl

/-- The slack behind an entry takes the name. -/
theorem Written.split (hname : name.length ≤ 255) (hnum : deInode < 2 ^ 32)
    (hlive : e.inodeNum ≠ 0)
    (hfits : shrinkSize e.name.length + (direntSzWoName + name.length) ≤ e.size)
    (hshows : Shows it.cur e) (hlen : deNameLength sb it.cur = e.name.length)
    (hblock : span pre + e.size < 2 ^ 32)
    (haddr : (if it.byteaddr < e.size then it.byteaddr else it.byteaddr - e.size) = span pre)
    (stack : Bytes) (type : Nat) :
    ∃ mid, Entered e deInode name mid ∧
      Written sb it.blkbuf (splitEntry sb stack it deInode type name) pre [e] mid := by
  obtain ⟨-, hinode, -, hnewLen⟩ := @formDirent_fields sb name stack deInode hname hnum type
  obtain ⟨hshrink, hshrunk⟩ := shrinkSize_ge e.name_le
  have hlt := deEntrySz_lt it.cur
  have hsize := hshows.size
  rw [splitEntry_eq it hname hnum hshows hlen (by omega) hblock haddr]
  let s : DirRecord := ⟨e.inodeNum, shrinkSize e.name.length, e.name, e.name_le, hshrink⟩
  let n : DirRecord := ⟨deInode, e.size - shrinkSize e.name.length, name, hname, by omega⟩
  have hspan : span [e] = e.size := Nat.add_zero _
  have hsum : s.size + n.size = e.size :=
    Nat.add_sub_cancel' (show shrinkSize e.name.length ≤ e.size by omega)
  refine ⟨[s, n], .split s n hlive rfl rfl rfl rfl hsum rfl, fun i hi => ?_, ⟨?_, ?_, trivial⟩, ?_,
    by simp⟩
  rotate_right
  · rw [hspan, ← hsum]
    rfl
  · rw [placed_of_outside (by omega), placed_of_outside (by omega)]
  · -- the new entry begins behind the shrunk one
    refine RecordAt.congr (@recordAt_placed sb (span pre) s it.blkbuf
      (setDeEntrySz it.cur (shrinkSize e.name.length)) (fun i => it.cur (direntSzWoName + i))
      ?_ ?_ ?_ (hshows.name hlive)) fun i hi => placed_of_outside (.inl ?_)
    · exact (@getLe_setLe_of_disjoint _ 4 2 _ 0 4 (.inl (by decide))).trans hshows.inodeNum
    · unfold deEntrySz setDeEntrySz
      rw [getLe_setLe]
      exact Nat.mod_eq_of_lt hshrunk
    · rw [deNameLength_setDeEntrySz]
      exact hlen
    · have hs : direntSzWoName + s.name.length ≤ shrinkSize e.name.length := hshrink
      omega
  · refine @recordAt_placed sb _ n _ _ (nameBytes name) ?_ ?_ ?_ fun _ _ => rfl
    · exact (@getLe_setLe_of_disjoint _ 4 2 _ 0 4 (.inl (by decide))).trans hinode
    · unfold deEntrySz setDeEntrySz
      rw [getLe_setLe]
      exact Nat.mod_eq_of_lt (by omega)
    · rw [deNameLength_setDeEntrySz]
      exact hnewLen

end Place

/-! ## The directory afterwards -/

section Directory

variable {deInode type j : Nat}

/-- Behind an entry that does not end its block, or ends the directory, the buffer still holds the
block. -/
theorem Steps.place {count : Nat} {it' : DirIterator} (h : Steps sb d dir count e post j o it it')
    (hstands : StandsAt sb d dir it j o) (hpost : post ≠ [] ∨ j + 1 = count) :
    it'.blki = j ∧ ∀ i < sb.blockSize, it'.blkbuf i = dirBlock sb d dir j i := by
  by_cases hnil : post = []
  · obtain ⟨-, hblki, -, hbuf⟩ := h.back hnil (hpost.resolve_left fun hne => hne hnil)
    refine ⟨hblki, fun i hi => ?_⟩
    rw [hbuf]
    exact hstands.buffer i hi
  · exact ⟨(h.inside hnil).blki, (h.inside hnil).buffer⟩

/-- The place that a split computes from the iterator behind the entry. -/
theorem Steps.address {count : Nat} {it' : DirIterator} (h : Steps sb d dir count e post j o it it')
    (hpost : post ≠ [] ∨ j + 1 = count ∧ o < e.size) :
    (if it'.byteaddr < e.size then it'.byteaddr else it'.byteaddr - e.size) = o := by
  by_cases hnil : post = []
  · obtain ⟨hlast, hlong⟩ := hpost.resolve_left fun hne => hne hnil
    rw [(h.back hnil hlast).2.2.1, if_pos hlong]
  · rw [(h.inside hnil).byteaddr, if_neg (by omega), Nat.add_sub_cancel]

theorem writeInodeData_direct (hj : j < 12) (hptr : dbp dir j ≠ 0) (bin : Bytes) :
    writeInodeData sb d dir j bin = (writeBlock sb d (dbp dir j) bin, bin) := by
  rw [writeInodeData, getInodePointer, if_pos hj, if_neg hptr]

theorem dirBlock_writeBlock {buf : Bytes} {i : Nat} (hi : i < sb.blockSize) :
    dirBlock sb (writeBlock sb d (dbp dir j) buf) dir j i = buf i := by
  have hread := @readBlock_writeBlock sb d buf i (dbp dir j) (fun _ => 0) hi
  rwa [readBlock_data _ _ hi] at hread

/-- The loop ends at the entry that takes the name. -/
theorem StandsAt.takes (h : StandsAt g.sb d dir it j (span pre)) (hdir : DirectDir g.sb d dir blocks)
    (hj : j < blocks.length) (hblock : blocks[j] = pre ++ e :: post)
    (htakes : Takes blocks j pre e post name) (hname : name.length ≤ 255)
    (hnum : deInode < 2 ^ 32) (stack : Bytes) (type : Nat) :
    ∃ mid blk buf, (∀ i < g.sb.blockSize, blk i = dirBlock g.sb d dir j i) ∧
      Entered e deInode name mid ∧ Written g.sb blk buf pre [e] mid ∧
      ∀ fuel, occupyLoop g d stack dir deInode type name (fuel + 1) it =
        some (.inl (writeBlock g.sb d (dbp dir j) buf)) := by
  obtain ⟨hmore, hsteps⟩ := h.next hdir hj hblock
  have hfew := hdir.few
  have hwrite := @writeInodeData_direct g.sb d dir j (by omega) (hdir.present j hj)
  have hstops : ¬ (iterateDirNext g.sb d it).1 = false := by
    rw [hmore]
    decide
  cases htakes with
  | reuse dead fits more =>
      have hinside := hsteps.inside more
      obtain ⟨mid, hentered, hwritten⟩ := @Written.reuse g.sb _ e pre name deInode hname hnum dead
        fits hsteps.shows hinside.byteaddr type
      refine ⟨mid, _, _, hinside.buffer, hentered, hwritten, fun fuel => ?_⟩
      simp only [occupyLoop]
      rw [if_neg hstops, if_pos ⟨hsteps.shows.inodeNum.trans dead, hsteps.shows.size.symm ▸ fits⟩,
        hinside.blki, hwrite]
  | split live fits stands =>
      have htiled := hdir.tiled j hj
      rw [hblock, blockTiled_iff, chained_append, Nat.zero_add] at htiled
      obtain ⟨-, ⟨-, hrecord, -⟩, hend⟩ := htiled
      rw [span_append, span_cons] at hend
      have hblockSize : g.sb.blockSize < 2 ^ 32 := Nat.mod_lt _ (by norm_num)
      obtain ⟨hblki, hbuf⟩ := hsteps.place h (stands.imp_right And.left)
      have haddr := hsteps.address stands
      obtain ⟨-, -, hlen⟩ := @header_congr g.sb _ _ hsteps.header
      rw [hrecord.length live] at hlen
      obtain ⟨mid, hentered, hwritten⟩ := @Written.split g.sb _ e pre name deInode hname hnum live
        fits hsteps.shows hlen (by omega) haddr stack type
      refine ⟨mid, _, _, hbuf, hentered, hwritten, fun fuel => ?_⟩
      have hgap := entryGap_eq hsteps.shows.size hlen (by omega)
      have hlive : ¬ deInodeNum (iterateDirNext g.sb d it).2.cur = 0 := by
        rw [hsteps.shows.inodeNum]
        exact live
      simp only [occupyLoop]
      rw [if_neg hstops, if_neg (fun hdead => hlive hdead.1), if_pos (by rw [hgap]; omega), hblki,
        hwrite]

/-- The medium after a block of the directory was written. -/
theorem Written.directory {buf : Bytes} {old : List DirRecord} (h : Written sb blk buf pre old mid)
    (hdir : DirectDir sb d dir blocks) (hj : j < blocks.length)
    (hblock : blocks[j] = pre ++ (old ++ post))
    (hbuf : ∀ i < sb.blockSize, blk i = dirBlock sb d dir j i) :
    DirectDir sb (writeBlock sb d (dbp dir j) buf) dir (blocks.set j (pre ++ (mid ++ post))) ∧
    ∀ i, i < blockStart sb (dbp dir j) + span pre ∨
        blockStart sb (dbp dir j) + (span pre + span old) ≤ i →
      writeBlock sb d (dbp dir j) buf i = d i := by
  have hinside : ∀ i < sb.blockSize,
      dirBlock sb (writeBlock sb d (dbp dir j) buf) dir j i = buf i := fun i hi =>
    dirBlock_writeBlock hi
  have htiled := hdir.tiled j hj
  rw [hblock] at htiled
  constructor
  · refine ⟨by simpa using hdir.few, fun i hi => ?_, ?_, fun i hi => ?_, fun i hi k hk => ?_⟩
    · exact hdir.present i (by simpa using hi)
    · rw [List.length_set]
      exact hdir.ended
    · have hi' : i < blocks.length := by simpa using hi
      by_cases heq : j = i
      · subst heq
        rw [List.getElem_set_self]
        refine BlockTiled.congr ?_ hinside
        exact h.splice (htiled.congr hbuf)
      · rw [List.getElem_set_ne heq]
        refine (hdir.tiled i hi').congr fun x hx => ?_
        refine writeBlock_of_outside (InBlock.apart (hdir.apart i hi' j hj (Ne.symm heq)) ?_)
        exact ⟨Nat.le_add_right _ _, Nat.add_lt_add_left hx _⟩
    · exact hdir.apart i (by simpa using hi) k (by simpa using hk)
  · intro i hi
    by_cases hin : InBlock sb (dbp dir j) i
    · obtain ⟨x, rfl⟩ := Nat.exists_eq_add_of_le hin.1
      have hx : x < sb.blockSize := by
        have := hin.2
        omega
      exact (hinside x hx).trans ((h.kept x (by omega)).trans (hbuf x hx))
    · exact writeBlock_of_outside hin

theorem dirLookup_append (es es' : List DirRecord) (name : Path) :
    dirLookup (es ++ es') name = (dirLookup es name).or (dirLookup es' name) := by
  unfold dirLookup
  rw [List.find?_append, Option.map_or]

/-- The lookup in the entries that stand in the place of one. -/
theorem Entered.lookup (h : Entered e deInode name mid) (hlive : deInode ≠ 0) (other : Path) :
    dirLookup mid other =
      (dirLookup [e] other).or (if other = name then some deInode else none) := by
  cases h with
  | reused n dead inodeNum _ named =>
      subst inodeNum named
      by_cases heq : n.name = other
      · simp [dirLookup, dead, hlive, heq]
      · simp [dirLookup, dead, heq, Ne.symm heq]
  | split s n live kept _ same inodeNum _ named =>
      subst inodeNum named
      by_cases hold : e.name = other
      · simp [dirLookup, kept, same, live, hold]
      · by_cases heq : n.name = other
        · simp [dirLookup, same, hold, hlive, heq]
        · simp [dirLookup, same, hold, heq, Ne.symm heq]

/-- The entries of a directory before and after one of them was replaced. -/
theorem flatten_set (hj : j < blocks.length) (hblock : blocks[j] = pre ++ e :: post) :
    ∃ front back, blocks.flatten = front ++ e :: back ∧
      ∀ mid, (blocks.set j (pre ++ (mid ++ post))).flatten = front ++ (mid ++ back) := by
  refine ⟨(blocks.take j).flatten ++ pre, post ++ (blocks.drop (j + 1)).flatten, ?_, fun mid => ?_⟩
  · have hold : blocks = blocks.take j ++ (pre ++ e :: post) :: blocks.drop (j + 1) := by
      rw [← hblock, ← List.drop_eq_getElem_cons hj, List.take_append_drop]
    conv_lhs => rw [hold]
    simp
  · rw [List.set_eq_take_append_cons_drop, if_pos hj]
    simp

theorem Entered.dirLookup (h : Entered e deInode name mid) (hlive : deInode ≠ 0)
    (hj : j < blocks.length) (hblock : blocks[j] = pre ++ e :: post) :
    (Fs.dirLookup blocks.flatten name = none →
      Fs.dirLookup (blocks.set j (pre ++ (mid ++ post))).flatten name = some deInode) ∧
    ∀ other ≠ name, Fs.dirLookup (blocks.set j (pre ++ (mid ++ post))).flatten other =
      Fs.dirLookup blocks.flatten other := by
  obtain ⟨front, back, hold, hnew⟩ := flatten_set hj hblock
  rw [hold, hnew, ← List.singleton_append]
  simp only [dirLookup_append, h.lookup hlive]
  constructor
  · intro hnone
    simp only [Option.or_eq_none_iff] at hnone
    simp [hnone.1, hnone.2.1]
  · intro other hother
    simp [hother]

/-- The call that enters a name writes the block of the entry. -/
theorem DirectDir.enters (hdir : DirectDir g.sb d dir blocks) (hj : j < blocks.length)
    (hblock : blocks[j] = pre ++ e :: post) (hpassed : Passed g.sb d dir blocks j pre name)
    (htakes : Takes blocks j pre e post name) (hname : name.length ≤ 255) (hnum : deInode < 2 ^ 32)
    (heap stack : Bytes) (dirNum type : Nat) :
    ∃ mid blk buf, (∀ i < g.sb.blockSize, blk i = dirBlock g.sb d dir j i) ∧
      Entered e deInode name mid ∧ Written g.sb blk buf pre [e] mid ∧
      Returns (fun fuel => occupyVacantDirent g fuel d heap stack dir dirNum deInode type name)
        (true, dir, writeBlock g.sb d (dbp dir j) buf) := by
  obtain ⟨it, n, hstart, hblocks⟩ := @DirectDir.walk g d stack dir pre blocks name deInode type j
    hdir hj hpassed heap
  obtain ⟨it', hstands, hentries⟩ := @StandsAt.walk g d stack dir it e pre post blocks name deInode
    type j hstart hdir hj hblock hpassed.block
  obtain ⟨mid, blk, buf, hbuf, hentered, hwritten, htake⟩ :=
    @StandsAt.takes g d dir it' e pre post blocks name deInode j hstands hdir hj hblock htakes hname
      hnum stack type
  refine ⟨mid, blk, buf, hbuf, hentered, hwritten, 1 + pre.length + n, fun fuel hfuel => ?_⟩
  obtain ⟨k, rfl⟩ : ∃ k, fuel = k + 1 + pre.length + n := ⟨fuel - (1 + pre.length + n), by omega⟩
  simp only [occupyVacantDirent, hblocks, hentries, htake, Option.map_some]

end Directory

/-- The root directory of `lookupMedium`. -/
def selfDir : Bytes :=
  readInode (oneGroup 5) (lookupMedium 1024 97) blankMedium fsExt2RootInode blankMedium

theorem directDir_lookupMedium :
    DirectDir (oneGroup 5).sb (lookupMedium 1024 97) selfDir [[selfRecord]] := by
  have hdbp : ∀ i < 12, dbp selfDir i = if i = 0 then 10 else 0 := fun i hi =>
    dbp_lookupMedium blankMedium hi
  refine ⟨by decide, fun j hj => ?_, hdbp 1 (by decide), fun j hj => ?_, fun i hi j hj hne => ?_⟩
  · obtain rfl : j = 0 := by simpa using hj
    rw [hdbp 0 (by decide)]
    decide
  · obtain rfl : j = 0 := by simpa using hj
    unfold dirBlock
    rw [hdbp 0 (by decide)]
    exact .last ⟨by decide +kernel, by decide +kernel, fun _ => by decide +kernel,
      fun _ => by decide +kernel⟩ (by decide +kernel)
  · simp only [List.length_singleton] at hi hj
    omega

end UntitledOs.Fs
