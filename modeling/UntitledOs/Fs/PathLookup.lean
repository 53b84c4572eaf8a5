import UntitledOs.Fs.Listing
import UntitledOs.Fs.InodeTable
import UntitledOs.Fs.Path

/-!
# Path lookup

`fs_ext2_find_final_inode` looks for each component of a path in the directory of
the one before.  The walk through a directory moves on by the size of the entry it
stands at, and stays there for ever when that size is zero.
-/

namespace UntitledOs.Fs

open UntitledOs.Lib

variable {g : Gdata} {sb : Superblock} {d heap : Bytes} {name : Path}

def fsErrDoesntExist : Int := -1

def fsExt2RootInode : Nat := 2

/-- `!strcmp(m + a, s)`. -/
def strcmpEq (m : Bytes) (a : Nat) : Path → Bool
  | [] => m a = 0
  | c :: s => m a = c ∧ strcmpEq m (a + 1) s

/-- The inner loop: `cur_inode_num` behind it, and the iterator. -/
def findEntry (sb : Superblock) (d : Bytes) (fcur : Path) :
    Nat → DirIterator → Option (Nat × DirIterator)
  | 0, _ => none
  | fuel + 1, it =>
      let r := iterateDirNext sb d it
      if r.1 = false then some (0, r.2)
      else if strcmpEq r.2.cur direntSzWoName fcur then some (deInodeNum r.2.cur, r.2)
      else findEntry sb d fcur fuel r.2

/-- What the locals of the lookup hold from component to component. -/
structure LookupFrame where
  curDir : Bytes
  itBuf : Bytes
  cur : Bytes

/-- The outer loop, over the components that are left. -/
def lookupLoop (g : Gdata) (fuel : Nat) (d heap : Bytes) :
    List Path → Nat → LookupFrame → Option (Except Int Nat)
  | [], curInodeNum, _ => some (.ok curInodeNum)
  | fcur :: rest, curInodeNum, frame =>
      let curDir := readInode g d heap curInodeNum frame.curDir
      let it := iterateDirStart g.sb d curDir frame.itBuf frame.cur
      (findEntry g.sb d fcur fuel it).bind fun r =>
        if r.1 = 0 then some (.error fsErrDoesntExist)
        else lookupLoop g fuel d heap rest r.1 ⟨curDir, r.2.blkbuf, r.2.cur⟩

/-- `sizeof(fs_ext2_inode)` -/
def fsExt2InodeBytes : Nat := 128

/-- `fs_ext2_find_final_inode`. -/
def findFinalInode (g : Gdata) (fuel : Nat) (d heap : Bytes) (frame : LookupFrame) (path : Path)
    (out : Bytes) : Option (Except Int (Nat × Bytes)) :=
  -- every lookup reads an inode into a variable, and a larger one overwrites what lies behind it
  if fsExt2InodeBytes < g.sb.inodeSize then none
  else
    (lookupLoop g fuel d heap (components path) fsExt2RootInode frame).map fun r =>
      r.map fun num => (num, readInode g d heap num out)

section Walk

/-- The walk stands at an entry of size zero that is not the one it looks for. -/
structure Stuck (sb : Superblock) (fcur : Path) (it : DirIterator) : Prop where
  valid : it.isValid = true
  inside : it.byteaddr < sb.blockSize
  size : deEntrySz (loadEntry sb it).cur = 0
  stays : (loadEntry sb it).isValid = true
  other : strcmpEq (loadEntry sb it).cur direntSzWoName fcur = false

/-- The states that the walk for `fcur` passes. -/
inductive Visits (sb : Superblock) (d : Bytes) (fcur : Path) : DirIterator → DirIterator → Prop
  | here (it : DirIterator) : Visits sb d fcur it it
  | next {it it' : DirIterator} : (iterateDirNext sb d it).1 = true →
      strcmpEq (iterateDirNext sb d it).2.cur direntSzWoName fcur = false →
      Visits sb d fcur (iterateDirNext sb d it).2 it' → Visits sb d fcur it it'

theorem findEntry_step {it : DirIterator} (hnext : (iterateDirNext sb d it).1 = true)
    (hother : strcmpEq (iterateDirNext sb d it).2.cur direntSzWoName name = false) (fuel : Nat) :
    findEntry sb d name (fuel + 1) it = findEntry sb d name fuel (iterateDirNext sb d it).2 := by
  simp only [findEntry]
  rw [hnext, hother, if_neg (by decide), if_neg (by decide)]

theorem findEntry_steady (it : DirIterator) :
    Steady fun fuel => findEntry sb d name fuel it := by
  intro fuel
  induction fuel generalizing it with
  | zero => exact Below.none _
  | succ fuel ih =>
      simp only [findEntry]
      split
      · exact Below.refl _
      · split
        · exact Below.refl _
        · exact ih _

theorem loadEntry_byteaddr (sb : Superblock) (it : DirIterator) :
    (loadEntry sb it).byteaddr = it.byteaddr := by
  unfold loadEntry
  dsimp only
  split <;> rfl

/-- The entry at the iterator, with the name that `cur` keeps for a dead one. -/
theorem loadEntry_eq (sb : Superblock) (it : DirIterator) :
    loadEntry sb it =
      let head := copyTo it.cur 0 (fun i => it.blkbuf (it.byteaddr + i)) direntSzWoName
      if deInodeNum head = 0 then { it with cur := head }
      else
        let n := min (deNameLength sb head) 256
        { it with
          cur := setByte (copyTo head direntSzWoName
            (fun i => it.blkbuf (it.byteaddr + direntSzWoName + i)) n) (direntSzWoName + n) 0
          isValid := decide (n ≠ 256) } := rfl

theorem copyTo_again (m src : Bytes) (off n : Nat) :
    copyTo (copyTo m off src n) off src n = copyTo m off src n := by
  funext i
  unfold copyTo
  split <;> rfl

theorem loadEntry_again (sb : Superblock) (it : DirIterator) :
    loadEntry sb (loadEntry sb it) = loadEntry sb it := by
  set head := copyTo it.cur 0 (fun i => it.blkbuf (it.byteaddr + i)) direntSzWoName with hhead
  by_cases hdead : deInodeNum head = 0
  · have hload : loadEntry sb it = { it with cur := head } := by
      rw [loadEntry_eq]
      exact if_pos hdead
    rw [hload, loadEntry_eq]
    simp only [hhead, copyTo_again]
    rw [if_pos hdead]
  · set n := min (deNameLength sb head) 256 with hn
    set cur := setByte (copyTo head direntSzWoName
      (fun i => it.blkbuf (it.byteaddr + direntSzWoName + i)) n) (direntSzWoName + n) 0 with hcur
    have hload : loadEntry sb it = { it with cur := cur, isValid := decide (n ≠ 256) } := by
      rw [loadEntry_eq]
      exact if_neg hdead
    have hbelow : ∀ i < direntSzWoName, cur i = head i := by
      intro i hi
      rw [hcur, setByte, if_neg (by omega)]
      exact copyTo_of_lt hi
    have hsame : copyTo cur 0 (fun i => it.blkbuf (it.byteaddr + i)) direntSzWoName = cur := by
      funext i
      by_cases hi : i < direntSzWoName
      · rw [hbelow i hi, hhead]
        unfold copyTo
        rw [if_pos (by omega), if_pos (by omega)]
      · exact copyTo_of_ge (by omega)
    have hname : setByte (copyTo cur direntSzWoName
        (fun i => it.blkbuf (it.byteaddr + direntSzWoName + i)) n) (direntSzWoName + n) 0 = cur := by
      funext i
      by_cases hend : i = direntSzWoName + n
      · rw [hcur, setByte, setByte, if_pos hend, if_pos hend]
      · rw [setByte, if_neg hend, copyTo]
        split
        · rename_i hin
          rw [hcur, setByte, if_neg hend, copyTo, if_pos hin]
        · rfl
    have hfield : ∀ a k, a + k ≤ direntSzWoName → getLe cur a k = getLe head a k := fun a k hak =>
      getLe_congr fun i hi => hbelow _ (by omega)
    have hnum : deInodeNum cur = deInodeNum head := hfield 0 4 (by decide)
    have hlen : deNameLength sb cur = deNameLength sb head := by
      unfold deNameLength deNameLengthLo deTypeByte
      rw [hfield 6 1 (by decide), hfield 7 1 (by decide)]
    rw [hload, loadEntry_eq]
    simp only [hsame, hnum, hlen, if_neg hdead]
    rw [← hn, hname]

theorem Stuck.iterateDirNext {it : DirIterator} (h : Stuck sb name it) :
    Fs.iterateDirNext sb d it = (true, loadEntry sb it) := by
  have hsize := blockSize_le sb
  have hinside := h.inside
  have hvalid : ¬ it.isValid = false := by
    rw [h.valid]
    decide
  have hstay : u32 ((loadEntry sb it).byteaddr + deEntrySz (loadEntry sb it).cur) =
      (loadEntry sb it).byteaddr := by
    rw [h.size, loadEntry_byteaddr, Nat.add_zero]
    exact Nat.mod_eq_of_lt (by omega)
  unfold Fs.iterateDirNext
  simp only [if_neg hvalid, hstay]
  rw [if_neg (by rw [loadEntry_byteaddr]; omega)]

theorem Stuck.again {it : DirIterator} (h : Stuck sb name it) : Stuck sb name (loadEntry sb it) where
  valid := h.stays
  inside := by
    rw [loadEntry_byteaddr]
    exact h.inside
  size := by
    rw [loadEntry_again]
    exact h.size
  stays := by
    rw [loadEntry_again]
    exact h.stays
  other := by
    rw [loadEntry_again]
    exact h.other

theorem Stuck.findEntry_none {it : DirIterator} (h : Stuck sb name it) (fuel : Nat) :
    findEntry sb d name fuel it = none := by
  induction fuel generalizing it with
  | zero => rfl
  | succ fuel ih =>
      have hnext := h.iterateDirNext (d := d)
      rw [findEntry_step (by rw [hnext]) (by rw [hnext]; exact h.other), hnext]
      exact ih h.again

theorem Visits.findEntry_none {it it' : DirIterator} (h : Visits sb d name it it')
    (hnone : ∀ fuel, findEntry sb d name fuel it' = none) (fuel : Nat) :
    findEntry sb d name fuel it = none := by
  induction h generalizing fuel with
  | here it => exact hnone fuel
  | next hmore hother _ ih =>
      cases fuel with
      | zero => rfl
      | succ fuel => rw [findEntry_step hmore hother, ih hnone]

end Walk

section Progress

/-- A directory with finitely many blocks: logical block `k` has none. -/
def EndsAt (sb : Superblock) (d dir : Bytes) (k : Nat) : Prop :=
  k < 2 ^ 32 ∧ ∀ buf, (readInodeData sb d dir k buf).1 = false

/-- What a walk that is not stuck leaves ahead of it. -/
structure WalkInv (sb : Superblock) (d dir : Bytes) (last : Nat) (it : DirIterator) : Prop where
  same : it.dir = dir
  ends : EndsAt sb d dir last
  block : it.isValid = true → it.blki < last
  inside : it.byteaddr = 0 ∨ it.byteaddr < sb.blockSize

/-- What the walk has ahead of it: the blocks behind its own, and then the bytes of its own. -/
def ahead (sb : Superblock) (last : Nat) (it : DirIterator) : Nat ×ₗ Nat :=
  toLex (last - it.blki, sb.blockSize - it.byteaddr)

theorem loadEntry_dir (sb : Superblock) (it : DirIterator) : (loadEntry sb it).dir = it.dir := by
  unfold loadEntry
  dsimp only
  split <;> rfl

theorem loadEntry_blki (sb : Superblock) (it : DirIterator) : (loadEntry sb it).blki = it.blki := by
  unfold loadEntry
  dsimp only
  split <;> rfl

theorem loadEntry_blkbuf (sb : Superblock) (it : DirIterator) :
    (loadEntry sb it).blkbuf = it.blkbuf := by
  unfold loadEntry
  dsimp only
  split <;> rfl

theorem deEntrySz_lt (de : Bytes) : deEntrySz de < 2 ^ 16 := by
  unfold deEntrySz getLe getLe getLe
  have h0 := (de 4).isLt
  have h1 := (de (4 + 1)).isLt
  omega

/-- Where the entry at the iterator ends. -/
def entryEnd (sb : Superblock) (it : DirIterator) : Nat :=
  u32 (it.byteaddr + deEntrySz (loadEntry sb it).cur)

/-- A step stays in its block, moves to the next one or finds that there is none. -/
theorem iterateDirNext_cases (d : Bytes) {it : DirIterator} (hvalid : it.isValid = true) :
    (entryEnd sb it < sb.blockSize ∧
      iterateDirNext sb d it = (true, { loadEntry sb it with byteaddr := entryEnd sb it })) ∨
    (sb.blockSize ≤ entryEnd sb it ∧ ∃ buf,
      readInodeData sb d it.dir (u32 (it.blki + 1)) it.blkbuf = (true, buf) ∧
      iterateDirNext sb d it = (true,
        { loadEntry sb it with blki := u32 (it.blki + 1), blkbuf := buf, byteaddr := 0 })) ∨
    ∃ it', it'.isValid = false ∧ it'.cur = (loadEntry sb it).cur ∧
      iterateDirNext sb d it = (true, it') := by
  have hnot : ¬ it.isValid = false := by
    rw [hvalid]
    decide
  unfold iterateDirNext
  simp only [if_neg hnot, loadEntry_byteaddr, loadEntry_blki, loadEntry_dir, loadEntry_blkbuf]
  change (entryEnd sb it < sb.blockSize ∧ (if sb.blockSize ≤ entryEnd sb it then _ else _) = _) ∨ _
  by_cases hleave : sb.blockSize ≤ entryEnd sb it
  · have hif := hleave
    unfold entryEnd at hif
    simp only [if_pos hif]
    cases hread : readInodeData sb d it.dir (u32 (it.blki + 1)) it.blkbuf with
    | mk more buf =>
        cases more with
        | true => exact .inr (.inl ⟨hleave, buf, rfl, rfl⟩)
        | false =>
            refine .inr (.inr ⟨_, ?_, ?_, if_neg Bool.false_ne_true⟩)
            · rfl
            · rfl
  · exact .inl ⟨by omega, if_neg hleave⟩

theorem iterateDirNext_more (d : Bytes) {it : DirIterator} (hvalid : it.isValid = true) :
    (iterateDirNext sb d it).1 = true ∧
      (iterateDirNext sb d it).2.cur = (loadEntry sb it).cur := by
  obtain ⟨-, h⟩ | ⟨-, buf, -, h⟩ | ⟨it', -, hcur, h⟩ := @iterateDirNext_cases sb d it hvalid
  · rw [h]
    exact ⟨rfl, rfl⟩
  · rw [h]
    exact ⟨rfl, rfl⟩
  · rw [h]
    exact ⟨rfl, hcur⟩

/-- A step of a walk that is not stuck ends the walk or brings it forward. -/
theorem iterateDirNext_forward {dir : Bytes} {last : Nat} {it : DirIterator}
    (hinv : WalkInv sb d dir last it) (hvalid : it.isValid = true)
    (hother : strcmpEq (loadEntry sb it).cur direntSzWoName name = false)
    (hstuck : ¬ Stuck sb name it) :
    (iterateDirNext sb d it).2.isValid = false ∨
      WalkInv sb d dir last (iterateDirNext sb d it).2 ∧
        ahead sb last (iterateDirNext sb d it).2 < ahead sb last it := by
  have hsize := blockSize_le sb
  have hinside := hinv.inside
  have hblock := hinv.block hvalid
  have hlast := hinv.ends.1
  have hentry := deEntrySz_lt (loadEntry sb it).cur
  obtain ⟨hend, h⟩ | ⟨-, buf, hread, h⟩ | ⟨it', hinvalid, -, h⟩ :=
    @iterateDirNext_cases sb d it hvalid
  · rw [h]
    have hwrap : entryEnd sb it = it.byteaddr + deEntrySz (loadEntry sb it).cur :=
      Nat.mod_eq_of_lt (by omega)
    by_cases hstays : (loadEntry sb it).isValid = true
    · have hpos : deEntrySz (loadEntry sb it).cur ≠ 0 := fun hzero =>
        hstuck ⟨hvalid, by omega, hzero, hstays, hother⟩
      refine .inr ⟨⟨?_, hinv.ends, fun _ => ?_, .inr hend⟩, ?_⟩
      · exact (loadEntry_dir sb it).trans hinv.same
      · simp only [loadEntry_blki]
        exact hblock
      · unfold ahead
        rw [Prod.Lex.toLex_lt_toLex]
        simp only [loadEntry_blki, hwrap]
        exact .inr ⟨trivial, by omega⟩
    · exact .inl (Bool.not_eq_true _ ▸ hstays)
  · rw [h]
    have hwrap : u32 (it.blki + 1) = it.blki + 1 := Nat.mod_eq_of_lt (by omega)
    have hne : it.blki + 1 ≠ last := by
      intro heq
      have hend := hinv.ends.2 it.blkbuf
      rw [← heq, ← hwrap, ← hinv.same, hread] at hend
      exact Bool.noConfusion hend
    refine .inr ⟨⟨?_, hinv.ends, fun _ => ?_, .inl rfl⟩, ?_⟩
    · exact (loadEntry_dir sb it).trans hinv.same
    · simp only [hwrap]
      omega
    · unfold ahead
      rw [Prod.Lex.toLex_lt_toLex]
      simp only [hwrap]
      omega
  · rw [h]
    exact .inl hinvalid

theorem findEntry_invalid {it : DirIterator} (h : it.isValid = false) (fuel : Nat) :
    findEntry sb d name (fuel + 1) it = some (0, it) := by
  have hnext : iterateDirNext sb d it = (false, it) := if_pos h
  simp only [findEntry, hnext]
  rfl

theorem findEntry_ends {dir : Bytes} {last : Nat} (it : DirIterator)
    (hinv : WalkInv sb d dir last it)
    (hfree : ∀ it', Visits sb d name it it' → ¬ Stuck sb name it') :
    ∃ fuel r, findEntry sb d name fuel it = some r := by
  induction hm : ahead sb last it using WellFoundedLT.induction generalizing it with
  | _ m ih =>
      by_cases hvalid : it.isValid = true
      · obtain ⟨hmore, hcur⟩ := @iterateDirNext_more sb d it hvalid
        cases hother : strcmpEq (loadEntry sb it).cur direntSzWoName name with
        | true =>
            refine ⟨1, (deInodeNum (loadEntry sb it).cur, (iterateDirNext sb d it).2), ?_⟩
            simp only [findEntry]
            rw [hmore, hcur, hother, if_neg (by decide), if_pos rfl]
        | false =>
            have hunlike := hother
            rw [← hcur] at hunlike
            obtain hinvalid | ⟨hinv', hless⟩ :=
              iterateDirNext_forward hinv hvalid hother (hfree it (.here it))
            · exact ⟨2, _, (findEntry_step hmore hunlike 1).trans (findEntry_invalid hinvalid 0)⟩
            · obtain ⟨fuel, r, hr⟩ := ih _ (hm ▸ hless) _ hinv'
                (fun it' h => hfree it' (.next hmore hunlike h)) rfl
              exact ⟨fuel + 1, r, (findEntry_step hmore hunlike fuel).trans hr⟩
      · exact ⟨1, _, findEntry_invalid (Bool.not_eq_true _ ▸ hvalid) 0⟩

/-- The inner loop ends unless the walk gets stuck. -/
theorem findEntry_returns_iff {dir : Bytes} {last : Nat} {it : DirIterator}
    (hinv : WalkInv sb d dir last it) :
    (∃ r, Returns (fun fuel => findEntry sb d name fuel it) r) ↔
      ∀ it', Visits sb d name it it' → ¬ Stuck sb name it' := by
  constructor
  · rintro ⟨r, hr⟩ it' hvisit hstuck
    exact not_returns (hvisit.findEntry_none hstuck.findEntry_none) r hr
  · intro hfree
    obtain ⟨fuel, r, hr⟩ := findEntry_ends it hinv hfree
    exact ⟨r, (findEntry_steady it).returns fuel hr⟩

end Progress

section Lookup

variable {frame : LookupFrame}

theorem walkInv_start {dir : Bytes} {last : Nat} (h : EndsAt sb d dir last) (pbuf stack : Bytes) :
    WalkInv sb d dir last (iterateDirStart sb d dir pbuf stack) where
  same := rfl
  ends := h
  block hvalid := by
    have hread : (readInodeData sb d dir 0 pbuf).1 = true := hvalid
    refine Nat.pos_of_ne_zero fun hzero => ?_
    have hend := h.2 pbuf
    rw [hzero, hread] at hend
    exact Bool.noConfusion hend
  inside := .inl rfl

/-- The lookup of the components in the first argument comes to a walk for `fcur` that starts at
an iterator. -/
inductive LooksIn (g : Gdata) (d heap : Bytes) :
    List Path → Nat → LookupFrame → Path → DirIterator → Prop
  | here (fcur : Path) (rest : List Path) (num : Nat) (frame : LookupFrame) :
      LooksIn g d heap (fcur :: rest) num frame fcur
        (iterateDirStart g.sb d (readInode g d heap num frame.curDir) frame.itBuf frame.cur)
  | later {fcur fcur' : Path} {rest : List Path} {num : Nat} {frame : LookupFrame}
      {r : Nat × DirIterator} {it : DirIterator} :
      Returns (fun fuel => findEntry g.sb d fcur fuel
        (iterateDirStart g.sb d (readInode g d heap num frame.curDir) frame.itBuf frame.cur)) r →
      r.1 ≠ 0 →
      LooksIn g d heap rest r.1
        ⟨readInode g d heap num frame.curDir, r.2.blkbuf, r.2.cur⟩ fcur' it →
      LooksIn g d heap (fcur :: rest) num frame fcur' it

/-- Every directory in which the lookup of the path looks has finitely many blocks. -/
def FiniteDirs (g : Gdata) (d heap : Bytes) (comps : List Path) (num : Nat) (frame : LookupFrame) :
    Prop :=
  ∀ fcur it, LooksIn g d heap comps num frame fcur it → ∃ last, EndsAt g.sb d it.dir last

/-- No walk of the lookup comes to an entry of size zero before the one it looks for. -/
def NeverStuck (g : Gdata) (d heap : Bytes) (comps : List Path) (num : Nat) (frame : LookupFrame) :
    Prop :=
  ∀ fcur it, LooksIn g d heap comps num frame fcur it →
    ∀ it', Visits g.sb d fcur it it' → ¬ Stuck g.sb fcur it'

theorem lookupLoop_steady (comps : List Path) (num : Nat) (frame : LookupFrame) :
    Steady fun fuel => lookupLoop g fuel d heap comps num frame := by
  induction comps generalizing num frame with
  | nil => exact Steady.const _
  | cons fcur rest ih =>
      refine Steady.bind (findEntry_steady _) fun r => ?_
      by_cases hzero : r.1 = 0
      · simp only [if_pos hzero]
        exact Steady.const _
      · simp only [if_neg hzero]
        exact ih _ _

theorem lookupLoop_returns_iff (comps : List Path) (num : Nat) (frame : LookupFrame)
    (hfinite : FiniteDirs g d heap comps num frame) :
    (∃ r, Returns (fun fuel => lookupLoop g fuel d heap comps num frame) r) ↔
      NeverStuck g d heap comps num frame := by
  induction comps generalizing num frame with
  | nil =>
      refine ⟨fun _ fcur it h => ?_, fun _ => ⟨_, Returns.const _⟩⟩
      cases h
  | cons fcur rest ih =>
      obtain ⟨last, hend⟩ := hfinite _ _ (.here fcur rest num frame)
      have hwalk := @findEntry_returns_iff g.sb d fcur _ last _
        (walkInv_start hend frame.itBuf frame.cur)
      constructor
      · rintro ⟨r, n, hr⟩ fcur' it hlook
        have hn := hr n le_rfl
        simp only [lookupLoop] at hn
        obtain ⟨e, hentry, hrest⟩ := Option.bind_eq_some_iff.mp hn
        have hreturns := (findEntry_steady _).returns n hentry
        cases hlook with
        | here => exact hwalk.mp ⟨e, hreturns⟩
        | later hr' hne hlater =>
            obtain rfl := hr'.unique hreturns
            rw [if_neg hne] at hrest
            exact (ih _ _ fun c it h => hfinite c it (.later hreturns hne h)).mp
              ⟨r, (lookupLoop_steady _ _ _).returns n hrest⟩ _ _ hlater
      · intro hfree
        obtain ⟨e, hentry⟩ := hwalk.mpr (hfree _ _ (.here fcur rest num frame))
        by_cases hzero : e.1 = 0
        · refine ⟨.error fsErrDoesntExist, Returns.bind hentry ?_⟩
          simp only [if_pos hzero]
          exact Returns.const _
        · obtain ⟨r, hr⟩ := (ih e.1 _ fun c it h => hfinite c it (.later hentry hzero h)).mpr
            fun c it h => hfree c it (.later hentry hzero h)
          refine ⟨r, Returns.bind hentry ?_⟩
          simp only [if_neg hzero]
          exact hr

theorem lookupLoop_error {fuel : Nat} {comps : List Path} {num : Nat} {frame : LookupFrame} {e : Int}
    (h : lookupLoop g fuel d heap comps num frame = some (.error e)) : e = fsErrDoesntExist := by
  induction comps generalizing num frame with
  | nil => simp [lookupLoop] at h
  | cons fcur rest ih =>
      simp only [lookupLoop] at h
      obtain ⟨r, -, hrest⟩ := Option.bind_eq_some_iff.mp h
      split at hrest
      · exact (Except.error.inj (Option.some.inj hrest)).symm
      · exact ih hrest

/-- The lookup ends, with an inode or with `FS_ERR_DOESNT_EXIST`. -/
def LookupEnds (g : Gdata) (d heap : Bytes) (frame : LookupFrame) (path : Path) (out : Bytes) :
    Prop :=
  Returns (fun fuel => findFinalInode g fuel d heap frame path out) (.error fsErrDoesntExist) ∨
    ∃ num, Returns (fun fuel => findFinalInode g fuel d heap frame path out)
      (.ok (num, readInode g d heap num out))

theorem findFinalInode_eq (hsize : g.sb.inodeSize ≤ fsExt2InodeBytes) (fuel : Nat)
    (frame : LookupFrame) (path : Path) (out : Bytes) :
    findFinalInode g fuel d heap frame path out =
      (lookupLoop g fuel d heap (components path) fsExt2RootInode frame).map fun r =>
        r.map fun num => (num, readInode g d heap num out) :=
  if_neg (Nat.not_lt.mpr hsize)

theorem findFinalInode_overflows (hsize : fsExt2InodeBytes < g.sb.inodeSize) (fuel : Nat)
    (frame : LookupFrame) (path : Path) (out : Bytes) :
    findFinalInode g fuel d heap frame path out = none :=
  if_pos hsize

/-- The lookup ends exactly if an inode fits into its variable and no walk is stuck. -/
theorem path_lookup_ends_iff (g : Gdata) (d heap : Bytes) (frame : LookupFrame) (path : Path)
    (out : Bytes) (hfinite : FiniteDirs g d heap (components path) fsExt2RootInode frame) :
    LookupEnds g d heap frame path out ↔
      g.sb.inodeSize ≤ fsExt2InodeBytes ∧
        NeverStuck g d heap (components path) fsExt2RootInode frame := by
  by_cases hsize : g.sb.inodeSize ≤ fsExt2InodeBytes
  · rw [← lookupLoop_returns_iff _ _ _ hfinite]
    unfold LookupEnds
    simp only [findFinalInode_eq hsize, hsize, true_and]
    have hloop : ∀ r, Returns (fun fuel =>
        (lookupLoop g fuel d heap (components path) fsExt2RootInode frame).map fun r =>
          r.map fun num => (num, readInode g d heap num out)) r →
        ∃ r, Returns (fun fuel =>
          lookupLoop g fuel d heap (components path) fsExt2RootInode frame) r := by
      rintro r ⟨n, hn⟩
      obtain ⟨r', hr', -⟩ := Option.map_eq_some_iff.mp (hn n le_rfl)
      exact ⟨r', (lookupLoop_steady _ _ _).returns n hr'⟩
    constructor
    · rintro (h | ⟨num, h⟩)
      · exact hloop _ h
      · exact hloop _ h
    · rintro ⟨r, hr⟩
      cases r with
      | error e =>
          obtain ⟨n, hn⟩ := hr
          obtain rfl := lookupLoop_error (hn n le_rfl)
          exact .inl (Returns.map_eq ⟨n, hn⟩ rfl)
      | ok num => exact .inr ⟨num, Returns.map_eq hr rfl⟩
  · refine iff_of_false ?_ fun h => hsize h.1
    have hnone : ∀ fuel, findFinalInode g fuel d heap frame path out = none := fun fuel =>
      findFinalInode_overflows (Nat.lt_of_not_le hsize) fuel frame path out
    rintro (h | ⟨num, h⟩)
    · exact not_returns hnone _ h
    · exact not_returns hnone _ h

/-- A root directory of one block with one entry of `size` bytes and a name of one character. -/
def lookupMedium (size c : Nat) : Bytes :=
  setLe (setLe (setLe (setLe (setLe blankMedium 5288 4 10) 10240 4 2) 10244 2 size) 10246 1 1)
    10248 1 c

def blankFrame : LookupFrame := ⟨blankMedium, blankMedium, blankMedium⟩

theorem looksIn_single {fcur name : Path} {it : DirIterator} {num : Nat}
    (h : LooksIn g d heap [name] num frame fcur it) :
    fcur = name ∧
      it = iterateDirStart g.sb d (readInode g d heap num frame.curDir) frame.itBuf frame.cur := by
  cases h with
  | here => exact ⟨rfl, rfl⟩
  | later _ _ hlater => cases hlater

theorem lookupMedium_finite {size c : Nat} (hentry : size = 0 ∧ c = 46 ∨ size = 1024 ∧ c = 97)
    (name : Path) :
    FiniteDirs (oneGroup 5) (lookupMedium size c) blankMedium [name] fsExt2RootInode blankFrame := by
  intro fcur it h
  obtain ⟨-, rfl⟩ := looksIn_single h
  have hdbp : dbp (readInode (oneGroup 5) (lookupMedium size c) blankMedium fsExt2RootInode
      blankMedium) 1 = 0 := by
    obtain ⟨rfl, rfl⟩ | ⟨rfl, rfl⟩ := hentry
    · decide +kernel
    · decide +kernel
  refine ⟨1, by decide, fun buf => ?_⟩
  have hptr : (getInodePointer (oneGroup 5).sb (lookupMedium size c)
      (readInode (oneGroup 5) (lookupMedium size c) blankMedium fsExt2RootInode blankMedium) 1
      buf).1 = 0 := by
    rw [getInodePointer, if_pos (by decide)]
    exact hdbp
  rw [readInodeData]
  exact congrArg Prod.fst (if_pos hptr)

/-- An entry of 1024 bytes with the name sought. -/
theorem path_lookup_ends_found :
    LookupEnds (oneGroup 5) (lookupMedium 1024 97) blankMedium blankFrame [97#8] blankMedium := by
  have hcomp : components [97#8] = [[97#8]] := components_name (by decide) (by decide)
  refine (path_lookup_ends_iff (oneGroup 5) (lookupMedium 1024 97) blankMedium blankFrame [97#8]
    blankMedium ?_).mpr ⟨by decide, ?_⟩
  · rw [hcomp]
    exact lookupMedium_finite (.inr ⟨rfl, rfl⟩) _
  · rw [hcomp]
    intro fcur it h it' hvisit hstuck
    obtain ⟨rfl, rfl⟩ := looksIn_single h
    cases hvisit with
    | here => exact absurd hstuck.size (by decide +kernel)
    | next _ hother _ => exact absurd hother (by decide +kernel)

/-- The directory entry `"."` has size zero and the lookup of `"a"` stays there. -/
theorem path_lookup_hangs :
    ¬ ∀ (g : Gdata) (d heap : Bytes) (frame : LookupFrame) (path : Path) (out : Bytes),
      FiniteDirs g d heap (components path) fsExt2RootInode frame →
      LookupEnds g d heap frame path out := by
  intro h
  have hcomp : components [97#8] = [[97#8]] := components_name (by decide) (by decide)
  have hstuck : Stuck (oneGroup 5).sb [97#8] (iterateDirStart (oneGroup 5).sb (lookupMedium 0 46)
      (readInode (oneGroup 5) (lookupMedium 0 46) blankMedium fsExt2RootInode blankFrame.curDir)
      blankFrame.itBuf blankFrame.cur) := by
    constructor
    all_goals decide +kernel
  have hnone : ∀ fuel, findFinalInode (oneGroup 5) fuel (lookupMedium 0 46) blankMedium blankFrame
      [97#8] blankMedium = none := by
    intro fuel
    rw [findFinalInode_eq (by decide), hcomp, lookupLoop, hstuck.findEntry_none]
    rfl
  have hends := h (oneGroup 5) (lookupMedium 0 46) blankMedium blankFrame [97#8] blankMedium (by
    rw [hcomp]
    exact lookupMedium_finite (.inl ⟨rfl, rfl⟩) _)
  rcases hends with hends | ⟨num, hends⟩
  · exact not_returns hnone _ hends
  · exact not_returns hnone _ hends

end Lookup

end UntitledOs.Fs
