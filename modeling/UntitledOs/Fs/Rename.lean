import UntitledOs.Fs.Create
import UntitledOs.Fs.Unlink

/-!
# Renaming a file

`fs_ext2_rename` removes every entry of the inode from the old directory and enters the new name in the
new one, both through inodes that it has read before.  It does not look whether the new name is
taken.
-/

namespace UntitledOs.Fs

open UntitledOs.Lib

variable {g : Gdata} {d heap : Bytes} {e : DirRecord} {pre post : List DirRecord}
  {oldBlocks newBlocks : List (List DirRecord)} {dirs : DirTable} {old new : Path}
  {total oldNum newNum n j : Nat}

/-- What the locals of `fs_ext2_rename` and of the functions it calls hold at first. -/
structure RenameFrame where
  oldLookup : LookupFrame
  oldDirNode : Bytes
  newLookup : LookupFrame
  newDirNode : Bytes
  lookup : LookupFrame
  fnode : Bytes
  it : Bytes
  itPrev : DirIterator
  deIn : Bytes

/-- `fs_ext2_rename`: its return value and the medium. -/
def rename (g : Gdata) (fuel : Nat) (d heap : Bytes) (frame : RenameFrame) (old new : Path) :
    Option (Int × Bytes) :=
  (findFinalInode g fuel d heap frame.oldLookup (sepFnameAndDir old).1 frame.oldDirNode).bind fun
    | .error err => some (err, d)
    | .ok (oldDirNum, oldDirNode) =>
        (findFinalInode g fuel d heap frame.newLookup (sepFnameAndDir new).1 frame.newDirNode).bind
          fun
          | .error err => some (err, d)
          | .ok (newDirNum, newDirNode) =>
              (findFinalInode g fuel d heap frame.lookup old frame.fnode).bind fun
                | .error err => some (err, d)
                | .ok (fnodeNum, fnode) =>
                    (removeDirent g fuel d heap frame.it oldDirNode frame.itPrev oldDirNum
                        fnodeNum).bind fun r =>
                      (occupyVacantDirent g fuel r.2 heap frame.deIn newDirNode newDirNum fnodeNum
                          (typeExt22fsInode (typePerms fnode)) (sepFnameAndDir new).2).map fun r =>
                        (if r.1 = false then fsErrNoSpace else 0, r.2.2)

/-- The old path leads to a file whose directory lets its entries go and has no other file under
the name, and the new one leads to a second directory that takes the new name at the entry `e`. -/
structure Movable (g : Gdata) (total : Nat) (d : Bytes) (dirs : DirTable) (old new : Path)
    (oldNum newNum n : Nat) (oldBlocks newBlocks : List (List DirRecord)) (j : Nat)
    (pre : List DirRecord) (e : DirRecord) (post : List DirRecord) : Prop where
  closed : 0#8 ∉ old ∧ 0#8 ∉ new
  bare : ¬ BareSlash old ∧ ¬ BareSlash new
  named : (sepFnameAndDir old).2 ≠ [] ∧ (sepFnameAndDir new).2 ≠ []
  short : (sepFnameAndDir new).2.length ≤ 255
  target : resolve dirs (components old) fsExt2RootInode = some (.ok n)
  file : 1 ≤ n ∧ n < 2 ^ 32
  notDir : dirs n = none
  oldParent : resolve dirs (components (sepFnameAndDir old).1) fsExt2RootInode = some (.ok oldNum)
  newParent : resolve dirs (components (sepFnameAndDir new).1) fsExt2RootInode = some (.ok newNum)
  moves : oldNum ≠ newNum
  oldDir : dirs oldNum = some oldBlocks
  newDir : dirs newNum = some newBlocks
  small : g.sb.blockSize < 2 ^ 16
  notFirst : ∀ e ∈ oldBlocks.flatten.head?, e.inodeNum ≠ n
  clearable : ∀ j (hj : j < oldBlocks.length),
    Clearable n j (j + 1 = oldBlocks.length) oldBlocks[j]
  only : ∀ e ∈ oldBlocks.flatten, e.inodeNum ≠ 0 → e.name = (sepFnameAndDir old).2 → e.inodeNum = n
  absent : dirLookup newBlocks.flatten (sepFnameAndDir new).2 = none
  lt : j < newBlocks.length
  block : newBlocks[j] = pre ++ e :: post
  passed : Passed g.sb d (slot g d newNum) newBlocks j pre (sepFnameAndDir new).2
  takes : Takes newBlocks j pre e post (sepFnameAndDir new).2

/-- The new path leads to the file and the old one nowhere, the paths to other inodes lead there,
and nothing but blocks of the two directories changes. -/
structure Moved (g : Gdata) (d d' heap : Bytes) (dirs : DirTable) (old new : Path)
    (oldNum newNum n oldCount newCount : Nat) : Prop where
  arrived : Leads g d' heap new n
  gone : ∀ frame out, Returns (fun fuel => findFinalInode g fuel d' heap frame old out)
    (.error fsErrDoesntExist)
  others : ∀ other i, i ≠ n → 0#8 ∉ other →
    resolve dirs (components other) fsExt2RootInode = some (.ok i) → Leads g d' heap other i
  kept : ∀ a, ¬ InDir g.sb (slot g d oldNum) oldCount a → ¬ InDir g.sb (slot g d newNum) newCount a →
    d' a = d a

/-- The directories after a file was moved. -/
def movedTable (dirs : DirTable) (oldNum newNum n : Nat)
    (oldBlocks newBlocks : List (List DirRecord)) : DirTable :=
  Function.update (Function.update dirs oldNum (some (oldBlocks.map (cleared n)))) newNum
    (some newBlocks)

/-- A file is moved to another directory of a volume, and the volume stays one. -/
theorem Volume.renameFile (h : Volume g total d dirs)
    (hc : Movable g total d dirs old new oldNum newNum n oldBlocks newBlocks j pre e post)
    (heap : Bytes) (frame : RenameFrame) :
    ∃ d' mid, Returns (fun fuel => rename g fuel d heap frame old new) (0, d') ∧
      Entered e n (sepFnameAndDir new).2 mid ∧
      Volume g total d' (movedTable dirs oldNum newNum n oldBlocks
        (newBlocks.set j (pre ++ (mid ++ post)))) ∧
      ∀ a, ¬ InDir g.sb (slot g d oldNum) oldBlocks.length a →
        ¬ InDir g.sb (slot g d newNum) newBlocks.length a → d' a = d a := by
  obtain ⟨hn, hlt⟩ := hc.file
  have hn0 : n ≠ 0 := Nat.one_le_iff_ne_zero.mp hn
  obtain ⟨hnew, hnewt⟩ := h.number newNum newBlocks hc.newDir
  -- the inodes of the directories, read before
  set oldDir := readInode g d heap oldNum frame.oldDirNode
  set newDir := readInode g d heap newNum frame.newDirNode
  have hold : ∀ j < 12, dbp oldDir j = dbp (slot g d oldNum) j := fun j hj =>
    dbp_congr (slot_readInode h.inodes _) hj
  have hdbp : ∀ j < 12, dbp newDir j = dbp (slot g d newNum) j := fun j hj =>
    dbp_congr (slot_readInode h.inodes _) hj
  -- the entries are removed from the old directory
  obtain ⟨d₁, hremoved, h₁, hkept₁⟩ := h.removeNames hc.oldDir hold hc.small hn0 hc.notFirst
    hc.clearable heap frame.it frame.itPrev
  have hnewDir₁ : Function.update dirs oldNum (some (oldBlocks.map (cleared n))) newNum =
      some newBlocks := by
    rw [Function.update_of_ne (Ne.symm hc.moves), hc.newDir]
  have hslot₁ := h.slot_kept hc.oldDir hkept₁ hnew hnewt
  have hpassed : Passed g.sb d₁ newDir newBlocks j pre (sepFnameAndDir new).2 :=
    hc.passed.congr (h.dir newNum newBlocks hc.newDir).direct hc.lt hc.block hdbp fun a ha =>
      hkept₁ a (h.apart newNum newBlocks oldNum oldBlocks hc.newDir hc.oldDir (Ne.symm hc.moves) a ha)
  -- the name is entered in the new one
  obtain ⟨d₂, mid, hreturns, hentered, h₂, hkept₂⟩ :=
    h₁.enterName hnewDir₁ (fun j hj => (hdbp j hj).trans (dbp_congr hslot₁ hj).symm) hc.lt hc.block
      hpassed hc.takes hc.short (fun hx => hc.closed.2 (mem_of_mem_sep.2 hx)) hn0 hlt heap frame.deIn
      (typeExt22fsInode (typePerms (readInode g d heap n frame.fnode)))
  refine ⟨d₂, mid, ?_, hentered, h₂, fun a ha ha' => ?_⟩
  · have holdLookup := h.leads (fun hx => hc.closed.1 (mem_of_mem_sep.1 hx)) hc.oldParent heap
    have hnewLookup := h.leads (fun hx => hc.closed.2 (mem_of_mem_sep.1 hx)) hc.newParent heap
    have hlookup := h.leads hc.closed.1 hc.target heap
    exact Returns.bind (holdLookup _ _) (Returns.bind (hnewLookup _ _)
      (Returns.bind (hlookup _ _) (Returns.bind hremoved (hreturns.map _))))
  · refine (hkept₂ a fun hin => ha' ⟨j, hc.lt, ?_⟩).trans (hkept₁ a ha)
    have hfew := h.few hc.newDir
    have hlt := hc.lt
    rwa [← hdbp j (by omega)]

/-- The names after a file was moved. -/
theorem Movable.resolves
    (hc : Movable g total d dirs old new oldNum newNum n oldBlocks newBlocks j pre e post)
    {mid : List DirRecord} (hentered : Entered e n (sepFnameAndDir new).2 mid)
    {dirs' : DirTable} (hdirs' : dirs' = movedTable dirs oldNum newNum n oldBlocks
      (newBlocks.set j (pre ++ (mid ++ post)))) :
    resolve dirs' (components new) fsExt2RootInode = some (.ok n) ∧
      resolve dirs' (components old) fsExt2RootInode = some (.error fsErrDoesntExist) ∧
      ∀ comps i, i ≠ n → resolve dirs comps fsExt2RootInode = some (.ok i) →
        resolve dirs' comps fsExt2RootInode = some (.ok i) := by
  subst hdirs'
  have hn0 : n ≠ 0 := Nat.one_le_iff_ne_zero.mp hc.file.1
  have hdir : ∀ num blocks, dirs num = some blocks → num ≠ n := by
    rintro num blocks hblocks rfl
    exact absurd (hc.notDir.symm.trans hblocks) (by simp)
  have hnewDir₁ : Function.update dirs oldNum (some (oldBlocks.map (cleared n))) newNum =
      some newBlocks := by
    rw [Function.update_of_ne (Ne.symm hc.moves), hc.newDir]
  have hothers₁ : ∀ comps i, i ≠ n → resolve dirs comps fsExt2RootInode = some (.ok i) →
      resolve (Function.update dirs oldNum (some (oldBlocks.map (cleared n)))) comps
        fsExt2RootInode = some (.ok i) := fun comps i hi hr =>
    resolve_cleared hn0 hc.notDir hc.oldDir hi hr
  obtain ⟨harrived, hothers₂⟩ := resolve_entered hnewDir₁
    (hothers₁ _ newNum (hdir newNum newBlocks hc.newDir) hc.newParent) hc.absent hentered hn0 hc.lt
    hc.block rfl
  rw [← components_sep hc.bare.2 hc.named.2] at harrived
  refine ⟨harrived, ?_, fun comps i hi hr => hothers₂ comps i (hothers₁ comps i hi hr)⟩
  exact resolve_missing hc.bare.1 hc.named.1
    (hothers₂ _ oldNum (hothers₁ _ oldNum (hdir oldNum oldBlocks hc.oldDir) hc.oldParent))
    ((Function.update_of_ne hc.moves ..).trans (Function.update_self ..))
    (dirLookup_cleared_none hn0 hc.only)

/-! ## Two directories -/

/-- `wideMedium` with `"d"` for inode 18 and `"b"` for inode 17 behind `"a"`.  Inode 18 has block 11
with the one entry `"."`. -/
def wideTwoDirs : Bytes :=
  setLe (setLe (setLe (setLe (setLe (setLe (setLe (setLe (setLe (setLe (setLe (setLe (setLe (setLe
    wideMedium 40964 2 12) 40972 4 18) 40976 2 12) 40978 1 1) 40980 1 100)
    40984 4 17) 40988 2 4072) 40990 1 1) 40992 1 98)
    22696 4 11) 45056 4 18) 45060 2 4096) 45062 1 1) 45064 1 46

def subdirRecord : DirRecord := { firstName with
  inodeNum := 18
  name := [100]
  name_le := by decide
  size_ge := by decide }

def lastRecord : DirRecord := { wideSecond with
  size := 4072
  size_ge := by decide }

def dotRecord : DirRecord := { wideRecord with
  inodeNum := 18
  name := [46]
  name_le := by decide
  size_ge := by decide }

def twoDirs : Placement := fun num =>
  if num = 2 then some (10, [firstName, subdirRecord, lastRecord])
  else if num = 18 then some (11, [dotRecord])
  else none

theorem twoDirs_cases {num : Nat} {p : Nat × List DirRecord} (h : twoDirs num = some p) :
    num = 2 ∧ p = (10, [firstName, subdirRecord, lastRecord]) ∨ num = 18 ∧ p = (11, [dotRecord]) := by
  unfold twoDirs at h
  split at h
  · exact .inl ⟨‹_›, (Option.some.inj h).symm⟩
  · split at h
    · exact .inr ⟨‹_›, (Option.some.inj h).symm⟩
    · cases h

theorem twoDirs_volume : Volume wideGroup 32 wideTwoDirs (wideTable twoDirs) := by
  refine wide_volume (fun num p hp => ?_) fun num p num' p' hp hp' hne => ?_
  · rcases twoDirs_cases hp with ⟨rfl, rfl⟩ | ⟨rfl, rfl⟩
    · refine ⟨by decide, by decide, by decide +kernel,
        .more ?_ (.more ?_ (.last ?_ (by decide +kernel))), by decide, by decide⟩
      all_goals exact ⟨by decide +kernel, by decide +kernel, fun _ => by decide +kernel,
        fun _ => by decide +kernel⟩
    · refine ⟨by decide, by decide, by decide +kernel, .last ?_ (by decide +kernel), by decide,
        by decide⟩
      exact ⟨by decide +kernel, by decide +kernel, fun _ => by decide +kernel,
        fun _ => by decide +kernel⟩
  · rcases twoDirs_cases hp with ⟨rfl, rfl⟩ | ⟨rfl, rfl⟩ <;>
      rcases twoDirs_cases hp' with ⟨rfl, rfl⟩ | ⟨rfl, rfl⟩
    · exact absurd rfl hne
    · decide
    · decide
    · exact absurd rfl hne

def renameFrame : RenameFrame :=
  ⟨blankFrame, blankMedium, blankFrame, blankMedium, blankFrame, blankMedium, blankMedium,
    iterateDirStart wideGroup.sb wideMedium blankMedium blankMedium blankMedium, blankMedium⟩

end UntitledOs.Fs
