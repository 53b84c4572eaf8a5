import UntitledOs.Fs.Volume
import UntitledOs.Fs.Removal

/-!
# Unlinking a file

`fs_ext2_unlink` removes every entry of the inode from the directory, not only the one with the name,
and counts one link less in the directory and in the file.  A file without links gives up its inode.
-/

namespace UntitledOs.Fs

open UntitledOs.Lib

variable {g : Gdata} {sb : Superblock} {d d' heap dir file : Bytes} {e p : DirRecord}
  {es : List DirRecord} {blocks : List (List DirRecord)} {dirs dirs' : DirTable} {path name : Path}
  {total num n count : Nat}

def typePerms (inode : Bytes) : Nat := getLe inode 0 2

/-- `hard_links--`. -/
def dropLink (inode : Bytes) : Bytes := setHardLinks inode (hardLinks inode + 2 ^ 16 - 1)

/-- `!fnode.hard_links || ((fnode.type_perms & FS_EXT2_INODE_TYPE_DIR) && fnode.hard_links == 1)`. -/
def Unused (inode : Bytes) : Prop :=
  hardLinks inode = 0 ∨ (typePerms inode &&& 0x4000 ≠ 0 ∧ hardLinks inode = 1)

instance (inode : Bytes) : Decidable (Unused inode) :=
  inferInstanceAs (Decidable (_ ∨ _))

/-- What the locals of `fs_ext2_unlink` and of the functions it calls hold at first. -/
structure UnlinkFrame where
  lookup : LookupFrame
  fnode : Bytes
  dirLookup : LookupFrame
  dirnode : Bytes
  it : Bytes
  itPrev : DirIterator

/-- `fs_ext2_unlink`: its return value and the medium. -/
def unlink (g : Gdata) (fuel : Nat) (d heap : Bytes) (frame : UnlinkFrame) (path : Path) :
    Option (Int × Bytes) :=
  (findFinalInode g fuel d heap frame.lookup path frame.fnode).bind fun
    | .error err => some (err, d)
    | .ok (fnodeNum, fnode) =>
        (findFinalInode g fuel d heap frame.dirLookup (sepFnameAndDir path).1 frame.dirnode).bind fun
          | .error err => some (err, d)
          | .ok (dirnodeNum, dirnode) =>
              (removeDirent g fuel d heap frame.it dirnode frame.itPrev dirnodeNum fnodeNum).bind
                fun r =>
                  let d := writeInode g r.2 heap dirnodeNum (dropLink r.1)
                  let fnode := dropLink fnode
                  if Unused fnode then
                    (freeFile g fuel d heap fnode fnodeNum).map fun d => (0, d)
                  else some (0, writeInode g d heap fnodeNum fnode)

/-! ## The names that are left -/

section Names

theorem dirLookup_liveNames (es : List DirRecord) (name : Path) :
    Fs.dirLookup es name = ((liveNames es).find? fun x => x.2 = name).map Prod.fst := by
  unfold Fs.dirLookup liveNames
  rw [List.find?_map, List.find?_filter, Option.map_map]
  simp only [Function.comp_def, ne_eq, decide_not, Bool.decide_and, Bool.decide_eq_true]

/-- A name of another inode is found as before. -/
theorem dirLookup_cleared (hn : n ≠ 0) {i : Nat} (hi : i ≠ n)
    (h : Fs.dirLookup blocks.flatten name = some i) :
    Fs.dirLookup (blocks.map (cleared n)).flatten name = some i := by
  rw [dirLookup_liveNames] at h ⊢
  rw [liveNames_flatten hn]
  generalize liveNames blocks.flatten = names at h ⊢
  induction names with
  | nil => simp at h
  | cons x names ih =>
      by_cases hname : x.2 = name
      · rw [List.find?_cons_of_pos (by simpa using hname)] at h
        obtain rfl : x.1 = i := by simpa using h
        rw [List.filter_cons_of_pos (by simpa using hi), List.find?_cons_of_pos (by simpa using hname)]
        rfl
      · rw [List.find?_cons_of_neg (by simpa using hname)] at h
        have hrest := ih h
        by_cases hgone : x.1 = n
        · rwa [List.filter_cons_of_neg (by simpa using hgone)]
        · rwa [List.filter_cons_of_pos (by simpa using hgone),
            List.find?_cons_of_neg (by simpa using hname)]

/-- A name that only the inode had is not found any more. -/
theorem dirLookup_cleared_none (hn : n ≠ 0)
    (honly : ∀ e ∈ blocks.flatten, e.inodeNum ≠ 0 → e.name = name → e.inodeNum = n) :
    Fs.dirLookup (blocks.map (cleared n)).flatten name = none := by
  rw [dirLookup_liveNames, liveNames_flatten hn, Option.map_eq_none_iff, List.find?_eq_none]
  intro x hx hname
  obtain ⟨hmem, hkept⟩ := List.mem_filter.mp hx
  obtain ⟨e, he, rfl⟩ := List.mem_map.mp hmem
  obtain ⟨he, hlive⟩ := List.mem_filter.mp he
  have := honly e he (by simpa using hlive) (by simpa using hname)
  simp [this] at hkept

theorem head_clearedFrom (n : Nat) (p : DirRecord) (es : List DirRecord) :
    ∃ q rest, clearedFrom n p es = q :: rest ∧ q.inodeNum = p.inodeNum := by
  induction es generalizing p with
  | nil => exact ⟨p, [], rfl, rfl⟩
  | cons e es ih =>
      rw [clearedFrom]
      split
      · exact ih (p.joined e)
      · exact ⟨p, _, rfl, rfl⟩

theorem GoodDir.cleared (h : GoodDir sb d dir blocks) (hn : n ≠ 0)
    (hfirst : ∀ e ∈ blocks.flatten.head?, e.inodeNum ≠ n)
    (hdirect : DirectDir sb d' dir (blocks.map (Fs.cleared n))) :
    GoodDir sb d' dir (blocks.map (Fs.cleared n)) := by
  refine ⟨hdirect, fun e he => ?_, fun e he hlive => ?_⟩
  · cases blocks with
    | nil => simp at he
    | cons block blocks =>
        obtain ⟨x, rest, rfl⟩ := List.exists_cons_of_ne_nil (h.direct.tiled 0 (by simp)).ne_nil
        have hx : x.inodeNum ≠ 0 := h.first x (by simp)
        have hother : x.inodeNum ≠ n := hfirst x (by simp)
        obtain ⟨q, rest', hq, hnum⟩ := head_clearedFrom n x rest
        rw [List.map_cons, List.flatten_cons, Fs.cleared, if_neg hother, hq] at he
        obtain rfl : q = e := by simpa using he
        rwa [hnum]
  · have hmem : (e.inodeNum, e.name) ∈ liveNames (blocks.map (Fs.cleared n)).flatten :=
      List.mem_map.mpr ⟨e, List.mem_filter.mpr ⟨he, by simpa using hlive⟩, rfl⟩
    rw [liveNames_flatten hn] at hmem
    obtain ⟨x, hx, heq⟩ := List.mem_map.mp (List.mem_filter.mp hmem).1
    obtain ⟨hx, hxlive⟩ := List.mem_filter.mp hx
    have hclosed := h.names x hx (by simpa using hxlive)
    rwa [(Prod.mk.inj heq).2] at hclosed

/-- The entries of an inode are removed from a directory that is in memory. -/
theorem Volume.removeNames (h : Volume g total d dirs) (hblocks : dirs num = some blocks)
    (hdbp : ∀ j < 12, dbp dir j = dbp (slot g d num) j) (hsmall : g.sb.blockSize < 2 ^ 16)
    (hn : n ≠ 0) (hfirst : ∀ e ∈ blocks.flatten.head?, e.inodeNum ≠ n)
    (hclear : ∀ j (hj : j < blocks.length), Clearable n j (j + 1 = blocks.length) blocks[j])
    (heap stack : Bytes) (prev : DirIterator) :
    ∃ d', Returns (fun fuel => removeDirent g fuel d heap stack dir prev num n) (dir, d') ∧
      Volume g total d' (Function.update dirs num (some (blocks.map (Fs.cleared n)))) ∧
      ∀ a, ¬ InDir g.sb (slot g d num) blocks.length a → d' a = d a := by
  have hfew := h.few hblocks
  have hgood : GoodDir g.sb d dir blocks := (h.dir num blocks hblocks).congr hdbp fun _ _ => rfl
  obtain ⟨d', hreturns, hdirect, hframe⟩ := hgood.direct.clears hsmall hclear heap stack prev num
  have hkept : ∀ a, ¬ InDir g.sb (slot g d num) blocks.length a → d' a = d a := fun a ha =>
    hframe a fun j hj hin => ha ⟨j, hj, by rwa [← hdbp j (by omega)]⟩
  exact ⟨d', hreturns, h.enter hblocks hdbp (hgood.cleared hn hfirst hdirect) (List.length_map ..)
    hkept, hkept⟩

/-- The paths to other inodes lead there when the names of an inode that is no directory go. -/
theorem resolve_cleared (hn : n ≠ 0) (hnot : dirs n = none) (hblocks : dirs num = some blocks)
    {comps : List Path} {i : Nat} (hi : i ≠ n)
    (hr : resolve dirs comps fsExt2RootInode = some (.ok i)) :
    resolve (Function.update dirs num (some (blocks.map (Fs.cleared n)))) comps fsExt2RootInode =
      some (.ok i) := by
  refine @resolve_mono dirs _ i (· ≠ n) (fun num' b hb => ⟨?_, ?_⟩) comps fsExt2RootInode hi hr
  · rintro rfl
    exact absurd (hnot.symm.trans hb) (by simp)
  · by_cases hnum : num' = num
    · subst hnum
      obtain rfl := Option.some.inj (hblocks.symm.trans hb)
      exact ⟨_, Function.update_self .., fun _ _ hother => dirLookup_cleared hn hother⟩
    · exact ⟨b, (Function.update_of_ne hnum ..).trans hb, fun _ _ _ hlookup => hlookup⟩

/-- A path leads nowhere when the last directory on it has no such name. -/
theorem resolve_missing {path : Path} (hbare : ¬ BareSlash path)
    (hnamed : (sepFnameAndDir path).2 ≠ [])
    (hparent : resolve dirs (components (sepFnameAndDir path).1) fsExt2RootInode = some (.ok num))
    (hblocks : dirs num = some blocks)
    (hnone : Fs.dirLookup blocks.flatten (sepFnameAndDir path).2 = none) :
    resolve dirs (components path) fsExt2RootInode = some (.error fsErrDoesntExist) := by
  rw [components_sep hbare hnamed, resolve_append hparent]
  simp only [resolve, hblocks, Option.bind_some, hnone]

end Names

/-! ## The blocks of the file -/

section Free

/-- A file with `count` blocks whose pointers lie in none of the places `touched`. -/
structure Freeable (g : Gdata) (d heap file : Bytes) (touched : Nat → Prop) (count : Nat) :
    Prop where
  few : count < 2 ^ 32
  present : ∀ j < count, pointerOf g.sb d file heap j ≠ 0 ∧
    pred32 (pointerOf g.sb d file heap j) < g.sb.blocksTotal
  ended : pointerOf g.sb d file heap count = 0
  apart : ∀ j ≤ count, ∀ v ∈ lookupVisits g.sb d file j heap, ∀ a, InBlock g.sb v.1 a → ¬ touched a

theorem Freeable.pointer {touched : Nat → Prop} (h : Freeable g d heap file touched count)
    (hkept : ∀ a, ¬ touched a → d' a = d a) {j : Nat} (hj : j ≤ count) :
    pointerOf g.sb d' file heap j = pointerOf g.sb d file heap j := by
  unfold pointerOf
  rw [lookup_congr fun v hv => readBlock_congr fun a ha => hkept a (h.apart j hj v hv a ha)]

/-- The blocks of a file are given back by marks in the bitmaps. -/
theorem Freeable.loop {touched : Nat → Prop} (h : Freeable g d heap file touched count)
    (hmarks : ∀ a, IsMark g total a → touched a) {left blki : Nat} (hblki : blki + left = count)
    {d₁ buf : Bytes} (hkept : ∀ a, ¬ touched a → d₁ a = d a) (hbuf : SameTail g.sb heap buf) :
    ∃ d₂, Returns (fun fuel => freeFileLoop g heap file fuel blki buf d₁) d₂ ∧
      ∀ a, ¬ IsMark g total a → d₂ a = d₁ a := by
  induction left generalizing blki d₁ buf with
  | zero =>
      obtain ⟨hptr, -⟩ := @getInodePointer_sameTail g.sb d₁ file heap buf hbuf blki
      rw [h.pointer hkept (by omega), show blki = count by omega, h.ended] at hptr
      refine ⟨d₁, ⟨1, fun fuel hfuel => ?_⟩, fun _ _ => rfl⟩
      obtain ⟨k, rfl⟩ := Nat.exists_eq_add_of_le' hfuel
      simp only [freeFileLoop]
      rw [if_pos (show blki = count by omega ▸ hptr)]
  | succ left ih =>
      obtain ⟨hptr, hbuf'⟩ := @getInodePointer_sameTail g.sb d₁ file heap buf hbuf blki
      rw [h.pointer hkept (by omega)] at hptr
      obtain ⟨hne, hlt⟩ := h.present blki (by omega)
      rw [← hptr] at hne hlt
      have hmarked : ∀ a, ¬ IsMark g total a →
          markUnallocBlock g d₁ heap (getInodePointer g.sb d₁ file blki buf).1 a = d₁ a :=
        fun a ha => markUnallocBlock_of_ne fun heq => ha (.inr ⟨_, hlt, heq⟩)
      have hfew := h.few
      have hnext : u32 (blki + 1) = blki + 1 := Nat.mod_eq_of_lt (by omega)
      obtain ⟨d₂, ⟨n, hreturns⟩, hkept₂⟩ := ih (show blki + 1 + left = count by omega)
        (fun a ha => (hmarked a fun hmark => ha (hmarks a hmark)).trans (hkept a ha)) hbuf'
      refine ⟨d₂, ⟨n + 1, fun fuel hfuel => ?_⟩, fun a ha => (hkept₂ a ha).trans (hmarked a ha)⟩
      obtain ⟨k, rfl⟩ : ∃ k, fuel = k + 1 := ⟨fuel - 1, by omega⟩
      simp only [freeFileLoop, if_neg hne, hnext]
      exact hreturns k (by omega)

theorem markUnallocInode_of_ne {a : Nat} (h : a ≠ inodeBit g n / 8) :
    markUnallocInode g d heap n a = d a := by
  unfold markUnallocInode
  rw [editBitmap_eq, setByte, if_neg]
  unfold inodeBit bitmapBit at h
  omega

theorem Freeable.freeFile {touched : Nat → Prop} (h : Freeable g d heap file touched count)
    (hmarks : ∀ a, IsMark g total a → touched a) {d₁ : Bytes}
    (hkept : ∀ a, ¬ touched a → d₁ a = d a) (hn : 1 ≤ n) (hnt : n ≤ total) :
    ∃ d₂, Returns (fun fuel => Fs.freeFile g fuel d₁ heap file n) d₂ ∧
      (∀ a, ¬ IsMark g total a → d₂ a = d₁ a) ∧ bitAt d₂ (inodeBit g n) = false := by
  obtain ⟨d₂, hreturns, hkept₂⟩ := h.loop hmarks (Nat.zero_add count) hkept (fun _ _ => rfl)
  refine ⟨_, hreturns.map _, fun a ha => ?_, ?_⟩
  · rw [markUnallocInode_of_ne fun heq => ha (.inl ⟨n, hn, hnt, heq⟩), hkept₂ a ha]
  · rw [bitAt_markUnallocInode]
    simp

end Free

/-! ## The file afterwards -/

section Inodes

variable {inode inode' : Bytes}

theorem dropLink_congr (h : ∀ k < 128, inode' k = inode k) :
    ∀ k < 128, dropLink inode' k = dropLink inode k := by
  intro k hk
  have hlinks : hardLinks inode' = hardLinks inode := getLe_congr fun i hi => h _ (by omega)
  unfold dropLink setHardLinks
  rw [hlinks]
  by_cases hin : 26 ≤ k ∧ k < 28
  · unfold setLe copyTo
    rw [if_pos (by omega), if_pos (by omega)]
  · rw [setLe_of_outside (by omega), setLe_of_outside (by omega), h k hk]

theorem unused_congr (h : ∀ k < 128, inode' k = inode k) : Unused inode' ↔ Unused inode := by
  have hlinks : hardLinks inode' = hardLinks inode := getLe_congr fun i hi => h _ (by omega)
  have htype : typePerms inode' = typePerms inode := getLe_congr fun i hi => h _ (by omega)
  unfold Unused
  rw [hlinks, htype]

theorem rootPointer_congr (h : ∀ k, 40 ≤ k → k < 100 → inode' k = inode k) (l : Nat) :
    rootPointer inode' l = rootPointer inode l := by
  unfold rootPointer
  split
  · exact getLe_congr fun i hi => h _ (by omega) (by omega)
  · exact getLe_congr fun i hi => h _ (by omega) (by omega)
  · exact getLe_congr fun i hi => h _ (by omega) (by omega)

theorem lookup_inode_congr (h : ∀ k, 40 ≤ k → k < 100 → inode' k = inode k) (j : Nat) :
    pointerOf sb d inode' heap j = pointerOf sb d inode heap j ∧
      lookupVisits sb d inode' j heap = lookupVisits sb d inode j heap := by
  unfold pointerOf lookupVisits
  by_cases hj : j < 12
  · rw [getInodePointer_direct hj, getInodePointer_direct hj, if_pos hj, if_pos hj]
    exact ⟨getLe_congr fun i hi => h _ (by omega) (by omega), rfl⟩
  · rw [getInodePointer_eq hj, getInodePointer_eq hj, if_neg hj, if_neg hj]
    dsimp only
    rw [rootPointer_congr h]
    exact ⟨rfl, rfl⟩

theorem Freeable.congr {touched : Nat → Prop} (h : Freeable g d heap inode touched count)
    (heq : ∀ k, 40 ≤ k → k < 100 → inode' k = inode k) :
    Freeable g d heap inode' touched count where
  few := h.few
  present j hj := by
    rw [(lookup_inode_congr heq j).1]
    exact h.present j hj
  ended := (lookup_inode_congr heq count).1.trans h.ended
  apart j hj v hv := h.apart j hj v ((lookup_inode_congr heq j).2 ▸ hv)

end Inodes

/-- What an unlinked file leaves: the bitmaps, the inode of the directory and its blocks change
before the file is freed. -/
def Touched (g : Gdata) (total : Nat) (d : Bytes) (num count a : Nat) : Prop :=
  IsMark g total a ∨ InSlot g num a ∨ InDir g.sb (slot g d num) count a

/-- The path leads to a file, and the directory it lies in lets its entries go and has no other
file under the name. -/
structure Removable (g : Gdata) (total : Nat) (d heap : Bytes) (dirs : DirTable) (path : Path)
    (num : Nat) (blocks : List (List DirRecord)) (n count : Nat) : Prop where
  closed : 0#8 ∉ path
  bare : ¬ BareSlash path
  named : (sepFnameAndDir path).2 ≠ []
  target : resolve dirs (components path) fsExt2RootInode = some (.ok n)
  file : 1 ≤ n ∧ n ≤ total
  notDir : dirs n = none
  parent : resolve dirs (components (sepFnameAndDir path).1) fsExt2RootInode = some (.ok num)
  directory : dirs num = some blocks
  stored : inodeTableOffset g n < g.sb.blockSize
  parentStored : inodeTableOffset g num < g.sb.blockSize
  small : g.sb.blockSize < 2 ^ 16
  notFirst : ∀ e ∈ blocks.flatten.head?, e.inodeNum ≠ n
  clearable : ∀ j (hj : j < blocks.length), Clearable n j (j + 1 = blocks.length) blocks[j]
  only : ∀ e ∈ blocks.flatten, e.inodeNum ≠ 0 → e.name = (sepFnameAndDir path).2 → e.inodeNum = n
  freeable : Freeable g d heap (slot g d n) (Touched g total d num blocks.length) count

/-- The inode has one link less, or its bit is clear.  What else changes is the bitmaps, the inode of
the directory and its blocks. -/
structure Dropped (g : Gdata) (total : Nat) (d d' : Bytes) (num n count : Nat) : Prop where
  links : ¬ Unused (dropLink (slot g d n)) → ∀ k < 128, slot g d' n k = dropLink (slot g d n) k
  freed : Unused (dropLink (slot g d n)) → bitAt d' (inodeBit g n) = false
  kept : ∀ a, ¬ Touched g total d num count a → ¬ InSlot g n a → d' a = d a

/-- The path leads nowhere afterwards and the paths to other inodes lead there. -/
structure Unlinked (g : Gdata) (total : Nat) (d d' heap : Bytes) (dirs : DirTable) (path : Path)
    (num n count : Nat) : Prop extends Dropped g total d d' num n count where
  gone : ∀ frame out, Returns (fun fuel => findFinalInode g fuel d' heap frame path out)
    (.error fsErrDoesntExist)
  others : ∀ other i, i ≠ n → 0#8 ∉ other →
    resolve dirs (components other) fsExt2RootInode = some (.ok i) → Leads g d' heap other i

/-- The lookup of a path that leads nowhere. -/
theorem Volume.fails (h : Volume g total d dirs) (hpath : 0#8 ∉ path) {err : Int}
    (hr : resolve dirs (components path) fsExt2RootInode = some (.error err)) (heap : Bytes) :
    ∀ frame out, Returns (fun fuel => findFinalInode g fuel d heap frame path out) (.error err) :=
  (h.holdsDirs heap).findFinalInode h.inodes.size.le hpath hr

/-- A file is unlinked from a volume, and the volume stays one. -/
theorem Volume.unlinkFile (h : Volume g total d dirs)
    (hc : Removable g total d heap dirs path num blocks n count) (frame : UnlinkFrame) :
    ∃ d', Returns (fun fuel => unlink g fuel d heap frame path) (0, d') ∧
      Volume g total d' (Function.update dirs num (some (blocks.map (cleared n)))) ∧
      Dropped g total d d' num n blocks.length := by
  obtain ⟨hn, hnt⟩ := hc.file
  obtain ⟨hnum, hnumt⟩ := h.number num blocks hc.directory
  have hn0 : n ≠ 0 := Nat.one_le_iff_ne_zero.mp hn
  have hne : n ≠ num := by
    rintro rfl
    exact absurd (hc.notDir.symm.trans hc.directory) (by simp)
  -- the inodes of the file and of the directory, read before
  set fnode := readInode g d heap n frame.fnode
  set dir := readInode g d heap num frame.dirnode
  have hfnode : ∀ k < 128, fnode k = slot g d n k := slot_readInode h.inodes _
  have hdbp : ∀ j < 12, dbp dir j = dbp (slot g d num) j := fun j hj =>
    dbp_congr (slot_readInode h.inodes _) hj
  -- the entries are removed
  obtain ⟨d₁, hreturns, h₁, hkept₁⟩ := h.removeNames hc.directory hdbp hc.small hn0 hc.notFirst
    hc.clearable heap frame.it frame.itPrev
  -- the directory has one link less
  set d₂ := Fs.writeInode g d₁ heap num (dropLink dir)
  have h₂ : Volume g total d₂ (Function.update dirs num (some (blocks.map (cleared n)))) := by
    refine h₁.writeInode hnum hnumt hc.parentStored (fun _ _ j hj => ?_) heap
    unfold dropLink
    rw [dbp_setHardLinks, hdbp j hj]
    exact (dbp_congr (h.slot_kept hc.directory hkept₁ hnum hnumt) hj).symm
  have hkept₂ : ∀ a, ¬ Touched g total d num blocks.length a → d₂ a = d a := fun a ha =>
    (writeInode_outside h.inodes hc.parentStored _ fun hin => ha (.inr (.inl hin))).trans
      (hkept₁ a fun hin => ha (.inr (.inr hin)))
  have hdrop := dropLink_congr hfnode
  have hlookups : ∀ r d', Returns (fun fuel =>
        if Unused (dropLink fnode) then
          (freeFile g fuel d₂ heap (dropLink fnode) n).map fun d => ((0 : Int), d)
        else some (0, Fs.writeInode g d₂ heap n (dropLink fnode))) (r, d') →
      Returns (fun fuel => unlink g fuel d heap frame path) (r, d') := by
    intro r d' hend
    have hfile := h.leads hc.closed hc.target heap frame.lookup frame.fnode
    have hparent := h.leads (fun hx => hc.closed (mem_of_mem_sep.1 hx)) hc.parent heap
      frame.dirLookup frame.dirnode
    exact Returns.bind hfile (Returns.bind hparent (Returns.bind hreturns hend))
  by_cases hunused : Unused (dropLink (slot g d n))
  · -- no links are left
    have hcode : Unused (dropLink fnode) := (unused_congr hdrop).mpr hunused
    have hfreeable : Freeable g d heap (dropLink fnode) (Touched g total d num blocks.length) count :=
      hc.freeable.congr fun k hlow hhigh => by
        rw [hdrop k (by omega)]
        exact setLe_of_outside (.inr (by omega))
    obtain ⟨d₃, hfreed, hkept₃, hbit⟩ := hfreeable.freeFile (fun _ => .inl) hkept₂ hn hnt
    have h₃ := h₂.mark hkept₃
    refine ⟨d₃, hlookups 0 d₃ ?_, h₃, fun hused => absurd hunused hused, fun _ => hbit, fun a ha _ =>
      (hkept₃ a fun hmark => ha (.inl hmark)).trans (hkept₂ a ha)⟩
    simp only [if_pos hcode]
    exact hfreed.map _
  · have hcode : ¬ Unused (dropLink fnode) := (unused_congr hdrop).not.mpr hunused
    set d₃ := Fs.writeInode g d₂ heap n (dropLink fnode)
    have h₃ : Volume g total d₃ (Function.update dirs num (some (blocks.map (cleared n)))) := by
      refine h₂.writeInode hn hnt hc.stored (fun b hb => ?_) heap
      rw [Function.update_of_ne hne, hc.notDir] at hb
      cases hb
    refine ⟨d₃, hlookups 0 d₃ ?_, h₃, fun _ k hk => ?_, fun hnone => absurd hnone hunused,
      fun a ha hslot => (writeInode_outside h.inodes hc.stored _ hslot).trans (hkept₂ a ha)⟩
    · simp only [if_neg hcode]
      exact Returns.const _
    · exact (writeInode_inside h.inodes hc.stored _ k hk).trans (hdrop k hk)

/-- The names after a file was unlinked. -/
theorem Removable.resolves (hc : Removable g total d heap dirs path num blocks n count) :
    resolve (Function.update dirs num (some (blocks.map (cleared n)))) (components path)
        fsExt2RootInode = some (.error fsErrDoesntExist) ∧
      ∀ comps i, i ≠ n → resolve dirs comps fsExt2RootInode = some (.ok i) →
        resolve (Function.update dirs num (some (blocks.map (cleared n)))) comps fsExt2RootInode =
          some (.ok i) := by
  have hn0 : n ≠ 0 := Nat.one_le_iff_ne_zero.mp hc.file.1
  have hne : num ≠ n := by
    rintro rfl
    exact absurd (hc.notDir.symm.trans hc.directory) (by simp)
  refine ⟨resolve_missing hc.bare hc.named ?_ (Function.update_self ..)
    (dirLookup_cleared_none hn0 hc.only), fun comps i hi hr =>
    resolve_cleared hn0 hc.notDir hc.directory hi hr⟩
  exact resolve_cleared hn0 hc.notDir hc.directory hne hc.parent

/-! ## A root directory with two names -/

/-- `wideMedium` with `"b"` behind `"a"`, for inode 17 with one link. -/
def wideTwoNames : Bytes :=
  setLe (setLe (setLe (setLe (setLe (setLe wideMedium 40964 2 12) 40972 4 17) 40976 2 4084) 40978 1 1)
    40980 1 98) 22554 2 1

def wideSecond : DirRecord := { secondName with
  inodeNum := 17
  size := 4084
  size_ge := by decide }

theorem wideTwoNames_root : WideDir wideTwoNames 2 10 [firstName, wideSecond] := by
  refine ⟨by decide, by decide, by decide +kernel, .more ?_ (.last ?_ (by decide +kernel)),
    by decide, by decide⟩
  · exact ⟨by decide +kernel, by decide +kernel, fun _ => by decide +kernel,
      fun _ => by decide +kernel⟩
  · exact ⟨by decide +kernel, by decide +kernel, fun _ => by decide +kernel,
      fun _ => by decide +kernel⟩

def unlinkFrame : UnlinkFrame :=
  ⟨blankFrame, blankMedium, blankFrame, blankMedium, blankMedium,
    iterateDirStart wideGroup.sb wideMedium blankMedium blankMedium blankMedium⟩

end UntitledOs.Fs
