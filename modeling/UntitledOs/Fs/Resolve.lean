import UntitledOs.Fs.Iteration

/-!
# What a path names

A path names an inode by the directories between the root and it, each with its entries
in order.  `fs_ext2_find_final_inode` finds that inode.  An entry that is not in use leaves
the name of the one before in `cur`, so a directory has to start with an entry in use.
-/

namespace UntitledOs.Fs

open UntitledOs.Lib

variable {g : Gdata} {sb : Superblock} {d heap inode pbuf : Bytes}

/-- The inode of the first entry in use with a name. -/
def dirLookup (es : List DirRecord) (name : Path) : Option Nat :=
  (es.find? fun e => e.inodeNum ≠ 0 ∧ e.name = name).map DirRecord.inodeNum

/-- The directories of a file system, each with the entries of its blocks. -/
abbrev DirTable := Nat → Option (List (List DirRecord))

/-- The inode that the components lead to from `num`, or that there is none.  `none`: the
way goes through something that is not a directory. -/
def resolve (dirs : DirTable) : List Path → Nat → Option (Except Int Nat)
  | [], num => some (.ok num)
  | fcur :: rest, num =>
      (dirs num).bind fun blocks =>
        match dirLookup blocks.flatten fcur with
        | none => some (.error fsErrDoesntExist)
        | some num' => resolve dirs rest num'

/-- The medium holds these directories. -/
structure HoldsDirs (g : Gdata) (d heap : Bytes) (dirs : DirTable) : Prop where
  tiled : ∀ num blocks, dirs num = some blocks → ∀ out pbuf,
    TiledDir g.sb d (readInode g d heap num out) pbuf blocks
  first : ∀ num blocks, dirs num = some blocks → ∀ e ∈ blocks.flatten.head?, e.inodeNum ≠ 0
  names : ∀ num blocks, dirs num = some blocks → ∀ e ∈ blocks.flatten, e.inodeNum ≠ 0 →
    0#8 ∉ e.name

section Names

variable {m m' : Bytes} {a : Nat}

theorem strcmpEq_congr (h : ∀ i, a ≤ i → m' i = m i) (s : Path) :
    strcmpEq m' a s = strcmpEq m a s := by
  induction s generalizing a with
  | nil => simp [strcmpEq, h a le_rfl]
  | cons c s ih =>
      have hrest : strcmpEq m' (a + 1) s = strcmpEq m (a + 1) s := ih fun i hi => h i (by omega)
      simp [strcmpEq, h a le_rfl, hrest]

/-- A comparison with a C string of the memory compares the strings. -/
theorem strcmpEq_iff {s t : Path} (hs : ∀ i < s.length, m (a + i) = s.getD i 0)
    (hend : m (a + s.length) = 0) (hs0 : 0#8 ∉ s) (ht0 : 0#8 ∉ t) :
    strcmpEq m a t = true ↔ s = t := by
  induction s generalizing a t with
  | nil =>
      cases t with
      | nil => simpa [strcmpEq] using hend
      | cons c t =>
          have hc : ¬ m a = c := by
            intro heq
            have hzero : m a = 0 := hend
            rw [← heq, hzero] at ht0
            simp at ht0
          simp [strcmpEq, hc]
  | cons x s ih =>
      have hx : m a = x := hs 0 (by simp)
      have hx0 : x ≠ 0#8 := fun h => hs0 (by simp [h])
      cases t with
      | nil => simpa [strcmpEq, hx] using hx0
      | cons c t =>
          have hrest := @ih (a + 1) t (fun i hi => by
              have hnext := hs (i + 1) (by simpa using hi)
              rwa [Nat.add_assoc, Nat.add_comm 1 i])
            (by rwa [List.length_cons, ← Nat.add_assoc, Nat.add_right_comm] at hend)
            (fun h => hs0 (List.mem_cons_of_mem _ h)) (fun h => ht0 (List.mem_cons_of_mem _ h))
          simp [strcmpEq, hx, hrest]

theorem Shows.strcmpEq {cur : Bytes} {e : DirRecord} {name : Path} (h : Shows cur e)
    (hlive : e.inodeNum ≠ 0) (he : 0#8 ∉ e.name) (hname : 0#8 ∉ name) :
    Fs.strcmpEq cur direntSzWoName name = decide (e.name = name) := by
  have hiff := strcmpEq_iff (h.name hlive) (h.closed hlive) he hname
  cases hcmp : Fs.strcmpEq cur direntSzWoName name with
  | true => exact (decide_eq_true (hiff.mp hcmp)).symm
  | false =>
      refine (decide_eq_false fun heq => ?_).symm
      rw [hiff.mpr heq] at hcmp
      exact Bool.noConfusion hcmp

theorem mem_components {path c : Path} (hc : c ∈ components path) {x : Byte} (hx : x ∈ c) :
    x ∈ path := by
  induction hn : path.length using Nat.strong_induction_on generalizing path with
  | _ n ih =>
      cases hnext : fsNextFile path with
      | none =>
          rw [components, hnext] at hc
          simp at hc
      | some r =>
          obtain ⟨c', rest⟩ := r
          have hlt := fsNextFile_lt hnext
          rw [components_of_next hnext] at hc
          unfold fsNextFile at hnext
          split at hnext
          · cases hnext
          · obtain ⟨rfl, rfl⟩ := Prod.mk.inj (Option.some.inj hnext)
            obtain rfl | hc := List.mem_cons.mp hc
            · exact (List.takeWhile_prefix _).subset hx
            · exact (List.dropWhile_sublist _).subset (List.mem_of_mem_tail (ih _ (hn ▸ hlt) hc rfl))

end Names

section Search

variable {it : DirIterator} {blocks : List (List DirRecord)} {es : List DirRecord} {name : Path}

/-- An entry that is not in use leaves the name in `cur`. -/
theorem loadEntry_dead (hdead : deInodeNum (loadEntry sb it).cur = 0) {i : Nat}
    (hi : direntSzWoName ≤ i) : (loadEntry sb it).cur i = it.cur i := by
  set head := copyTo it.cur 0 (fun i => it.blkbuf (it.byteaddr + i)) direntSzWoName with hhead
  by_cases hnum : deInodeNum head = 0
  · rw [loadEntry_eq]
    simp only [← hhead, if_pos hnum]
    exact copyTo_of_ge (by omega)
  · refine absurd ?_ hnum
    rw [← hdead, loadEntry_eq]
    simp only [← hhead, if_neg hnum]
    refine (getLe_congr fun i hi => ?_).symm
    rw [setByte, if_neg (by unfold direntSzWoName; omega),
      copyTo_of_lt (by unfold direntSzWoName; omega)]

theorem dirLookup_cons_of_ne {e : DirRecord} (h : e.inodeNum = 0 ∨ e.name ≠ name) :
    dirLookup (e :: es) name = dirLookup es name := by
  unfold dirLookup
  rw [List.find?_cons_of_neg]
  simp only [ne_eq, decide_eq_true_eq, not_and]
  exact fun hlive heq => h.elim hlive fun hne => hne heq

theorem dirLookup_ne_zero {num : Nat} (h : dirLookup es name = some num) : num ≠ 0 := by
  obtain ⟨e, he, rfl⟩ := Option.map_eq_some_iff.mp h
  have := List.find?_some he
  simp only [ne_eq, decide_eq_true_eq] at this
  exact this.1

/-- The walk from an iterator whose `cur` is not the name, or whose next entry is in use, gives the
first entry with the name. -/
theorem Ahead.findEntry (hdir : TiledDir sb d inode pbuf blocks)
    (h : Ahead sb d inode pbuf blocks it es) (hname : 0#8 ∉ name)
    (hnames : ∀ e ∈ es, e.inodeNum ≠ 0 → 0#8 ∉ e.name)
    (hcur : strcmpEq it.cur direntSzWoName name = false ∨ ∀ e ∈ es.head?, e.inodeNum ≠ 0) :
    ∃ it', Returns (fun fuel => Fs.findEntry sb d name fuel it)
      ((dirLookup es name).getD 0, it') := by
  induction es generalizing it with
  | nil =>
      refine ⟨(iterateDirNext sb d it).2, (findEntry_steady it).returns 1 ?_⟩
      simp only [Fs.findEntry]
      rw [if_pos h.stop.1]
      rfl
  | cons e es ih =>
      obtain ⟨hmore, hshows, hrest⟩ := h.step hdir
      have hnames' : ∀ e ∈ es, e.inodeNum ≠ 0 → 0#8 ∉ e.name := fun e' he' =>
        hnames e' (List.mem_cons_of_mem e he')
      -- the walk goes on behind an entry that is not the one sought
      have hskip : strcmpEq (iterateDirNext sb d it).2.cur direntSzWoName name = false →
          dirLookup (e :: es) name = dirLookup es name →
          ∃ it', Returns (fun fuel => Fs.findEntry sb d name fuel it)
            ((dirLookup (e :: es) name).getD 0, it') := by
        intro hother hlookup
        obtain ⟨it', n, hreturns⟩ := ih hrest hnames' (.inl hother)
        refine ⟨it', (findEntry_steady it).returns (n + 1) ?_⟩
        rw [hlookup, findEntry_step hmore hother]
        exact hreturns n le_rfl
      by_cases hlive : e.inodeNum = 0
      · have hvalid : it.isValid = true := by
          cases hv : it.isValid with
          | true => rfl
          | false => simp [iterateDirNext, hv] at hmore
        have hload : (iterateDirNext sb d it).2.cur = (loadEntry sb it).cur :=
          (iterateDirNext_more d hvalid).2
        have hkept : strcmpEq (iterateDirNext sb d it).2.cur direntSzWoName name =
            strcmpEq it.cur direntSzWoName name := by
          have hdead : deInodeNum (loadEntry sb it).cur = 0 := by
            rw [← hload, hshows.inodeNum, hlive]
          rw [hload]
          exact strcmpEq_congr (fun i hi => loadEntry_dead hdead hi) name
        refine hskip ?_ (dirLookup_cons_of_ne (.inl hlive))
        rw [hkept]
        exact hcur.resolve_right fun hhead => hhead e rfl hlive
      · have hcmp := hshows.strcmpEq hlive (hnames e (List.mem_cons_self ..) hlive) hname
        by_cases heq : e.name = name
        · refine ⟨(iterateDirNext sb d it).2, (findEntry_steady it).returns 1 ?_⟩
          have hfound : dirLookup (e :: es) name = some e.inodeNum := by
            unfold dirLookup
            rw [List.find?_cons_of_pos (by simp [hlive, heq])]
            rfl
          simp only [Fs.findEntry, hmore, hcmp, heq, hfound, hshows.inodeNum]
          rfl
        · exact hskip (hcmp.trans (decide_eq_false heq)) (dirLookup_cons_of_ne (.inr heq))

end Search

section Lookup

variable {dirs : DirTable}

theorem HoldsDirs.lookupLoop (h : HoldsDirs g d heap dirs) {comps : List Path}
    (hcomps : ∀ c ∈ comps, 0#8 ∉ c) {num : Nat} {r : Except Int Nat}
    (hr : resolve dirs comps num = some r) (frame : LookupFrame) :
    Returns (fun fuel => Fs.lookupLoop g fuel d heap comps num frame) r := by
  induction comps generalizing num frame with
  | nil =>
      obtain rfl := Option.some.inj hr
      exact Returns.const _
  | cons fcur rest ih =>
      obtain ⟨blocks, hblocks, hr⟩ := Option.bind_eq_some_iff.mp hr
      have hdir := h.tiled num blocks hblocks frame.curDir frame.itBuf
      obtain ⟨it', hwalk⟩ := (ahead_start hdir frame.cur).findEntry hdir
        (hcomps fcur (List.mem_cons_self ..)) (h.names num blocks hblocks)
        (.inr (h.first num blocks hblocks))
      refine Returns.bind hwalk ?_
      cases hlookup : dirLookup blocks.flatten fcur with
      | none =>
          rw [hlookup] at hr
          obtain rfl := Option.some.inj hr
          exact Returns.const _
      | some num' =>
          rw [hlookup] at hr
          simp only [Option.getD_some, if_neg (dirLookup_ne_zero hlookup)]
          exact ih (fun c hc => hcomps c (List.mem_cons_of_mem _ hc)) hr _

theorem HoldsDirs.findFinalInode (h : HoldsDirs g d heap dirs)
    (hsize : g.sb.inodeSize ≤ fsExt2InodeBytes) {path : Path} (hpath : 0#8 ∉ path)
    {r : Except Int Nat} (hr : resolve dirs (components path) fsExt2RootInode = some r)
    (frame : LookupFrame) (out : Bytes) :
    Returns (fun fuel => Fs.findFinalInode g fuel d heap frame path out)
      (r.map fun num => (num, readInode g d heap num out)) := by
  simp only [findFinalInode_eq hsize]
  exact (h.lookupLoop (fun _ hc hzero => hpath (mem_components hc hzero)) hr frame).map _

end Lookup

/-- The entry of the root directory in `lookupMedium`. -/
def selfRecord : DirRecord := { recordA with
  inodeNum := 2
  size := 1024
  size_ge := by decide }

def selfTable : DirTable := fun num => if num = 2 then some [[selfRecord]] else none

theorem dbp_lookupMedium (out : Bytes) {i : Nat} (hi : i < 12) :
    dbp (readInode (oneGroup 5) (lookupMedium 1024 97) blankMedium 2 out) i =
      if i = 0 then 10 else 0 := by
  have hblank : ∀ i < 12, dbp (readInode (oneGroup 5) (lookupMedium 1024 97) blankMedium 2
      blankMedium) i = if i = 0 then 10 else 0 := by decide +kernel
  rw [← hblank i hi]
  refine getLe_congr fun k hk => ?_
  have hin : 40 + 4 * i + k < (oneGroup 5).sb.inodeSize := by
    change 40 + 4 * i + k < 128
    omega
  unfold readInode
  simp only [copyTo, Nat.zero_le, true_and, Nat.zero_add, hin, if_true]

theorem holdsDirs_lookupMedium :
    HoldsDirs (oneGroup 5) (lookupMedium 1024 97) blankMedium selfTable := by
  have hdirs : ∀ num blocks, selfTable num = some blocks → num = 2 ∧ blocks = [[selfRecord]] := by
    intro num blocks h
    unfold selfTable at h
    split at h
    · exact ⟨‹_›, (Option.some.inj h).symm⟩
    · cases h
  refine ⟨fun num blocks h out pbuf => ?_, fun num blocks h e he => ?_,
    fun num blocks h e he hlive => ?_⟩
  · obtain ⟨rfl, rfl⟩ := hdirs num blocks h
    have hpointer : ∀ j < 12, pointerOf (oneGroup 5).sb (lookupMedium 1024 97)
        (readInode (oneGroup 5) (lookupMedium 1024 97) blankMedium 2 out) pbuf j =
          if j = 0 then 10 else 0 := by
      intro j hj
      rw [pointerOf, getInodePointer, if_pos hj]
      exact dbp_lookupMedium out hj
    refine ⟨fun j hj => ?_, hpointer 1 (by decide), fun j hj => ?_, by decide⟩
    · obtain rfl : j = 0 := by simpa using hj
      rw [hpointer 0 (by decide)]
      decide
    · obtain rfl : j = 0 := by simpa using hj
      rw [hpointer 0 (by decide)]
      exact .last ⟨by decide +kernel, by decide +kernel, fun _ => by decide +kernel,
        fun _ => by decide +kernel⟩ (by decide +kernel)
  · obtain ⟨rfl, rfl⟩ := hdirs num blocks h
    obtain rfl : selfRecord = e := by simpa using he
    decide
  · obtain ⟨rfl, rfl⟩ := hdirs num blocks h
    obtain rfl : e = selfRecord := by simpa using he
    decide

end UntitledOs.Fs
