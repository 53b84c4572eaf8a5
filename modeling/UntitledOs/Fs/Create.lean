import UntitledOs.Fs.Volume

/-!
# Creating a file

`fs_ext2_create` marks an inode, writes it, enters the name in the directory that the path leads to
and counts one more link there.  The path then leads to the new inode, and every path that led
somewhere still leads there.  The name is read from a freed buffer unless the path is the name.
-/

namespace UntitledOs.Fs

open UntitledOs.Lib

variable {g : Gdata} {d d' heap : Bytes} {e : DirRecord} {pre post : List DirRecord}
  {blocks blocks' : List (List DirRecord)} {dirs : DirTable} {path freed name : Path}
  {total num n j first : Nat}

def fsErrInvalidFilename : Int := -4

def fsCreateTypeDir : Nat := 2

/-- `fs_ext2_type_fs2ext2_inode`. -/
def typeFs2ext2Inode : Nat → Nat
  | 1 => 0x8000
  | 2 => 0x4000
  | 3 => 0xA000
  | 4 => 0x1000
  | 5 => 0x2000
  | 6 => 0x6000
  | 7 => 0xC000
  | _ => 0

/-- `de_inode` behind the `switch`; what follows the 128 bytes of the struct is the stack. -/
def newInode (sb : Superblock) (stack : Bytes) (type : Nat) : Bytes :=
  let inode := setLe (copyTo stack 0 (fun _ => 0) 128) 0 2 (0x1FF ||| typeFs2ext2Inode type)
  if type = fsCreateTypeDir then setLe (setHardLinks inode 2) 28 4 sb.blockSectors
  else setHardLinks inode 1

/-- What the locals of `fs_ext2_create` and of the functions it calls hold at first, and the string
in the place of the name in `path_buf` (`freed`), which is freed before the name is entered. -/
structure CreateFrame where
  lookup : LookupFrame
  fnode : Bytes
  deInode : Bytes
  deIn : Bytes
  freed : Path

/-- The name that is entered.  `de_name` points into the path itself only where that has no slash. -/
def enteredName (freed path : Path) : Path := if slash ∈ path then freed else path

/-- `fs_ext2_create`: its return value and the medium. -/
def create (g : Gdata) (first fuel : Nat) (d heap : Bytes) (frame : CreateFrame) (path : Path)
    (type : Nat) : Option (Int × Bytes) :=
  if (sepFnameAndDir path).2 = [] then some (fsErrInvalidFilename, d)
  else (findFinalInode g fuel d heap frame.lookup (sepFnameAndDir path).1 frame.fnode).bind fun
    | .error err => some (err, d)
    | .ok (fnodeNum, fnode) =>
        let deInodeNum :=
          findUnallocInode g first d heap (pred32 fnodeNum / g.sb.inodesPerGroup)
        if deInodeNum = 0 then some (fsErrNoSpace, d)
        else
          let deInode := newInode g.sb frame.deInode type
          let d := writeInode g (markAllocInode g d heap deInodeNum) heap deInodeNum deInode
          (occupyVacantDirent g fuel d heap frame.deIn fnode fnodeNum deInodeNum type
              (enteredName frame.freed path)).bind fun r =>
            if r.1 = false then some (fsErrNoSpace, r.2.2)
            else
              let fnode := setHardLinks r.2.1 (hardLinks r.2.1 + 1)
              let d := writeInode g r.2.2 heap fnodeNum fnode
              if type = fsCreateTypeDir then
                (occupyVacantDirent g fuel d heap frame.deIn deInode deInodeNum deInodeNum type
                    [46#8]).bind fun r =>
                  if r.1 = false then some (fsErrNoSpace, r.2.2)
                  else
                    (occupyVacantDirent g fuel r.2.2 heap frame.deIn r.2.1 deInodeNum deInodeNum type
                        [46#8, 46#8]).map fun r =>
                      (if r.1 = false then fsErrNoSpace else 0, r.2.2)
              else some (0, d)

/-! ## The file afterwards -/

/-- The path leads to a directory that has no entry `name` and takes it at the entry `e`, and the
search finds an inode for it, no directory. -/
structure Creatable (g : Gdata) (first total : Nat) (d heap : Bytes) (dirs : DirTable)
    (path name : Path) (num : Nat) (blocks : List (List DirRecord)) (n j : Nat)
    (pre : List DirRecord) (e : DirRecord) (post : List DirRecord) : Prop where
  closed : 0#8 ∉ path
  named : (sepFnameAndDir path).2 ≠ []
  parent : resolve dirs (components (sepFnameAndDir path).1) fsExt2RootInode = some (.ok num)
  directory : dirs num = some blocks
  found : findUnallocInode g first d heap (pred32 num / g.sb.inodesPerGroup) = n
  inode : 1 ≤ n ∧ n ≤ total
  unused : dirs n = none
  stored : inodeTableOffset g n < g.sb.blockSize
  parentStored : inodeTableOffset g num < g.sb.blockSize
  terminated : 0#8 ∉ name
  short : name.length ≤ 255
  absent : dirLookup blocks.flatten name = none
  lt : j < blocks.length
  block : blocks[j] = pre ++ e :: post
  passed : Passed g.sb d (slot g d num) blocks j pre name
  takes : Takes blocks j pre e post name

/-- The inode is the new one and marked, and the rest of the medium is as before: all but the mark,
the two inodes and the block of the entry. -/
structure Stored (g : Gdata) (d d' : Bytes) (num n b : Nat) (inode : Bytes) : Prop where
  inode : ∀ k < 128, slot g d' n k = inode k
  marked : bitAt d' (inodeBit g n) = true
  kept : ∀ a, a ≠ inodeBit g n / 8 → ¬ InSlot g n a → ¬ InSlot g num a → ¬ InBlock g.sb b a →
    d' a = d a

/-- The paths to the name in the directory lead to the new inode, and so does the path itself when
the name was still in the freed buffer.  The paths that led somewhere lead there. -/
structure Created (g : Gdata) (d d' heap : Bytes) (dirs : DirTable) (path name : Path)
    (num n b : Nat) (inode : Bytes) : Prop extends Stored g d d' num n b inode where
  entered : ∀ other, 0#8 ∉ other →
    components other = components (sepFnameAndDir path).1 ++ [name] → Leads g d' heap other n
  leads : name = (sepFnameAndDir path).2 → ¬ BareSlash path → Leads g d' heap path n
  others : ∀ other i, 0#8 ∉ other →
    resolve dirs (components other) fsExt2RootInode = some (.ok i) → Leads g d' heap other i

theorem findUnallocInode_lt (g : Gdata) (first : Nat) (d heap : Bytes) (start : Nat) :
    findUnallocInode g first d heap start < 2 ^ 32 := by
  have hu : ∀ x, u32 x < 2 ^ 32 := fun x => Nat.mod_lt _ (by norm_num)
  unfold findUnallocInode
  dsimp only
  split
  · exact hu _
  · split
    · exact hu _
    · norm_num

/-- A file is created where the volume has a place for it, and the volume stays one. -/
theorem Volume.createFile (h : Volume g total d dirs) (frame : CreateFrame)
    (hc : Creatable g first total d heap dirs path (enteredName frame.freed path) num blocks n j pre
      e post) {type : Nat} (htype : type ≠ fsCreateTypeDir) :
    ∃ d' mid, Returns (fun fuel => create g first fuel d heap frame path type) (0, d') ∧
      Entered e n (enteredName frame.freed path) mid ∧
      Volume g total d' (Function.update dirs num (some (blocks.set j (pre ++ (mid ++ post))))) ∧
      Stored g d d' num n (dbp (slot g d num) j) (newInode g.sb frame.deInode type) := by
  obtain ⟨hn, hnt⟩ := hc.inode
  obtain ⟨hnum, hnumt⟩ := h.number num blocks hc.directory
  have hfew := h.few hc.directory
  have hlt := hc.lt
  have hne : n ≠ num := by
    rintro rfl
    exact absurd (hc.unused.symm.trans hc.directory) (by simp)
  have hn32 : n < 2 ^ 32 := hc.found ▸ findUnallocInode_lt g first d heap _
  -- the new inode
  obtain ⟨h₂, halloc⟩ := h.allocate hn hnt hc.unused hc.stored (newInode g.sb frame.deInode type)
    heap
  set d₂ := Fs.writeInode g (markAllocInode g d heap n) heap n (newInode g.sb frame.deInode type)
  have hmark : IsMark g total (inodeBit g n / 8) := .inl ⟨n, hn, hnt, rfl⟩
  have hslot₂ : ∀ k < 128, slot g d₂ num k = slot g d num k :=
    slot_congr h.inodes.size fun a ha => halloc.kept a
      (fun heq => h.marksInSlots _ hmark num hnum hnumt (heq ▸ ha))
      (ha.apart h.inodes hnum hnumt hn hnt (Ne.symm hne))
  -- the inode of the directory, read before
  set dir := readInode g d heap num frame.fnode
  have hdbp : ∀ j < 12, dbp dir j = dbp (slot g d num) j := fun j hj =>
    dbp_congr (slot_readInode h.inodes _) hj
  have hdbp₂ : ∀ j < 12, dbp dir j = dbp (slot g d₂ num) j := fun j hj =>
    (hdbp j hj).trans (dbp_congr hslot₂ hj).symm
  have hpassed : Passed g.sb d₂ dir blocks j pre (enteredName frame.freed path) :=
    hc.passed.congr (h.dir num blocks hc.directory).direct hc.lt hc.block hdbp fun a ha =>
      halloc.kept a (fun heq => h.marksInDirs _ hmark num blocks hc.directory (heq ▸ ha))
        (h.slots num blocks hc.directory a ha n hn hnt)
  -- the name is entered
  obtain ⟨d₃, mid, hreturns, hentered, h₃, hkept₃⟩ :=
    h₂.enterName hc.directory hdbp₂ hc.lt hc.block hpassed hc.takes hc.short hc.terminated
      (Nat.one_le_iff_ne_zero.mp hn) hn32 heap frame.deIn type
  rw [hdbp j (by omega)] at hkept₃
  have hslot₃ : ∀ i, 1 ≤ i → i ≤ total → ∀ k < 128, slot g d₃ i k = slot g d₂ i k :=
    fun i hi hit => h₂.slot_kept hc.directory (fun a ha => hkept₃ a fun hin => ha ⟨j, hc.lt, by
      rwa [dbp_congr hslot₂ (by omega)]⟩) hi hit
  -- the inode of the directory is written with one more link
  set d₄ := Fs.writeInode g d₃ heap num (setHardLinks dir (hardLinks dir + 1))
  have h₄ : Volume g total d₄
      (Function.update dirs num (some (blocks.set j (pre ++ (mid ++ post))))) := by
    refine h₃.writeInode hnum hnumt hc.parentStored (fun _ _ i hi => ?_) heap
    rw [dbp_setHardLinks, hdbp₂ i hi]
    exact (dbp_congr (hslot₃ num hnum hnumt) hi).symm
  have hkept₄ : ∀ a, ¬ InSlot g num a → d₄ a = d₃ a := fun a ha =>
    writeInode_outside h.inodes hc.parentStored _ ha
  refine ⟨d₄, mid, ?_, hentered, h₄, fun k hk => ?_, ?_, fun a hmark hslot hslot' hblk => ?_⟩
  · have hlookup := h.leads (fun hx => hc.closed (mem_of_mem_sep.1 hx)) hc.parent heap frame.lookup
      frame.fnode
    unfold create
    simp only [if_neg hc.named]
    refine Returns.bind hlookup ?_
    simp only [hc.found, if_neg (Nat.one_le_iff_ne_zero.mp hn)]
    refine Returns.bind hreturns ?_
    simp only [if_neg htype]
    exact Returns.const _
  · have hapart := (inSlot_slot h.inodes.size hk).apart h.inodes hn hnt hnum hnumt hne
    exact (hkept₄ _ hapart).trans ((hslot₃ n hn hnt k hk).trans (halloc.inode k hk))
  · have hbyte : d₄ (inodeBit g n / 8) = d₂ (inodeBit g n / 8) := by
      rw [hkept₄ _ (h.marksInSlots _ hmark num hnum hnumt), hkept₃ _ fun hin =>
        h.marksInDirs _ hmark num blocks hc.directory ⟨j, hc.lt, hin⟩]
    have hmarked := halloc.marked
    unfold bitAt at hmarked ⊢
    rwa [hbyte]
  · rw [hkept₄ a hslot', hkept₃ a hblk, halloc.kept a hmark hslot]

/-! ## A root directory with room -/

def wideRecord : DirRecord := { selfRecord with
  size := 4096
  size_ge := by decide }

theorem root_wideMedium : Volume wideGroup 32 wideMedium (wideTable (rootOnly [wideRecord])) := by
  refine root_volume ⟨by decide, by decide, by decide +kernel, .last ?_ (by decide +kernel),
    by decide, by decide⟩
  exact ⟨by decide +kernel, by decide +kernel, fun _ => by decide +kernel,
    fun _ => by decide +kernel⟩

/-- `"b"` gets inode 17, the first free one behind the reserved ones. -/
theorem root_creatable (freed : Path) :
    Creatable wideGroup 10 32 wideMedium blankMedium (wideTable (rootOnly [wideRecord])) [98#8]
      (enteredName freed [98#8]) 2 [[wideRecord]] 17 0 [] wideRecord [] := by
  have hname : enteredName freed [98#8] = [98#8] := if_neg (by decide)
  rw [hname]
  refine ⟨by decide, by decide, ?_, rfl, by decide +kernel, by decide, rfl, by decide +kernel,
    by decide +kernel, by decide, by decide, by decide, by decide, rfl, ?_, ?_⟩
  · rw [show (sepFnameAndDir [98#8]).1 = [] by decide, components_nil]
    rfl
  · exact ⟨fun _ _ hlt => absurd hlt (by omega), fun _ _ _ h => by simp at h⟩
  · exact .split (by decide) (by decide) (.inr ⟨rfl, by decide⟩)

def createFrame : CreateFrame := ⟨blankFrame, blankMedium, blankMedium, blankMedium, []⟩

end UntitledOs.Fs
