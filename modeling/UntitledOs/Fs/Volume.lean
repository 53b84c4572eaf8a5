import UntitledOs.Fs.Insertion
import UntitledOs.Fs.InodeBitmap

/-!
# Volumes

The directories of a medium, with the inodes and the bitmap of the inodes each in its own place.
The writes of the operations on files keep a volume one: a mark, an inode, a name entered in a
directory, names removed from one.
-/

namespace UntitledOs.Fs

open UntitledOs.Lib

variable {g : Gdata} {sb : Superblock} {d d' heap dir dir' : Bytes} {e : DirRecord}
  {pre post mid : List DirRecord} {blocks blocks' : List (List DirRecord)} {dirs dirs' : DirTable}
  {name : Path} {total num n j : Nat}

def fsErrNoSpace : Int := -5

def hardLinks (inode : Bytes) : Nat := getLe inode 26 2

def setHardLinks (inode : Bytes) (v : Nat) : Bytes := setLe inode 26 2 v

theorem dbp_setHardLinks (inode : Bytes) (v i : Nat) :
    dbp (setHardLinks inode v) i = dbp inode i :=
  getLe_setLe_of_disjoint (.inr (by omega))

/-- The inode `num` on the medium. -/
def slot (g : Gdata) (d : Bytes) (num : Nat) : Bytes := fun k => d (inodeStart g num + k)

def InSlot (g : Gdata) (num a : Nat) : Prop :=
  inodeStart g num ≤ a ∧ a < inodeStart g num + g.sb.inodeSize

/-- In one of the first blocks of a directory. -/
def InDir (sb : Superblock) (dir : Bytes) (count a : Nat) : Prop :=
  ∃ j < count, InBlock sb (dbp dir j) a

/-- A byte of the bitmaps. -/
def IsMark (g : Gdata) (total a : Nat) : Prop :=
  (∃ i, 1 ≤ i ∧ i ≤ total ∧ a = inodeBit g i / 8) ∨ ∃ b < g.sb.blocksTotal, a = blockBit g b / 8

/-- A directory as the walks expect it. -/
structure GoodDir (sb : Superblock) (d dir : Bytes) (blocks : List (List DirRecord)) : Prop where
  direct : DirectDir sb d dir blocks
  first : ∀ e ∈ blocks.flatten.head?, e.inodeNum ≠ 0
  names : ∀ e ∈ blocks.flatten, e.inodeNum ≠ 0 → 0#8 ∉ e.name

/-- The directories of the medium, with the inodes 1 to `total`.  The blocks of different
directories, the inodes and the bitmaps are in different places. -/
structure Volume (g : Gdata) (total : Nat) (d : Bytes) (dirs : DirTable) : Prop where
  inodes : InodesApart g total
  number : ∀ num blocks, dirs num = some blocks → 1 ≤ num ∧ num ≤ total
  dir : ∀ num blocks, dirs num = some blocks → GoodDir g.sb d (slot g d num) blocks
  apart : ∀ num blocks num' blocks', dirs num = some blocks → dirs num' = some blocks' →
    num ≠ num' → ∀ a, InDir g.sb (slot g d num) blocks.length a →
      ¬ InDir g.sb (slot g d num') blocks'.length a
  slots : ∀ num blocks, dirs num = some blocks → ∀ a,
    InDir g.sb (slot g d num) blocks.length a → ∀ i, 1 ≤ i → i ≤ total → ¬ InSlot g i a
  marksInSlots : ∀ a, IsMark g total a → ∀ i, 1 ≤ i → i ≤ total → ¬ InSlot g i a
  marksInDirs : ∀ a, IsMark g total a → ∀ num blocks, dirs num = some blocks →
    ¬ InDir g.sb (slot g d num) blocks.length a

section Frame

theorem DirectDir.congr (h : DirectDir sb d dir blocks) (hdbp : ∀ j < 12, dbp dir' j = dbp dir j)
    (heq : ∀ a, InDir sb dir blocks.length a → d' a = d a) : DirectDir sb d' dir' blocks := by
  have hfew := h.few
  refine ⟨hfew, fun j hj => ?_, ?_, fun j hj => ?_, fun i hi j hj hne => ?_⟩
  · rw [hdbp j (by omega)]
    exact h.present j hj
  · rw [hdbp _ hfew]
    exact h.ended
  · refine (h.tiled j hj).congr fun i hi => ?_
    unfold dirBlock
    rw [hdbp j (by omega)]
    exact heq _ ⟨j, hj, Nat.le_add_right _ _, Nat.add_lt_add_left hi _⟩
  · rw [hdbp i (by omega), hdbp j (by omega)]
    exact h.apart i hi j hj hne

theorem inDir_congr {count a : Nat} (hcount : count < 12) (hdbp : ∀ j < 12, dbp dir' j = dbp dir j) :
    InDir sb dir' count a ↔ InDir sb dir count a := by
  unfold InDir
  refine exists_congr fun j => and_congr_right fun hj => ?_
  rw [hdbp j (by omega)]

theorem dbp_congr (h : ∀ k < 128, dir' k = dir k) (hj : j < 12) : dbp dir' j = dbp dir j :=
  getLe_congr fun i hi => h _ (by omega)

theorem slot_readInode (h : InodesApart g total) (out : Bytes) :
    ∀ k < 128, readInode g d heap num out k = slot g d num k := fun _ hk =>
  readInode_eq h num (by rwa [h.size])

theorem Volume.few (h : Volume g total d dirs) (hblocks : dirs num = some blocks) :
    blocks.length < 12 :=
  (h.dir num blocks hblocks).direct.few

/-- The directories may hold other entries as long as they keep their blocks. -/
theorem Volume.reshape (h : Volume g total d dirs)
    (hkept : ∀ num blocks', dirs' num = some blocks' → ∃ blocks, dirs num = some blocks ∧
      blocks'.length = blocks.length ∧ (∀ j < 12, dbp (slot g d' num) j = dbp (slot g d num) j) ∧
      GoodDir g.sb d' (slot g d' num) blocks') : Volume g total d' dirs' := by
  have hin : ∀ num blocks', dirs' num = some blocks' → ∃ blocks, dirs num = some blocks ∧
      ∀ a, InDir g.sb (slot g d' num) blocks'.length a ↔
        InDir g.sb (slot g d num) blocks.length a := by
    intro num blocks' hblocks'
    obtain ⟨blocks, hblocks, hlen, hdbp, -⟩ := hkept num blocks' hblocks'
    refine ⟨blocks, hblocks, fun a => ?_⟩
    rw [hlen]
    exact inDir_congr (h.few hblocks) hdbp
  refine ⟨h.inodes, fun num blocks' hb => ?_, fun num blocks' hb => ?_,
    fun num blocks' num' blocks'' hb hb' hne a ha => ?_, fun num blocks' hb a ha => ?_,
    h.marksInSlots, fun a ha num blocks' hb => ?_⟩
  · obtain ⟨blocks, hblocks, -⟩ := hin num blocks' hb
    exact h.number num blocks hblocks
  · obtain ⟨-, -, -, -, hgood⟩ := hkept num blocks' hb
    exact hgood
  · obtain ⟨blocks, hblocks, hiff⟩ := hin num blocks' hb
    obtain ⟨blocks₂, hblocks₂, hiff₂⟩ := hin num' blocks'' hb'
    rw [hiff₂]
    exact h.apart num blocks num' blocks₂ hblocks hblocks₂ hne a ((hiff a).mp ha)
  · obtain ⟨blocks, hblocks, hiff⟩ := hin num blocks' hb
    exact h.slots num blocks hblocks a ((hiff a).mp ha)
  · obtain ⟨blocks, hblocks, hiff⟩ := hin num blocks' hb
    rw [hiff]
    exact h.marksInDirs a ha num blocks hblocks

theorem GoodDir.congr (h : GoodDir sb d dir blocks) (hdbp : ∀ j < 12, dbp dir' j = dbp dir j)
    (heq : ∀ a, InDir sb dir blocks.length a → d' a = d a) : GoodDir sb d' dir' blocks :=
  ⟨h.direct.congr hdbp heq, h.first, h.names⟩

/-- A write that keeps the pointers and the blocks of the directories. -/
theorem Volume.congr (h : Volume g total d dirs)
    (hdbp : ∀ num blocks, dirs num = some blocks →
      ∀ j < 12, dbp (slot g d' num) j = dbp (slot g d num) j)
    (heq : ∀ num blocks, dirs num = some blocks → ∀ a,
      InDir g.sb (slot g d num) blocks.length a → d' a = d a) : Volume g total d' dirs :=
  h.reshape fun num blocks hblocks => ⟨blocks, hblocks, rfl, hdbp num blocks hblocks,
    (h.dir num blocks hblocks).congr (hdbp num blocks hblocks) (heq num blocks hblocks)⟩

theorem Volume.holdsDirs (h : Volume g total d dirs) (heap : Bytes) :
    HoldsDirs g d heap dirs where
  tiled num blocks hblocks out pbuf := by
    refine DirectDir.tiledDir ?_ pbuf
    exact (h.dir num blocks hblocks).direct.congr
      (fun j hj => dbp_congr (slot_readInode h.inodes out) hj) fun _ _ => rfl
  first num blocks hblocks := (h.dir num blocks hblocks).first
  names num blocks hblocks := (h.dir num blocks hblocks).names

end Frame

section Writes

theorem markAllocInode_of_ne {a : Nat} (h : a ≠ inodeBit g n / 8) :
    markAllocInode g d heap n a = d a := by
  unfold markAllocInode
  rw [editBitmap_eq, setByte, if_neg]
  unfold inodeBit bitmapBit at h
  omega

theorem inSlot_slot {k : Nat} (hsize : g.sb.inodeSize = 128) (hk : k < 128) :
    InSlot g num (inodeStart g num + k) :=
  ⟨Nat.le_add_right _ _, by omega⟩

theorem slot_congr (hsize : g.sb.inodeSize = 128) (h : ∀ a, InSlot g num a → d' a = d a) :
    ∀ k < 128, slot g d' num k = slot g d num k := fun _ hk => h _ (inSlot_slot hsize hk)

theorem InSlot.apart (h : InodesApart g total) {i k a : Nat} (hi : 1 ≤ i) (hit : i ≤ total)
    (hk : 1 ≤ k) (hkt : k ≤ total) (hne : i ≠ k) (ha : InSlot g i a) : ¬ InSlot g k a := by
  have hapart := h.apart i k hi hit hk hkt hne
  have hdvd := dvd_inodeStart h i
  have hdvd' := dvd_inodeStart h k
  have hsize := h.size
  unfold InSlot at ha ⊢
  omega

/-- A write to the bitmaps. -/
theorem Volume.mark (h : Volume g total d dirs) (hkept : ∀ a, ¬ IsMark g total a → d' a = d a) :
    Volume g total d' dirs := by
  refine h.congr (fun num blocks hblocks j hj => ?_) fun num blocks hblocks a ha =>
    hkept a fun hmark => h.marksInDirs a hmark num blocks hblocks ha
  obtain ⟨hnum, hnumt⟩ := h.number num blocks hblocks
  refine dbp_congr (slot_congr h.inodes.size fun a ha => hkept a fun hmark => ?_) hj
  exact h.marksInSlots a hmark num hnum hnumt ha

theorem writeInode_inside (h : InodesApart g total) (hfirst : inodeTableOffset g n < g.sb.blockSize)
    (inode : Bytes) : ∀ k < 128, slot g (writeInode g d heap n inode) n k = inode k := by
  intro k hk
  have hin := @inSlot_slot g n k h.size hk
  refine ((writeInode_eq h n hfirst _).trans (if_pos hin)).trans ?_
  rw [Nat.add_sub_cancel_left]

theorem writeInode_outside (h : InodesApart g total) (hfirst : inodeTableOffset g n < g.sb.blockSize)
    (inode : Bytes) {a : Nat} (ha : ¬ InSlot g n a) : writeInode g d heap n inode a = d a :=
  (writeInode_eq h n hfirst a).trans (if_neg ha)

/-- An inode is written, and where it is a directory its pointers stay. -/
theorem Volume.writeInode (h : Volume g total d dirs) (hn : 1 ≤ n) (hnt : n ≤ total)
    (hfirst : inodeTableOffset g n < g.sb.blockSize) {inode : Bytes}
    (hdbp : ∀ blocks, dirs n = some blocks → ∀ j < 12, dbp inode j = dbp (slot g d n) j)
    (heap : Bytes) : Volume g total (Fs.writeInode g d heap n inode) dirs := by
  refine h.congr (fun num blocks hblocks j hj => ?_) fun num blocks hblocks a ha =>
    writeInode_outside h.inodes hfirst inode (h.slots num blocks hblocks a ha n hn hnt)
  by_cases hnum : num = n
  · subst hnum
    rw [dbp_congr (writeInode_inside h.inodes hfirst inode) hj]
    exact hdbp blocks hblocks j hj
  · obtain ⟨hpos, hle⟩ := h.number num blocks hblocks
    refine dbp_congr (slot_congr h.inodes.size fun a ha => ?_) hj
    exact writeInode_outside h.inodes hfirst inode (ha.apart h.inodes hpos hle hn hnt hnum)

/-- An inode is marked and written. -/
structure Allocated (g : Gdata) (d d' : Bytes) (n : Nat) (inode : Bytes) : Prop where
  kept : ∀ a, a ≠ inodeBit g n / 8 → ¬ InSlot g n a → d' a = d a
  inode : ∀ k < 128, slot g d' n k = inode k
  marked : bitAt d' (inodeBit g n) = true

theorem Volume.allocate (h : Volume g total d dirs) (hn : 1 ≤ n) (hnt : n ≤ total)
    (hunused : dirs n = none) (hfirst : inodeTableOffset g n < g.sb.blockSize) (inode heap : Bytes) :
    Volume g total (Fs.writeInode g (markAllocInode g d heap n) heap n inode) dirs ∧
      Allocated g d (Fs.writeInode g (markAllocInode g d heap n) heap n inode) n inode := by
  have hmark : IsMark g total (inodeBit g n / 8) := .inl ⟨n, hn, hnt, rfl⟩
  have hmarked : Volume g total (markAllocInode g d heap n) dirs := h.mark fun a ha =>
    markAllocInode_of_ne fun heq => ha (heq ▸ hmark)
  refine ⟨hmarked.writeInode hn hnt hfirst (fun blocks hblocks => ?_) heap, fun a hmark ha => ?_,
    writeInode_inside h.inodes hfirst inode, ?_⟩
  · exact absurd (hunused.symm.trans hblocks) (by simp)
  · exact (writeInode_outside h.inodes hfirst inode ha).trans (markAllocInode_of_ne hmark)
  · have hbit := @bitAt_markAllocInode g d heap n (inodeBit g n)
    rw [decide_eq_true rfl, Bool.or_true] at hbit
    rw [← hbit]
    unfold bitAt
    rw [writeInode_outside h.inodes hfirst inode (h.marksInSlots _ hmark n hn hnt)]

end Writes

section Entry

theorem Entered.live (h : Entered e n name mid) (hn : n ≠ 0) : ∀ x ∈ mid,
    x.inodeNum ≠ 0 ∧ (x.name = name ∨ e.inodeNum ≠ 0 ∧ x.name = e.name) := by
  intro x hx
  cases h with
  | reused m dead inodeNum size named =>
      obtain rfl := List.mem_singleton.mp hx
      exact ⟨inodeNum ▸ hn, .inl named⟩
  | split s m live kept shrunk same inodeNum size named =>
      rcases List.mem_pair.mp hx with rfl | rfl
      · exact ⟨kept ▸ live, .inr ⟨live, same⟩⟩
      · exact ⟨inodeNum ▸ hn, .inl named⟩

theorem GoodDir.entered (h : GoodDir sb d dir blocks) (hentered : Entered e n name mid)
    (hn : n ≠ 0) (hmid : mid ≠ []) (hzero : 0#8 ∉ name) (hj : j < blocks.length)
    (hblock : blocks[j] = pre ++ e :: post)
    (hdirect : DirectDir sb d' dir (blocks.set j (pre ++ (mid ++ post)))) :
    GoodDir sb d' dir (blocks.set j (pre ++ (mid ++ post))) := by
  obtain ⟨front, back, hold, hnew⟩ := flatten_set hj hblock
  refine ⟨hdirect, fun x hx => ?_, fun x hx hlive => ?_⟩
  · rw [hnew] at hx
    cases front with
    | nil =>
        obtain ⟨m, rest, rfl⟩ := List.exists_cons_of_ne_nil hmid
        obtain rfl : m = x := by simpa using hx
        exact (hentered.live hn m (List.mem_cons_self ..)).1
    | cons f front =>
        exact h.first x (by rw [hold]; exact hx)
  · have hmem : ∀ y ∈ front ++ e :: back, y.inodeNum ≠ 0 → 0#8 ∉ y.name := hold ▸ h.names
    rw [hnew, List.mem_append, List.mem_append] at hx
    rcases hx with hx | hx | hx
    · exact hmem x (List.mem_append_left _ hx) hlive
    · rcases (hentered.live hn x hx).2 with hname | ⟨hold, hname⟩
      · rwa [hname]
      · rw [hname]
        exact hmem e (by simp) hold
    · exact hmem x (by simp [hx]) hlive

/-- A write to the blocks of a directory changes no inode. -/
theorem Volume.slot_kept (h : Volume g total d dirs) (hblocks : dirs num = some blocks)
    (heq : ∀ a, ¬ InDir g.sb (slot g d num) blocks.length a → d' a = d a) {i : Nat} (hi : 1 ≤ i)
    (hit : i ≤ total) : ∀ k < 128, slot g d' i k = slot g d i k :=
  slot_congr h.inodes.size fun a ha => heq a fun hin =>
    h.slots num blocks hblocks a hin i hi hit ha

/-- The entries of one directory change within its blocks. -/
theorem Volume.enter (h : Volume g total d dirs) (hblocks : dirs num = some blocks)
    (hdbp : ∀ j < 12, dbp dir j = dbp (slot g d num) j) (hgood : GoodDir g.sb d' dir blocks')
    (hlen : blocks'.length = blocks.length)
    (heq : ∀ a, ¬ InDir g.sb (slot g d num) blocks.length a → d' a = d a) :
    Volume g total d' (Function.update dirs num (some blocks')) := by
  have hslot : ∀ i, 1 ≤ i → i ≤ total → ∀ j < 12, dbp (slot g d' i) j = dbp (slot g d i) j :=
    fun i hi hit j hj => dbp_congr (h.slot_kept hblocks heq hi hit) hj
  refine h.reshape fun num' b hb => ?_
  by_cases hnum : num' = num
  · subst hnum
    rw [Function.update_self] at hb
    obtain rfl := Option.some.inj hb
    obtain ⟨hpos, hle⟩ := h.number num' blocks hblocks
    have hsame := hslot num' hpos hle
    refine ⟨blocks, hblocks, hlen, hsame, hgood.congr (fun j hj => ?_) fun _ _ => rfl⟩
    rw [hsame j hj, hdbp j hj]
  · rw [Function.update_of_ne hnum] at hb
    obtain ⟨hpos, hle⟩ := h.number num' b hb
    have hsame := hslot num' hpos hle
    refine ⟨b, hb, rfl, hsame, (h.dir num' b hb).congr hsame fun a ha => heq a ?_⟩
    exact h.apart num' b num blocks hb hblocks hnum a ha

theorem DirectDir.header_inside (h : DirectDir sb d dir blocks) (hj : j < blocks.length)
    (hblock : blocks[j] = pre ++ e :: post) : span pre + direntSzWoName ≤ sb.blockSize := by
  have htiled := h.tiled j hj
  have hsize := e.size_ge
  rw [hblock, blockTiled_iff] at htiled
  have hend := htiled.2.2
  rw [span_append, span_cons] at hend
  omega

theorem Passed.congr (h : Passed sb d dir blocks j pre name) (hdir : DirectDir sb d dir blocks)
    (hj : j < blocks.length) (hblock : blocks[j] = pre ++ e :: post)
    (hdbp : ∀ j < 12, dbp dir' j = dbp dir j)
    (heq : ∀ a, InDir sb dir blocks.length a → d' a = d a) :
    Passed sb d' dir' blocks j pre name := by
  have hfew := hdir.few
  have hsame : ∀ k (hk : k < blocks.length) before x after, blocks[k] = before ++ x :: after →
      ¬ HasRoom sb (fun i => dirBlock sb d dir k (span before + i)) name →
      ¬ HasRoom sb (fun i => dirBlock sb d' dir' k (span before + i)) name := by
    intro k hk before x after hx hroom
    have hinside := hdir.header_inside hk hx
    refine (@hasRoom_congr sb name _ _ fun i hi => ?_).not.mpr hroom
    unfold dirBlock
    rw [hdbp k (by omega)]
    refine heq _ ⟨k, hk, Nat.le_add_right _ _, ?_⟩
    omega
  refine ⟨fun k hk hlt before x after hx => ?_, fun before x after hx => ?_⟩
  · exact hsame k hk before x after hx (h.blocks k hk hlt before x after hx)
  · refine hsame j hj before x (after ++ e :: post) ?_ (h.block before x after hx)
    rw [hblock, hx]
    simp

/-- A name is entered in a directory that is in memory. -/
theorem Volume.enterName (h : Volume g total d dirs) (hblocks : dirs num = some blocks)
    (hdbp : ∀ j < 12, dbp dir j = dbp (slot g d num) j) (hj : j < blocks.length)
    (hblock : blocks[j] = pre ++ e :: post) (hpassed : Passed g.sb d dir blocks j pre name)
    (htakes : Takes blocks j pre e post name) (hname : name.length ≤ 255) (hzero : 0#8 ∉ name)
    (hn : n ≠ 0) (hlt : n < 2 ^ 32) (heap stack : Bytes) (type : Nat) :
    ∃ d' mid, Returns (fun fuel => occupyVacantDirent g fuel d heap stack dir num n type name)
        (true, dir, d') ∧
      Entered e n name mid ∧
      Volume g total d' (Function.update dirs num (some (blocks.set j (pre ++ (mid ++ post))))) ∧
      ∀ a, ¬ InBlock g.sb (dbp dir j) a → d' a = d a := by
  have hgood : GoodDir g.sb d dir blocks :=
    (h.dir num blocks hblocks).congr hdbp fun _ _ => rfl
  have hfew := hgood.direct.few
  obtain ⟨mid, blk, buf, hbuf, hentered, hwritten, hreturns⟩ :=
    hgood.direct.enters hj hblock hpassed htakes hname hlt heap stack num type
  have hdirect := (hwritten.directory hgood.direct hj hblock hbuf).1
  have hkept : ∀ a, ¬ InBlock g.sb (dbp dir j) a → writeBlock g.sb d (dbp dir j) buf a = d a :=
    fun _ => writeBlock_of_outside
  refine ⟨_, mid, hreturns, hentered, h.enter hblocks hdbp ?_ (List.length_set ..) fun a ha =>
    hkept a fun hin => ha ⟨j, hj, ?_⟩, hkept⟩
  · exact hgood.entered hentered hn hwritten.ne_nil hzero hj hblock hdirect
  · rwa [← hdbp j (by omega)]

end Entry

section Resolution

theorem resolve_append {comps rest : List Path} {start : Nat}
    (h : resolve dirs comps start = some (.ok num)) :
    resolve dirs (comps ++ rest) start = resolve dirs rest num := by
  induction comps generalizing start with
  | nil =>
      obtain rfl : start = num := by simpa [resolve] using h
      rfl
  | cons fcur comps ih =>
      obtain ⟨blocks, hblocks, hnext⟩ := Option.bind_eq_some_iff.mp h
      simp only [List.cons_append, resolve, hblocks, Option.bind_some]
      cases hlookup : dirLookup blocks.flatten fcur with
      | none =>
          rw [hlookup] at hnext
          cases hnext
      | some next =>
          rw [hlookup] at hnext
          exact ih hnext

theorem resolve_start {comps : List Path} {start : Nat}
    (h : resolve dirs comps start = some (.ok num)) :
    start = num ∨ ∃ blocks, dirs start = some blocks := by
  cases comps with
  | nil => exact .inl (by simpa [resolve] using h)
  | cons fcur comps =>
      obtain ⟨blocks, hblocks, -⟩ := Option.bind_eq_some_iff.mp h
      exact .inr ⟨blocks, hblocks⟩

/-- A path leads where it led when the names of the inodes that it meets are still there. -/
theorem resolve_mono {kept : Nat → Prop}
    (h : ∀ num blocks, dirs num = some blocks → kept num ∧ ∃ blocks', dirs' num = some blocks' ∧
      ∀ name i, kept i → dirLookup blocks.flatten name = some i →
        dirLookup blocks'.flatten name = some i)
    {comps : List Path} {start : Nat} (hnum : kept num)
    (hr : resolve dirs comps start = some (.ok num)) :
    resolve dirs' comps start = some (.ok num) := by
  induction comps generalizing start with
  | nil => exact hr
  | cons fcur comps ih =>
      obtain ⟨blocks, hblocks, hnext⟩ := Option.bind_eq_some_iff.mp hr
      obtain ⟨-, blocks', hblocks', hkept⟩ := h start blocks hblocks
      simp only [resolve, hblocks', Option.bind_some]
      cases hlookup : dirLookup blocks.flatten fcur with
      | none =>
          rw [hlookup] at hnext
          cases hnext
      | some next =>
          rw [hlookup] at hnext
          have hmeets : kept next := by
            rcases resolve_start hnext with rfl | ⟨b, hb⟩
            · exact hnum
            · exact (h next b hb).1
          rw [hkept fcur next hmeets hlookup]
          exact ih hnext

/-- Where the paths lead after a name was entered in a directory. -/
theorem resolve_entered {comps : List Path} (hblocks : dirs num = some blocks)
    (hparent : resolve dirs comps fsExt2RootInode = some (.ok num))
    (habsent : dirLookup blocks.flatten name = none) (hentered : Entered e n name mid) (hn : n ≠ 0)
    (hj : j < blocks.length) (hblock : blocks[j] = pre ++ e :: post)
    (hblocks' : blocks' = blocks.set j (pre ++ (mid ++ post))) :
    resolve (Function.update dirs num (some blocks')) (comps ++ [name]) fsExt2RootInode =
        some (.ok n) ∧
      ∀ comps i, resolve dirs comps fsExt2RootInode = some (.ok i) →
        resolve (Function.update dirs num (some blocks')) comps fsExt2RootInode = some (.ok i) := by
  obtain ⟨hfound, hkept⟩ := hentered.dirLookup hn hj hblock
  replace hfound := hfound habsent
  rw [← hblocks'] at hfound hkept
  have hmore : ∀ num' b, dirs num' = some b → True ∧ ∃ b',
      Function.update dirs num (some blocks') num' = some b' ∧
      ∀ other i, True → dirLookup b.flatten other = some i → dirLookup b'.flatten other = some i := by
    intro num' b hb
    refine ⟨trivial, ?_⟩
    by_cases hnum : num' = num
    · subst hnum
      obtain rfl := Option.some.inj (hblocks.symm.trans hb)
      refine ⟨blocks', Function.update_self .., fun other i _ hlookup => ?_⟩
      rw [hkept other, hlookup]
      rintro rfl
      rw [habsent] at hlookup
      cases hlookup
    · exact ⟨b, (Function.update_of_ne hnum ..).trans hb, fun _ _ _ hlookup => hlookup⟩
  refine ⟨?_, fun comps i hr => resolve_mono hmore trivial hr⟩
  rw [resolve_append (resolve_mono hmore trivial hparent)]
  simp only [resolve, Function.update_self, Option.bind_some, hfound]

theorem components_sep {path : Path} (hbare : ¬ BareSlash path)
    (hnamed : (sepFnameAndDir path).2 ≠ []) :
    components path = components (sepFnameAndDir path).1 ++ [(sepFnameAndDir path).2] := by
  by_cases hmem : slash ∈ path
  · obtain ⟨dir, name, rfl, hname⟩ := last_slash hmem
    have hdir : ¬ (dir = [] ∨ dir.getLast? = some slash) := fun h =>
      hbare ⟨dir, name, rfl, hname, h⟩
    rw [sepFnameAndDir_slash dir hname] at hnamed ⊢
    rw [components_append dir hname hnamed, components_snoc, if_neg hdir, List.append_nil]
  · rw [sepFnameAndDir_name hmem] at hnamed ⊢
    rw [components_nil, components_name hmem hnamed]
    rfl

theorem mem_of_mem_sep {path : Path} {x : Byte} :
    (x ∈ (sepFnameAndDir path).1 → x ∈ path) ∧ (x ∈ (sepFnameAndDir path).2 → x ∈ path) := by
  unfold sepFnameAndDir
  split
  · exact ⟨fun h => List.mem_of_mem_take h, fun h => List.mem_of_mem_drop h⟩
  · exact ⟨fun h => absurd h (List.not_mem_nil), id⟩

/-- The code finds the inode from the path. -/
def Leads (g : Gdata) (d heap : Bytes) (path : Path) (num : Nat) : Prop :=
  ∀ frame out, Returns (fun fuel => findFinalInode g fuel d heap frame path out)
    (.ok (num, readInode g d heap num out))

theorem Volume.leads (h : Volume g total d dirs) {path : Path} (hpath : 0#8 ∉ path)
    (hr : resolve dirs (components path) fsExt2RootInode = some (.ok num)) (heap : Bytes) :
    Leads g d heap path num := fun frame out =>
  (h.holdsDirs heap).findFinalInode h.inodes.size.le hpath hr frame out

end Resolution

/-! ## A volume with a root directory -/

/-- One group with 32 inodes in one block of 4 KiB. -/
def wideGroup : Gdata where
  sb :=
    { (oneGroup 5).sb with
      blockLogsz := 2
      inodesPerGroup := 32 }
  bt := (oneGroup 5).bt

/-- The root directory has block 10, with the one entry `"a"`, for itself. -/
def wideMedium : Bytes :=
  setLe (setLe (setLe (setLe (setLe blankMedium 20648 4 10) 40960 4 2) 40964 2 4096) 40966 1 1)
    40968 1 97

/-- Directories of one block, each with the number of the block and its entries. -/
abbrev Placement := Nat → Option (Nat × List DirRecord)

def wideTable (place : Placement) : DirTable := fun num => (place num).map fun p => [p.2]

/-- A root directory alone. -/
def rootOnly (es : List DirRecord) : Placement := fun num => if num = 2 then some (10, es) else none

/-- The directory `num` of `wideGroup` has the one block `b` with these entries. -/
structure WideDir (d : Bytes) (num b : Nat) (es : List DirRecord) : Prop where
  number : 1 ≤ num ∧ num ≤ 32
  block : 10 ≤ b ∧ b < 8192
  dbp : ∀ j < 12, dbp (slot wideGroup d num) j = if j = 0 then b else 0
  tiled : BlockTiled wideGroup.sb (fun i => d (4096 * b + i)) 0 es
  first : ∀ e ∈ es.head?, e.inodeNum ≠ 0
  names : ∀ e ∈ es, e.inodeNum ≠ 0 → 0#8 ∉ e.name

section Wide

theorem inSlot_wideGroup {i a : Nat} (hi : 1 ≤ i) (hit : i ≤ 32) (h : InSlot wideGroup i a) :
    20480 ≤ a ∧ a < 24576 := by
  have hstart : ∀ i ≤ 32, 1 ≤ i → inodeStart wideGroup i = 20480 + 128 * (i - 1) := by
    decide +kernel
  have hsize : wideGroup.sb.inodeSize = 128 := rfl
  unfold InSlot at h
  rw [hstart i hit hi, hsize] at h
  omega

theorem isMark_wideGroup {a : Nat} (h : IsMark wideGroup 32 a) : a < 20480 := by
  rcases h with ⟨i, hi, hit, rfl⟩ | ⟨b, hb, rfl⟩
  · have hbit : ∀ i ≤ 32, 1 ≤ i → inodeBit wideGroup i / 8 < 20480 := by decide +kernel
    exact hbit i hit hi
  · have hsectors : wideGroup.sb.blockSectors = 8 := show u32 (1024 * 2 ^ 2) / 512 = 8 by decide
    have hbyte : blockBit wideGroup b / 8 < 16384 := by
      have hb : b < 8192 := hb
      unfold blockBit bitmapBit bitmapByte bitmapSector
      rw [hsectors]
      unfold wideGroup oneGroup u32 ataSectorSize
      simp only []
      omega
    omega

theorem wideGroup_apart : InodesApart wideGroup 32 where
  size := rfl
  dvd := by decide +kernel
  pos := by decide +kernel
  apart i j hi hit hj hjt hne := by
    have hstart : ∀ i ≤ 32, 1 ≤ i → inodeStart wideGroup i = 20480 + 128 * (i - 1) := by
      decide +kernel
    rw [hstart i hit hi, hstart j hjt hj]
    omega

theorem blockStart_wideGroup {b : Nat} (hb : b < 8192) : blockStart wideGroup.sb b = 4096 * b := by
  have hsectors : wideGroup.sb.blockSectors = 8 := show u32 (1024 * 2 ^ 2) / 512 = 8 by decide
  unfold blockStart u32 ataSectorSize
  rw [hsectors]
  omega

theorem WideDir.inDir {b a : Nat} {es : List DirRecord} (h : WideDir d num b es)
    (hin : InDir wideGroup.sb (slot wideGroup d num) 1 a) : 4096 * b ≤ a ∧ a < 4096 * (b + 1) := by
  obtain ⟨j, hj, hin⟩ := hin
  obtain rfl : j = 0 := by omega
  have hsize : wideGroup.sb.blockSize = 4096 := show u32 (1024 * 2 ^ 2) = 4096 by decide
  rw [h.dbp 0 (by decide), if_pos rfl] at hin
  unfold InBlock at hin
  rw [blockStart_wideGroup h.block.2, hsize] at hin
  omega

theorem WideDir.goodDir {b : Nat} {es : List DirRecord} (h : WideDir d num b es) :
    GoodDir wideGroup.sb d (slot wideGroup d num) [es] := by
  have hblock := h.block
  have hdbp : Fs.dbp (slot wideGroup d num) 0 = b := h.dbp 0 (by decide)
  refine ⟨⟨show 1 < 12 by decide, fun j hj => ?_, h.dbp 1 (by decide), fun j hj => ?_,
    fun i hi j hj hne => ?_⟩, by simpa using h.first, by simpa using h.names⟩
  · obtain rfl : j = 0 := by simpa using hj
    rw [hdbp]
    omega
  · obtain rfl : j = 0 := by simpa using hj
    unfold dirBlock
    rw [hdbp, blockStart_wideGroup hblock.2]
    exact h.tiled
  · simp only [List.length_singleton] at hi hj
    omega

theorem wide_volume {place : Placement}
    (hdir : ∀ num p, place num = some p → WideDir d num p.1 p.2)
    (hapart : ∀ num p num' p', place num = some p → place num' = some p' → num ≠ num' → p.1 ≠ p'.1) :
    Volume wideGroup 32 d (wideTable place) := by
  have hsome : ∀ {num blocks}, wideTable place num = some blocks →
      ∃ p, place num = some p ∧ blocks = [p.2] := by
    intro num blocks h
    obtain ⟨p, hp, rfl⟩ := Option.map_eq_some_iff.mp h
    exact ⟨p, hp, rfl⟩
  refine ⟨wideGroup_apart, fun num blocks hb => ?_, fun num blocks hb => ?_,
    fun num blocks num' blocks' hb hb' hne a ha hin => ?_, fun num blocks hb a ha i hi hit hslot => ?_,
    fun a ha i hi hit hslot => ?_, fun a ha num blocks hb hin => ?_⟩
  · obtain ⟨p, hp, rfl⟩ := hsome hb
    exact (hdir num p hp).number
  · obtain ⟨p, hp, rfl⟩ := hsome hb
    exact (hdir num p hp).goodDir
  · obtain ⟨p, hp, rfl⟩ := hsome hb
    obtain ⟨p', hp', rfl⟩ := hsome hb'
    have hplace := (hdir num p hp).inDir ha
    have hplace' := (hdir num' p' hp').inDir hin
    have hblocks := hapart num p num' p' hp hp' hne
    omega
  · obtain ⟨p, hp, rfl⟩ := hsome hb
    have hplace := (hdir num p hp).inDir ha
    have hblock := (hdir num p hp).block
    have hinode := inSlot_wideGroup hi hit hslot
    omega
  · have hmark := isMark_wideGroup ha
    have hinode := inSlot_wideGroup hi hit hslot
    omega
  · obtain ⟨p, hp, rfl⟩ := hsome hb
    have hmark := isMark_wideGroup ha
    have hplace := (hdir num p hp).inDir hin
    have hblock := (hdir num p hp).block
    omega

theorem root_volume {es : List DirRecord} (h : WideDir d 2 10 es) :
    Volume wideGroup 32 d (wideTable (rootOnly es)) := by
  have hroot : ∀ {num p}, rootOnly es num = some p → num = 2 ∧ p = (10, es) := by
    intro num p hp
    unfold rootOnly at hp
    split at hp
    · exact ⟨‹_›, (Option.some.inj hp).symm⟩
    · cases hp
  refine wide_volume (fun num p hp => ?_) fun num p num' p' hp hp' hne => ?_
  · obtain ⟨rfl, rfl⟩ := hroot hp
    exact h
  · exact absurd ((hroot hp).1.trans (hroot hp').1.symm) hne

end Wide

end UntitledOs.Fs
