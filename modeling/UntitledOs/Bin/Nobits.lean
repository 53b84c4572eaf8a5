import UntitledOs.Bin.Addresses
import UntitledOs.Kernlib.Realloc

/-!
# Zero-initialised sections

`elf_init_nobits` adds up the sizes of the sections without bytes in the file,
grows the buffer and gives them addresses in a second pass.  The second pass
starts at the file offset that the first section header holds, not at the section
header table.  The header of a file lies at the start of the buffer, whose address
is `base`.
-/

namespace UntitledOs.Bin

open Lib

def sectFlags (m : Bytes) (sect : Nat) : Nat := getLe m (sect + 8) 8

/-- `ELF_SECT_FLAG_ALLOC` is set. -/
def sectAlloc (m : Bytes) (sect : Nat) : Bool := (sectFlags m sect).testBit 1

def setSectOffset (m : Bytes) (sect v : Nat) : Bytes := setLe m (sect + 24) 8 v

/-- The condition of both passes. -/
def NobitsAlloc (m : Bytes) (sect : Nat) : Prop :=
  sectType m sect = elfSectTypeNobits ∧ sectSize m sect ≠ 0 ∧ sectAlloc m sect = true

instance (m : Bytes) (sect : Nat) : Decidable (NobitsAlloc m sect) := by
  unfold NobitsAlloc; infer_instance

/-- The first pass, into a `uint32_t`. -/
def addMemoryLoop (m : Bytes) : Nat → Nat → Nat → Nat → Nat
  | 0, _, _, addMemory => addMemory
  | fuel + 1, i, sect, addMemory =>
      if i < headerShtEntryCount m then
        addMemoryLoop m fuel (i + 1) (sect + headerShtEntrySize m)
          (if NobitsAlloc m sect then (addMemory + sectSize m sect) % 2 ^ 32 else addMemory)
      else addMemory

/-- The second pass; `curOff` is a pointer. -/
def nobitsLoop : Nat → Nat → Nat → Nat → Bytes → Bytes
  | 0, _, _, _, m => m
  | fuel + 1, i, sect, curOff, m =>
      if i < headerShtEntryCount m then
        if NobitsAlloc m sect then
          let m' := setSectOffset m sect curOff
          nobitsLoop fuel (i + 1) (sect + headerShtEntrySize m') (u64 (curOff + sectSize m' sect)) m'
        else nobitsLoop fuel (i + 1) (sect + headerShtEntrySize m) curOff m
      else m

/-- `elf_init_nobits`: `*elf_file_size` and the buffer afterwards.  `krealloc` returns the
buffer `grown` at `base`. -/
def elfInitNobits (file grown : Bytes) (size base : Nat) : Nat × Bytes :=
  (size + addMemoryLoop file (2 ^ 16) 0 (headerShtOff file) 0,
    nobitsLoop (2 ^ 16) 0 (sectOffset grown (headerShtOff grown)) (base + size) grown)

/-- A 64-bit little-endian image whose first section is the null section. -/
structure WellFormedImage (file : Bytes) (size : Nat) : Prop extends WellFormedFile file size where
  magic : getLe file 0 4 = 0x464C457F
  ident : file 4 = 2#8 ∧ file 5 = 1#8 ∧ file 6 = 1#8
  null : headerShtEntryCount file ≠ 0 → ∀ x < 64, file (headerShtOff file + x) = 0
  size_lt : size < 2 ^ 63

/-- Where the sections without bytes end up: ranges of their own, filled with zeros, behind the
old buffer, of which nothing else has changed. -/
structure NobitsPlaced (file : Bytes) (size : Nat) (r : Nat × Bytes) : Prop where
  grown : r.1 = size + ∑ i ∈ Finset.range (headerShtEntryCount file),
    if NobitsAlloc file (sectAt file i) then sectSize file (sectAt file i) else 0
  range : ∀ i < headerShtEntryCount file, NobitsAlloc file (sectAt file i) →
    size ≤ sectOffset r.2 (sectAt file i) ∧
    sectOffset r.2 (sectAt file i) + sectSize file (sectAt file i) ≤ r.1
  zero : ∀ i < headerShtEntryCount file, NobitsAlloc file (sectAt file i) →
    ∀ x < sectSize file (sectAt file i), r.2 (sectOffset r.2 (sectAt file i) + x) = 0
  apart : ∀ i < headerShtEntryCount file, NobitsAlloc file (sectAt file i) →
    ∀ j < headerShtEntryCount file, NobitsAlloc file (sectAt file j) → i ≠ j →
      Apart (sectOffset r.2 (sectAt file i)) (sectSize file (sectAt file i))
        (sectOffset r.2 (sectAt file j)) (sectSize file (sectAt file j))
  kept : ∀ a < size, (∀ i < headerShtEntryCount file, NobitsAlloc file (sectAt file i) →
    a < sectAt file i + 24 ∨ sectAt file i + 32 ≤ a) → r.2 a = file a

/-- Whatever buffer `krealloc` returns, the sections end up in their places. -/
def NobitsInit (file : Bytes) (size : Nat) : Prop :=
  ∀ base grown, 0 < base → base + size < 2 ^ 64 → (∀ a < size, grown a = file a) →
    NobitsPlaced file size (elfInitNobits file grown size base)

section Passes

variable {file grown m : Bytes} {size : Nat}

theorem addMemoryLoop_none (h : ∀ i < headerShtEntryCount m, ¬ NobitsAlloc m (sectAt m i))
    (fuel i acc : Nat) : addMemoryLoop m fuel i (sectAt m i) acc = acc := by
  induction fuel generalizing i acc with
  | zero => rfl
  | succ fuel ih =>
      rw [addMemoryLoop]
      split
      · rename_i hi
        rw [if_neg (h i hi), ← sectAt_succ]
        exact ih _ _
      · rfl

/-- The header fields of the buffer that the second pass reads again and again. -/
structure NobitsHeader (file m : Bytes) : Prop where
  count : headerShtEntryCount m = headerShtEntryCount file
  entrySize : headerShtEntrySize m = 64

/-- The offset field of the record at `64 * k` lies beside the fields of the header. -/
theorem NobitsHeader.setSectOffset (h : NobitsHeader file m) (k v : Nat) :
    NobitsHeader file (setSectOffset m (64 * k) v) where
  count := (getLe_setLe_of_disjoint (by omega)).trans h.count
  entrySize := (getLe_setLe_of_disjoint (by omega)).trans h.entrySize

/-- The second pass changes offset fields of 64-byte records from the start of the buffer. -/
theorem nobitsLoop_of_outside (h : NobitsHeader file m) {fuel i curOff a : Nat}
    (ha : ∀ k, i ≤ k → k < headerShtEntryCount file → a < 64 * k + 24 ∨ 64 * k + 32 ≤ a) :
    nobitsLoop fuel i (64 * i) curOff m a = m a := by
  induction fuel generalizing i curOff m with
  | zero => rfl
  | succ fuel ih =>
      have hnext : 64 * i + 64 = 64 * (i + 1) := by ring
      rw [nobitsLoop, h.count]
      split
      · rename_i hi
        split
        · have h' := h.setSectOffset i curOff
          simp only [h'.entrySize, hnext]
          rw [ih h' fun k hk => ha k (by omega)]
          exact setLe_of_outside (by have := ha i le_rfl hi; omega)
        · rw [h.entrySize, hnext]
          exact ih h fun k hk => ha k (by omega)
      · rfl

theorem nobitsLoop_none (h : NobitsHeader file m) {fuel i curOff : Nat}
    (hnone : ∀ k < headerShtEntryCount file, ¬ NobitsAlloc m (64 * k)) :
    nobitsLoop fuel i (64 * i) curOff m = m := by
  induction fuel generalizing i with
  | zero => rfl
  | succ fuel ih =>
      rw [nobitsLoop, h.count]
      split
      · rename_i hi
        rw [if_neg (hnone i hi), h.entrySize, show 64 * i + 64 = 64 * (i + 1) by ring]
        exact ih
      · rfl

/-- The first record that looks like a section without bytes receives the pointer behind the
old buffer. -/
theorem nobitsLoop_first (h : NobitsHeader file m) {fuel i k curOff : Nat} (hik : i ≤ k)
    (hk : k < headerShtEntryCount file) (hfuel : k < i + fuel)
    (hbefore : ∀ j, i ≤ j → j < k → ¬ NobitsAlloc m (64 * j)) (hfirst : NobitsAlloc m (64 * k)) :
    sectOffset (nobitsLoop fuel i (64 * i) curOff m) (64 * k) = curOff % 2 ^ 64 := by
  induction fuel generalizing i with
  | zero => omega
  | succ fuel ih =>
      rw [nobitsLoop, h.count, if_pos (by omega)]
      by_cases heq : i = k
      · subst heq
        have h' := h.setSectOffset i curOff
        rw [if_pos hfirst]
        simp only [h'.entrySize, show 64 * i + 64 = 64 * (i + 1) by ring]
        have hkept : ∀ x < 8, nobitsLoop fuel (i + 1) (64 * (i + 1))
            (u64 (curOff + sectSize (Bin.setSectOffset m (64 * i) curOff) (64 * i)))
            (Bin.setSectOffset m (64 * i) curOff) (64 * i + 24 + x) =
            Bin.setSectOffset m (64 * i) curOff (64 * i + 24 + x) := fun x hx =>
          nobitsLoop_of_outside h' fun k hk _ => by omega
        unfold sectOffset
        rw [getLe_congr hkept, Bin.setSectOffset, getLe_setLe]
        norm_num
      · rw [if_neg (hbefore i le_rfl (by omega)), h.entrySize,
          show 64 * i + 64 = 64 * (i + 1) by ring]
        exact ih (by omega) (by omega) fun j hj => hbefore j (by omega)

end Passes

section Placement

variable {file grown : Bytes} {size : Nat}

theorem nobitsAlloc_congr {m m' : Bytes} {sect : Nat} (h : ∀ x < 64, m' (sect + x) = m (sect + x)) :
    NobitsAlloc m' sect ↔ NobitsAlloc m sect := by
  have hword : ∀ o n, o + n ≤ 64 → getLe m' (sect + o) n = getLe m (sect + o) n := fun o n hn =>
    getLe_congr fun x hx => by
      rw [Nat.add_assoc]
      exact h _ (by omega)
  unfold NobitsAlloc sectType sectSize sectAlloc sectFlags
  rw [hword 4 4 (by decide), hword 32 8 (by decide), hword 8 8 (by decide)]

/-- Inside the old buffer a file and what `krealloc` makes of it agree. -/
structure Grown (file grown : Bytes) (size : Nat) : Prop where
  image : WellFormedImage file size
  same : ∀ a < size, grown a = file a

namespace Grown

theorem word (h : Grown file grown size) {a n : Nat} (han : a + n ≤ size) :
    getLe grown a n = getLe file a n :=
  getLe_congr fun i hi => h.same _ (by omega)

theorem header (h : Grown file grown size) : NobitsHeader file grown where
  count := h.word (by have := h.image.sht_ge; have := h.image.sht_le; omega)
  entrySize := (h.word (by have := h.image.sht_ge; have := h.image.sht_le; omega)).trans
    h.image.entrySize

theorem record (h : Grown file grown size) {k : Nat} (hk : k < headerShtEntryCount file) :
    NobitsAlloc grown (64 * k) ↔ NobitsAlloc file (64 * k) :=
  nobitsAlloc_congr fun x hx => h.same _ (by have := h.image.sht_le; omega)

/-- The second pass starts at the header of the file: the null section has no offset. -/
theorem elfInitNobits_eq (h : Grown file grown size) (base : Nat) :
    (elfInitNobits file grown size base).2 = nobitsLoop (2 ^ 16) 0 (64 * 0) (base + size) grown := by
  have hge := h.image.sht_ge
  have hle := h.image.sht_le
  by_cases hcount : headerShtEntryCount file = 0
  · have hloop : ∀ fuel sect, nobitsLoop fuel 0 sect (base + size) grown = grown := by
      intro fuel sect
      cases fuel with
      | zero => rfl
      | succ fuel => rw [nobitsLoop, h.header.count, hcount, if_neg (lt_irrefl 0)]
    exact (hloop _ _).trans (hloop _ _).symm
  · have hoff : headerShtOff grown = headerShtOff file := h.word (by omega)
    have hzero : sectOffset file (headerShtOff file) = 0 := getLe_zero fun x hx => by
      rw [Nat.add_assoc]
      exact h.image.null hcount _ (by omega)
    have hword : sectOffset grown (headerShtOff file) = sectOffset file (headerShtOff file) :=
      h.word (by omega)
    rw [elfInitNobits, hoff, hword, hzero]

end Grown

/-- A section without bytes in the file is not filled with zeros: the buffer behind the file
stays as `krealloc` returned it. -/
theorem not_nobitsInit (himage : WellFormedImage file size) {i : Nat}
    (hi : i < headerShtEntryCount file) (hnobits : NobitsAlloc file (sectAt file i)) :
    ¬ NobitsInit file size := by
  intro h
  have hsize := himage.size_lt
  have hle := himage.sht_le
  have hgrown : Grown file (fun a => if a < size then file a else 1#8) size :=
    ⟨himage, fun a ha => if_pos ha⟩
  have hplaced := h 1 _ (by decide) (by omega) hgrown.same
  have hrange := (hplaced.range i hi hnobits).1
  have hzero := hplaced.zero i hi hnobits 0 (Nat.pos_of_ne_zero hnobits.2.1)
  generalize hoff : sectOffset (elfInitNobits file (fun a => if a < size then file a else 1#8)
    size 1).2 (sectAt file i) = off at hrange hzero
  rw [hgrown.elfInitNobits_eq 1, Nat.add_zero, nobitsLoop_of_outside hgrown.header fun k _ hk => by
    omega, if_neg (by omega)] at hzero
  exact absurd hzero (by decide)

theorem not_nobitsAlloc_of_init (himage : WellFormedImage file size) (h : NobitsInit file size)
    (hnone : ∀ i < headerShtEntryCount file, ¬ NobitsAlloc file (sectAt file i)) :
    ∀ k < headerShtEntryCount file, ¬ NobitsAlloc file (64 * k) := by
  intro k
  induction k using Nat.strong_induction_on with
  | _ k ih =>
      intro hk hfound
      have hsize := himage.size_lt
      have hle := himage.sht_le
      have hgrown : Grown file file size := ⟨himage, fun _ _ => rfl⟩
      -- the pointer that the record receives depends on where the buffer lies
      have hoff : ∀ base, 0 < base → base + size < 2 ^ 64 →
          sectOffset file (64 * k) = base + size := by
        intro base hpos hlt
        have hplaced := h base file hpos hlt hgrown.same
        have hfirst := @nobitsLoop_first file file hgrown.header (2 ^ 16) 0 k (base + size)
          (Nat.zero_le k) hk (by have := headerShtEntryCount_lt file; omega)
          (fun j _ hj => ih j hj (by omega)) hfound
        rw [← hgrown.elfInitNobits_eq base, Nat.mod_eq_of_lt hlt] at hfirst
        rw [← hfirst]
        exact (getLe_congr fun x hx => hplaced.kept _ (by omega)
          fun i hi hnobits => absurd hnobits (hnone i hi)).symm
      have hone := hoff 1 (by decide) (by omega)
      have htwo := hoff 2 (by decide) (by omega)
      omega

theorem Grown.nobitsPlaced (hgrown : Grown file grown size)
    (hnone : ∀ i < headerShtEntryCount file, ¬ NobitsAlloc file (sectAt file i))
    (hrecord : ∀ k < headerShtEntryCount file, ¬ NobitsAlloc file (64 * k)) (base : Nat) :
    NobitsPlaced file size (elfInitNobits file grown size base) := by
  have hloop : (elfInitNobits file grown size base).2 = grown := by
    rw [hgrown.elfInitNobits_eq base]
    exact nobitsLoop_none hgrown.header fun k hk hfound =>
      hrecord k hk ((hgrown.record hk).mp hfound)
  constructor
  · have hadd := addMemoryLoop_none hnone (2 ^ 16) 0 0
    rw [show sectAt file 0 = headerShtOff file by simp [sectAt]] at hadd
    rw [elfInitNobits, hadd, Finset.sum_eq_zero]
    exact fun i hi => if_neg (hnone i (Finset.mem_range.mp hi))
  · exact fun i hi hnobits => absurd hnobits (hnone i hi)
  · exact fun i hi hnobits => absurd hnobits (hnone i hi)
  · exact fun i hi hnobits => absurd hnobits (hnone i hi)
  · intro a ha _
    rw [hloop]
    exact hgrown.same a ha

/-- `elf_init_nobits` does its work for the images that give it none: no section without bytes
in the table, and nothing like one in the records from the start of the file on. -/
theorem elf_init_nobits_iff (file : Bytes) (size : Nat) (himage : WellFormedImage file size) :
    NobitsInit file size ↔
      (∀ i < headerShtEntryCount file, ¬ NobitsAlloc file (sectAt file i)) ∧
      ∀ k < headerShtEntryCount file, ¬ NobitsAlloc file (64 * k) := by
  constructor
  · intro h
    have hnone : ∀ i < headerShtEntryCount file, ¬ NobitsAlloc file (sectAt file i) :=
      fun i hi hnobits => not_nobitsInit himage hi hnobits h
    exact ⟨hnone, not_nobitsAlloc_of_init himage h hnone⟩
  · rintro ⟨hnone, hrecord⟩ base grown - - hsame
    exact Grown.nobitsPlaced ⟨himage, hsame⟩ hnone hrecord base

section Buffers

open Kernlib

variable {unit : Option Nat} {h h' : ByteHeap} {cells cells' : List Nat} {kn b align : Nat}

/-- The bytes of the block `b` of the heap. -/
def blockBytes (h : ByteHeap) (b : Nat) : Bytes := fun a => h.mem (b + kmemNodeSize + a)

/-- The buffer that `krealloc` returns begins with the bytes of the file. -/
theorem blockBytes_reallocated (hdone : Reallocated unit h cells kn size align h' b cells')
    (hsize : h.view.sz kn ≤ size) :
    ∀ a < h.view.sz kn, blockBytes h' b a = blockBytes h kn a :=
  fun a ha => hdone.contents a (by omega)

/-- `elf_init_addresses` of a file in a block of the heap, which `krealloc` makes larger. -/
theorem elfInitAddresses_reallocated (hwf : WellFormedFile (blockBytes h kn) (h.view.sz kn))
    (hfit : FitsBuffer (blockBytes h kn) (lastAddress (blockBytes h kn)))
    (hapart : MovesApart (blockBytes h kn))
    (hdone : Reallocated unit h cells kn (lastAddress (blockBytes h kn)) align h' b cells')
    (hsize : h.view.sz kn ≤ lastAddress (blockBytes h kn)) :
    SectionsPlaced (blockBytes h kn) (elfInitAddresses (blockBytes h kn) (blockBytes h' b)) :=
  elfInitAddresses_placed hwf (blockBytes_reallocated hdone hsize) hfit hapart

/-- `elf_init_nobits` of an image in a block of the heap. -/
theorem elfInitNobits_reallocated (himage : WellFormedImage (blockBytes h kn) (h.view.sz kn))
    (hnone : ∀ i < headerShtEntryCount (blockBytes h kn),
      ¬ NobitsAlloc (blockBytes h kn) (sectAt (blockBytes h kn) i))
    (hrecord : ∀ k < headerShtEntryCount (blockBytes h kn), ¬ NobitsAlloc (blockBytes h kn) (64 * k))
    (hdone : Reallocated unit h cells kn size align h' b cells') (hsize : h.view.sz kn ≤ size) :
    NobitsPlaced (blockBytes h kn) (h.view.sz kn) (elfInitNobits (blockBytes h kn)
      (blockBytes h' b) (h.view.sz kn) (b + kmemNodeSize)) :=
  Grown.nobitsPlaced ⟨himage, blockBytes_reallocated hdone hsize⟩ hnone hrecord _

end Buffers

/-- An image with a null section and one more section of `type` behind its header. -/
def twoSections (type : Nat) : Bytes :=
  let m : Bytes := setLe (fun _ => 0) 0 7 0x010102464C457F
  let m := setLe (setLe (setLe m 40 8 64) 58 2 64) 60 2 2
  setLe (setLe (setLe m 132 4 type) 136 8 2) 160 8 16

theorem twoSections_wellFormed (type : Nat) (htype : type = 1 ∨ type = 8) :
    WellFormedImage (twoSections type) 192 := by
  obtain rfl | rfl := htype
  all_goals
    refine { entrySize := by decide, sht_ge := by decide, sht_le := by decide, backed := ?_,
             address := ?_, magic := by decide, ident := by decide, null := fun _ => by decide +kernel,
             size_lt := by decide }
    · decide +kernel
    · decide +kernel

theorem elf_init_nobits_iff_progbits : NobitsInit (twoSections 1) 192 :=
  (elf_init_nobits_iff (twoSections 1) 192 (twoSections_wellFormed 1 (.inl rfl))).mpr
    ⟨by decide +kernel, by decide +kernel⟩

theorem elf_init_nobits_leaves_bss :
    ¬ ∀ (file : Bytes) (size : Nat), WellFormedImage file size → NobitsInit file size := by
  intro h
  exact not_nobitsInit (twoSections_wellFormed 8 (.inr rfl)) (i := 1) (by decide)
    (by decide +kernel) (h _ _ (twoSections_wellFormed 8 (.inr rfl)))

end Placement

end UntitledOs.Bin
