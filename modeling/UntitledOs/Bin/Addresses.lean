import UntitledOs.Word
import UntitledOs.Lib.Bytes

/-!
# Section placement

`elf_init_addresses` grows the buffer of a file to the end of its last address
and moves each section from its file offset to its address, one after another
within the buffer.  The section headers are read from the buffer while it
changes.
-/

namespace UntitledOs.Bin

open Lib

def elfSectTypeNobits : Nat := 8

def headerShtOff (m : Bytes) : Nat := getLe m 40 8
def headerShtEntrySize (m : Bytes) : Nat := getLe m 58 2
def headerShtEntryCount (m : Bytes) : Nat := getLe m 60 2

def sectType (m : Bytes) (sect : Nat) : Nat := getLe m (sect + 4) 4
def sectAddress (m : Bytes) (sect : Nat) : Nat := getLe m (sect + 16) 8
def sectOffset (m : Bytes) (sect : Nat) : Nat := getLe m (sect + 24) 8
def sectSize (m : Bytes) (sect : Nat) : Nat := getLe m (sect + 32) 8

/-- The loop of `elf_init_addresses` that finds the end of the last address.  A
16-bit entry count ends it before the fuel does. -/
def maxAddrLoop (m : Bytes) : Nat → Nat → Nat → Nat → Nat
  | 0, _, _, maxAddr => maxAddr
  | fuel + 1, i, sect, maxAddr =>
      if i < headerShtEntryCount m then
        let last := u64 (sectAddress m sect + sectSize m sect)
        maxAddrLoop m fuel (i + 1) (sect + headerShtEntrySize m)
          (if last > maxAddr then last else maxAddr)
      else maxAddr

def moveSection (m : Bytes) (sect : Nat) : Bytes :=
  if sectAddress m sect ≠ 0 ∧ sectAddress m sect ≠ sectOffset m sect then
    memcpy m (sectAddress m sect) (sectOffset m sect) (sectSize m sect)
  else m

def moveLoop : Nat → Nat → Nat → Bytes → Bytes
  | 0, _, _, m => m
  | fuel + 1, i, sect, m =>
      if i < headerShtEntryCount m then
        let m' := moveSection m sect
        moveLoop fuel (i + 1) (sect + headerShtEntrySize m') m'
      else m

/-- `*elf_file_size` and the buffer afterwards; `grown` is the buffer that
`krealloc` returns. -/
def elfInitAddresses (file grown : Bytes) : Nat × Bytes :=
  (maxAddrLoop file (2 ^ 16) 0 (headerShtOff file) 0,
    moveLoop (2 ^ 16) 0 (headerShtOff grown) grown)

/-- The header of section `i`. -/
def sectAt (m : Bytes) (i : Nat) : Nat := headerShtOff m + i * headerShtEntrySize m

/-- The section has bytes in the file. -/
def FileBacked (m : Bytes) (sect : Nat) : Prop := sectType m sect ≠ elfSectTypeNobits

instance (m : Bytes) (sect : Nat) : Decidable (FileBacked m sect) := by
  unfold FileBacked; infer_instance

def Moved (m : Bytes) (sect : Nat) : Prop :=
  sectAddress m sect ≠ 0 ∧ sectAddress m sect ≠ sectOffset m sect

instance (m : Bytes) (sect : Nat) : Decidable (Moved m sect) := by
  unfold Moved; infer_instance

/-- Where the bytes of a section are expected. -/
def placedAt (m : Bytes) (sect : Nat) : Nat :=
  if sectAddress m sect ≠ 0 then sectAddress m sect else sectOffset m sect

structure WellFormedFile (file : Bytes) (size : Nat) : Prop where
  entrySize : headerShtEntrySize file = 64
  sht_ge : 64 ≤ headerShtOff file
  sht_le : headerShtOff file + headerShtEntryCount file * 64 ≤ size
  backed : ∀ i < headerShtEntryCount file, FileBacked file (sectAt file i) →
    sectOffset file (sectAt file i) + sectSize file (sectAt file i) ≤ size
  address : ∀ i < headerShtEntryCount file,
    sectAddress file (sectAt file i) + sectSize file (sectAt file i) < 2 ^ 64

/-- Every file-backed section has its bytes where they are expected, and they and
the section header table lie inside the buffer. -/
def SectionsPlaced (file : Bytes) (r : Nat × Bytes) : Prop :=
  (∀ x < headerShtEntryCount file * 64, headerShtOff file + x < r.1) ∧
  ∀ i < headerShtEntryCount file, FileBacked file (sectAt file i) →
    ∀ x < sectSize file (sectAt file i),
      r.2 (placedAt file (sectAt file i) + x) = file (sectOffset file (sectAt file i) + x) ∧
      placedAt file (sectAt file i) + x < r.1

/-- The end of the last address. -/
def lastAddress (file : Bytes) : Nat :=
  (Finset.range (headerShtEntryCount file)).sup fun i =>
    sectAddress file (sectAt file i) + sectSize file (sectAt file i)

/-- The ranges `[a, a + n)` and `[b, b + k)` have no byte in common. -/
def Apart (a n b k : Nat) : Prop := n = 0 ∨ k = 0 ∨ a + n ≤ b ∨ b + k ≤ a

instance (a n b k : Nat) : Decidable (Apart a n b k) := by unfold Apart; infer_instance

/-- The table and every section that stays at its file offset end below the last address. -/
def FitsBuffer (file : Bytes) (maxAddr : Nat) : Prop :=
  (headerShtEntryCount file = 0 ∨
    headerShtOff file + headerShtEntryCount file * 64 ≤ maxAddr) ∧
  ∀ i < headerShtEntryCount file, FileBacked file (sectAt file i) →
    sectAddress file (sectAt file i) = 0 → sectSize file (sectAt file i) = 0 ∨
      sectOffset file (sectAt file i) + sectSize file (sectAt file i) ≤ maxAddr

/-- No move overwrites the headers, the bytes of a section that does not move or has
yet to move, the place of a section that has moved, or its own bytes still to be read. -/
structure MovesApart (file : Bytes) : Prop where
  header : ∀ i < headerShtEntryCount file, Moved file (sectAt file i) →
    Apart (sectAddress file (sectAt file i)) (sectSize file (sectAt file i)) 0 64 ∧
    Apart (sectAddress file (sectAt file i)) (sectSize file (sectAt file i))
      (headerShtOff file) (headerShtEntryCount file * 64)
  own : ∀ i < headerShtEntryCount file, Moved file (sectAt file i) →
    FileBacked file (sectAt file i) →
    sectAddress file (sectAt file i) ≤ sectOffset file (sectAt file i) ∨
    sectOffset file (sectAt file i) + sectSize file (sectAt file i) ≤
      sectAddress file (sectAt file i)
  still : ∀ i < headerShtEntryCount file, Moved file (sectAt file i) →
    ∀ j < headerShtEntryCount file, FileBacked file (sectAt file j) →
      (¬ Moved file (sectAt file j) ∨ i < j) →
      Apart (sectAddress file (sectAt file i)) (sectSize file (sectAt file i))
        (sectOffset file (sectAt file j)) (sectSize file (sectAt file j))
  placed : ∀ i < headerShtEntryCount file, Moved file (sectAt file i) →
    ∀ j < i, FileBacked file (sectAt file j) → Moved file (sectAt file j) →
      Apart (sectAddress file (sectAt file i)) (sectSize file (sectAt file i))
        (sectAddress file (sectAt file j)) (sectSize file (sectAt file j))

theorem Apart.byte {a n b k x y : Nat} (h : Apart a n b k) (hx : b + x = y) (hlt : x < k) :
    y < a ∨ a + n ≤ y := by
  unfold Apart at h
  omega

theorem sectAt_succ (m : Bytes) (i : Nat) :
    sectAt m (i + 1) = sectAt m i + headerShtEntrySize m := by
  unfold sectAt
  ring

theorem headerShtEntryCount_lt (m : Bytes) : headerShtEntryCount m < 2 ^ 16 := by
  unfold headerShtEntryCount getLe getLe getLe
  have h0 := (m 60).isLt
  have h1 := (m (60 + 1)).isLt
  omega

theorem maxAddrLoop_eq {file : Bytes} {size : Nat} (hwf : WellFormedFile file size)
    {fuel i acc : Nat} (hfuel : headerShtEntryCount file ≤ i + fuel) :
    maxAddrLoop file fuel i (sectAt file i) acc =
      max acc ((Finset.Ico i (headerShtEntryCount file)).sup fun j =>
        sectAddress file (sectAt file j) + sectSize file (sectAt file j)) := by
  induction fuel generalizing i acc with
  | zero =>
      rw [Finset.Ico_eq_empty_of_le (by omega)]
      simp [maxAddrLoop]
  | succ fuel ih =>
      unfold maxAddrLoop
      by_cases hi : i < headerShtEntryCount file
      · rw [if_pos hi, ← sectAt_succ, ih (by omega), u64_of_lt (hwf.address i hi),
          ← Finset.insert_Ico_add_one_left_eq_Ico hi, Finset.sup_insert]
        simp only [gt_iff_lt]
        split
        · next hlt =>
            rw [← max_assoc, Nat.max_eq_right (Nat.le_of_lt hlt)]
        · next hge =>
            rw [← max_assoc, Nat.max_eq_left (Nat.le_of_not_lt hge)]
      · rw [if_neg hi, Finset.Ico_eq_empty_of_le (by omega)]
        simp

theorem maxAddrLoop_lastAddress {file : Bytes} {size : Nat} (hwf : WellFormedFile file size) :
    maxAddrLoop file (2 ^ 16) 0 (headerShtOff file) 0 = lastAddress file := by
  have hcount := headerShtEntryCount_lt file
  have h := @maxAddrLoop_eq file size hwf (2 ^ 16) 0 0 (by omega)
  rw [show sectAt file 0 = headerShtOff file by simp [sectAt]] at h
  rw [h, Nat.zero_max]
  unfold lastAddress
  rw [Finset.range_eq_Ico]

/-- The buffer after the first `i` sections were moved. -/
structure Moving (file m : Bytes) (i : Nat) : Prop where
  header : ∀ x < 64, m x = file x
  table : ∀ x < headerShtEntryCount file * 64,
    m (headerShtOff file + x) = file (headerShtOff file + x)
  still : ∀ j < headerShtEntryCount file, FileBacked file (sectAt file j) →
    (¬ Moved file (sectAt file j) ∨ i ≤ j) → ∀ x < sectSize file (sectAt file j),
      m (sectOffset file (sectAt file j) + x) = file (sectOffset file (sectAt file j) + x)
  placed : ∀ j < i, j < headerShtEntryCount file → FileBacked file (sectAt file j) →
    Moved file (sectAt file j) → ∀ x < sectSize file (sectAt file j),
      m (sectAddress file (sectAt file j) + x) = file (sectOffset file (sectAt file j) + x)

section Moving

variable {file m : Bytes} {i size : Nat}

theorem Moving.header_word (h : Moving file m i) {a n : Nat} (han : a + n ≤ 64) :
    getLe m a n = getLe file a n :=
  getLe_congr fun x hx => h.header (a + x) (by omega)

theorem Moving.sect_word (h : Moving file m i) (hwf : WellFormedFile file size) {j : Nat}
    (hj : j < headerShtEntryCount file) {a n : Nat} (han : a + n ≤ 64) :
    getLe m (sectAt file j + a) n = getLe file (sectAt file j + a) n := by
  refine getLe_congr fun x hx => ?_
  have hlt : j * 64 + a + x < headerShtEntryCount file * 64 := by
    have := Nat.mul_le_mul_right 64 (show j + 1 ≤ headerShtEntryCount file from hj)
    omega
  have hbyte := h.table (j * 64 + a + x) hlt
  unfold sectAt
  rw [hwf.entrySize]
  rwa [show headerShtOff file + (j * 64 + a + x) = headerShtOff file + j * 64 + a + x by omega]
    at hbyte

theorem Moving.moveSection_eq (h : Moving file m i) (hwf : WellFormedFile file size)
    (hi : i < headerShtEntryCount file) :
    moveSection m (sectAt file i) =
      if Moved file (sectAt file i) then
        memcpy m (sectAddress file (sectAt file i)) (sectOffset file (sectAt file i))
          (sectSize file (sectAt file i))
      else m := by
  have haddr : sectAddress m (sectAt file i) = sectAddress file (sectAt file i) :=
    h.sect_word hwf hi (by omega)
  have hoff : sectOffset m (sectAt file i) = sectOffset file (sectAt file i) :=
    h.sect_word hwf hi (by omega)
  have hsize : sectSize m (sectAt file i) = sectSize file (sectAt file i) :=
    h.sect_word hwf hi (by omega)
  unfold moveSection Moved
  rw [haddr, hoff, hsize]

theorem Moving.step (h : Moving file m i) (hwf : WellFormedFile file size)
    (hapart : MovesApart file) (hi : i < headerShtEntryCount file) :
    Moving file (moveSection m (sectAt file i)) (i + 1) := by
  rw [h.moveSection_eq hwf hi]
  by_cases hmoved : Moved file (sectAt file i)
  · rw [if_pos hmoved]
    refine ⟨fun x hx => ?_, fun x hx => ?_, fun j hj hback hstill x hx => ?_,
      fun j hji hj hback hmv x hx => ?_⟩
    · rw [memcpy_of_outside m ((hapart.header i hi hmoved).1.byte (Nat.zero_add x) hx)]
      exact h.header x hx
    · rw [memcpy_of_outside m ((hapart.header i hi hmoved).2.byte rfl hx)]
      exact h.table x hx
    · have hapt := hapart.still i hi hmoved j hj hback (hstill.imp_right fun hlt => hlt)
      rw [memcpy_of_outside m (hapt.byte rfl hx)]
      exact h.still j hj hback (hstill.imp_right fun hlt => by omega) x hx
    · rcases Nat.lt_succ_iff_lt_or_eq.mp hji with hlt | rfl
      · rw [memcpy_of_outside m ((hapart.placed i hi hmoved j hlt hback hmv).byte rfl hx)]
        exact h.placed j hlt hj hback hmv x hx
      · rw [memcpy_eq m (hapart.own j hi hmoved hback), copyTo_add hx]
        exact h.still j hi hback (Or.inr (le_refl j)) x hx
  · rw [if_neg hmoved]
    refine ⟨h.header, h.table, fun j hj hback hstill => h.still j hj hback ?_,
      fun j hji hj hback hmv => ?_⟩
    · exact hstill.imp_right fun hlt => by omega
    · rcases Nat.lt_succ_iff_lt_or_eq.mp hji with hlt | rfl
      · exact h.placed j hlt hj hback hmv
      · exact absurd hmv hmoved

theorem Moving.moveLoop (hwf : WellFormedFile file size) (hapart : MovesApart file) {fuel : Nat}
    (h : Moving file m i) (hfuel : headerShtEntryCount file ≤ i + fuel) :
    ∃ k, headerShtEntryCount file ≤ k ∧
      Moving file (moveLoop fuel i (sectAt file i) m) k := by
  induction fuel generalizing i m with
  | zero => exact ⟨i, by omega, h⟩
  | succ fuel ih =>
      have hcount : headerShtEntryCount m = headerShtEntryCount file := h.header_word (by omega)
      unfold Bin.moveLoop
      rw [hcount]
      by_cases hi : i < headerShtEntryCount file
      · have hstep := h.step hwf hapart hi
        have hsize : headerShtEntrySize (moveSection m (sectAt file i)) =
            headerShtEntrySize file := hstep.header_word (by omega)
        rw [if_pos hi]
        simp only
        rw [hsize, ← sectAt_succ]
        exact ih hstep (by omega)
      · rw [if_neg hi]
        exact ⟨i, by omega, h⟩

theorem moving_grown {grown : Bytes} (hwf : WellFormedFile file size)
    (hgrown : ∀ x < size, grown x = file x) : Moving file grown 0 := by
  have hge := hwf.sht_ge
  have hle := hwf.sht_le
  refine ⟨fun x hx => hgrown x (by omega), fun x hx => hgrown _ (by omega),
    fun j hj hback _ x hx => ?_, fun j hj => absurd hj (by omega)⟩
  have := hwf.backed j hj hback
  exact hgrown _ (by omega)

theorem le_lastAddress {j : Nat} (hj : j < headerShtEntryCount file) :
    sectAddress file (sectAt file j) + sectSize file (sectAt file j) ≤ lastAddress file := by
  unfold lastAddress
  exact Finset.le_sup (f := fun k =>
    sectAddress file (sectAt file k) + sectSize file (sectAt file k)) (Finset.mem_range.mpr hj)

theorem FitsBuffer.placed_lt (hfit : FitsBuffer file (lastAddress file)) {j x : Nat}
    (hj : j < headerShtEntryCount file) (hback : FileBacked file (sectAt file j))
    (hx : x < sectSize file (sectAt file j)) :
    placedAt file (sectAt file j) + x < lastAddress file := by
  unfold placedAt
  split
  · have := le_lastAddress hj
    omega
  · next hzero =>
      have := (hfit.2 j hj hback (not_not.mp hzero)).resolve_left (by omega)
      omega

theorem Moving.placed_byte (h : Moving file m i) (hi : headerShtEntryCount file ≤ i) {j x : Nat}
    (hj : j < headerShtEntryCount file) (hback : FileBacked file (sectAt file j))
    (hx : x < sectSize file (sectAt file j)) :
    m (placedAt file (sectAt file j) + x) = file (sectOffset file (sectAt file j) + x) := by
  by_cases hmoved : Moved file (sectAt file j)
  · unfold placedAt
    rw [if_pos hmoved.1]
    exact h.placed j (by omega) hj hback hmoved x hx
  · have hplace : placedAt file (sectAt file j) = sectOffset file (sectAt file j) := by
      unfold placedAt
      split
      · next hne =>
          by_contra hoff
          exact hmoved ⟨hne, hoff⟩
      · rfl
    rw [hplace]
    exact h.still j hj hback (Or.inl hmoved) x hx

theorem SectionsPlaced.fitsBuffer {r : Nat × Bytes} (h : SectionsPlaced file r) :
    FitsBuffer file r.1 := by
  refine ⟨?_, fun j hj hback hzero => ?_⟩
  · rcases Nat.eq_zero_or_pos (headerShtEntryCount file) with hcount | hcount
    · exact Or.inl hcount
    · have := h.1 (headerShtEntryCount file * 64 - 1) (by omega)
      exact Or.inr (by omega)
  · rcases Nat.eq_zero_or_pos (sectSize file (sectAt file j)) with hsize | hsize
    · exact Or.inl hsize
    · have := (h.2 j hj hback (sectSize file (sectAt file j) - 1) (by omega)).2
      unfold placedAt at this
      rw [if_neg (not_not.mpr hzero)] at this
      exact Or.inr (by omega)

end Moving

theorem elfInitAddresses_placed {file grown : Bytes} {size : Nat} (hwf : WellFormedFile file size)
    (hgrown : ∀ x < size, grown x = file x) (hfit : FitsBuffer file (lastAddress file))
    (hapart : MovesApart file) : SectionsPlaced file (elfInitAddresses file grown) := by
  have hlast : (elfInitAddresses file grown).1 = lastAddress file := maxAddrLoop_lastAddress hwf
  have hstart := moving_grown hwf hgrown
  have hcount := headerShtEntryCount_lt file
  obtain ⟨k, hk, hend⟩ := @Moving.moveLoop file grown 0 size hwf hapart (2 ^ 16) hstart (by omega)
  have hfirst : sectAt file 0 = headerShtOff grown := by
    rw [show headerShtOff grown = headerShtOff file from hstart.header_word (by omega)]
    simp [sectAt]
  rw [hfirst] at hend
  refine ⟨fun x hx => ?_, fun j hj hback x hx => ?_⟩
  · rw [hlast]
    have := hfit.1.resolve_left (by omega)
    omega
  · rw [hlast]
    exact ⟨hend.placed_byte hk hj hback hx, hfit.placed_lt hj hback hx⟩

/-- Everything is placed when it fits and the moves stay apart; it has to fit in any case. -/
theorem sectionsPlaced_of_apart {file grown : Bytes} {size : Nat} (hwf : WellFormedFile file size)
    (hgrown : ∀ x < size, grown x = file x) :
    (FitsBuffer file (lastAddress file) ∧ MovesApart file →
      SectionsPlaced file (elfInitAddresses file grown)) ∧
    (SectionsPlaced file (elfInitAddresses file grown) → FitsBuffer file (lastAddress file)) := by
  refine ⟨fun hcond => elfInitAddresses_placed hwf hgrown hcond.1 hcond.2, fun h => ?_⟩
  have hlast : (elfInitAddresses file grown).1 = lastAddress file := maxAddrLoop_lastAddress hwf
  rw [← hlast]
  exact h.fitsBuffer

def putSection (m : Bytes) (sect type address offset size : Nat) : Bytes :=
  setLe (setLe (setLe (setLe m (sect + 4) 4 type) (sect + 16) 8 address) (sect + 24) 8 offset)
    (sect + 32) 8 size

/-- A file with code at `0x100` and 32 bytes at `0x110` that belong at `address`,
or stay there when it is 0; the section headers are at `0x130`. -/
def smallFile (address : Nat) : Bytes :=
  putSection (putSection (setLe (setLe (setLe (fun _ => 0) 40 8 0x130) 58 2 64) 60 2 3)
    0x170 1 0x100 0x100 0x10) 0x1b0 3 address 0x110 0x20

theorem wellFormedFile_smallFile :
    WellFormedFile (smallFile 0) 0x1f0 ∧ WellFormedFile (smallFile 0x1300) 0x1f0 := by
  constructor
  · constructor
    all_goals decide +kernel
  · constructor
    all_goals decide +kernel

set_option synthInstance.maxSize 1000 in
theorem sectionsPlaced_smallFile :
    (∀ x < 0x1f0, smallFile 0x1300 x = smallFile 0x1300 x) ∧
    SectionsPlaced (smallFile 0x1300) (elfInitAddresses (smallFile 0x1300) (smallFile 0x1300)) := by
  refine ⟨fun _ _ => rfl,
    (sectionsPlaced_of_apart wellFormedFile_smallFile.2 fun _ _ => rfl).1 ⟨?_, ?_⟩⟩
  · unfold FitsBuffer
    decide +kernel
  · constructor
    all_goals decide +kernel

/-- The buffer is cut off before the string table and the section headers. -/
theorem not_sectionsPlaced_smallFile :
    WellFormedFile (smallFile 0) 0x1f0 ∧
    ¬ SectionsPlaced (smallFile 0) (elfInitAddresses (smallFile 0) (smallFile 0)) := by
  refine ⟨wellFormedFile_smallFile.1, fun h => ?_⟩
  have htable := h.fitsBuffer.1
  rw [show (elfInitAddresses (smallFile 0) (smallFile 0)).1 = lastAddress (smallFile 0) from
    maxAddrLoop_lastAddress wellFormedFile_smallFile.1] at htable
  revert htable
  decide +kernel

end UntitledOs.Bin
