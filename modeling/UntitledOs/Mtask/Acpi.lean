import UntitledOs.Lib.Bytes
import UntitledOs.Lib.Fuel
import UntitledOs.Word

/-!
# Processors in the ACPI tables

`mtask/acpi.c`: `detect_cpus` walks the pointers of the RSDT (4 bytes each) or of the
XSDT (8 bytes each) to the MADT, and then its entries, each of which says how long it
is.  `none` is a loop that takes more than `fuel` rounds.
-/

namespace UntitledOs.Mtask

open UntitledOs.Lib

/-- `memcmp(m + a, s, n)`, where `s` are `n` bytes; `char` is signed. -/
def memcmp (m : Bytes) (a : Nat) : List Byte → Int
  | [] => 0
  | c :: s =>
      if (m a).toInt < c.toInt then -1
      else if (m a).toInt > c.toInt then 1
      else memcmp m (a + 1) s

/-- `"APIC"` -/
def apicTag : List Byte := [0x41, 0x50, 0x49, 0x43]

/-- The local variables of `detect_cpus`, and the array `lapic_ids`. -/
structure CpuScan where
  coreNum : Nat
  lapicIds : Nat → Byte
  lapicPtr : Nat
  ioapicPtr : Nat

/-- The `switch` over the type of the entry at `ent`. -/
def madtEntry (m : Bytes) (ent : Nat) (st : CpuScan) : CpuScan :=
  if m ent = 0 then
    if m (ent + 4) &&& 1 ≠ 0 then
      { st with
        lapicIds := Function.update st.lapicIds st.coreNum (m (ent + 3))
        coreNum := (st.coreNum + 1) % 256 }
    else st
  else if m ent = 1 then { st with ioapicPtr := getLe m (ent + 4) 4 }
  else if m ent = 5 then { st with lapicPtr := getLe m (ent + 4) 8 }
  else st

/-- The inner loop. -/
def madtLoop (m : Bytes) : Nat → Nat → Nat → CpuScan → Option CpuScan
  | 0, _, _, _ => none
  | fuel + 1, ent, entEnd, st =>
      if ent < entEnd then
        madtLoop m fuel (u64 (ent + (m (ent + 1)).toNat)) entEnd (madtEntry m ent st)
      else some st

/-- `rsdt[0] == 'X' ? 8 : 4` -/
def rootStride (m : Bytes) (rsdt : Nat) : Nat := if m rsdt = 0x58 then 8 else 4

/-- The outer loop, from the pointer at `entEnd` on; `ln` is the length of the table. -/
def rootLoop (m : Bytes) (rsdt ln : Nat) : Nat → Nat → CpuScan → Option CpuScan
  | 0, _, _ => none
  | fuel + 1, entEnd, st =>
      if entEnd < u64 (rsdt + ln) then
        let ent := getLe m entEnd (rootStride m rsdt)
        if memcmp m ent apicTag = 0 then
          let st := { st with lapicPtr := getLe m (ent + 0x24) 4 }
          madtLoop m fuel (u64 (ent + 44)) (u64 (ent + getLe m (ent + 4) 4)) st
        else rootLoop m rsdt ln fuel (u64 (entEnd + rootStride m rsdt)) st
      else some st

/-- The number of processors, the array `lapic_ids` and `bsp_lapic_id`; `ebx` is what
`cpuid` gives. -/
def detectCpus (fuel : Nat) (m : Bytes) (rsdt : Nat) (lapicIds : Nat → Byte) (ebx : BitVec 32) :
    Option (Nat × (Nat → Byte) × Byte) :=
  (rootLoop m rsdt (getLe m (rsdt + 4) 4) fuel (u64 (rsdt + 36)) ⟨0, lapicIds, 0, 0⟩).map
    fun st => (st.coreNum, st.lapicIds, (ebx >>> 24).setWidth 8)

/-! ## Tables in memory -/

/-- The bytes `s` at the address `a`. -/
def BytesAt (m : Bytes) (a : Nat) (s : List Byte) : Prop := ∀ i < s.length, m (a + i) = s.getD i 0

/-- An entry of a MADT: its type, its length, and the rest of it. -/
structure MadtEntry where
  bytes : List Byte
  two_le : 2 ≤ bytes.length
  length_eq : (bytes.getD 1 0).toNat = bytes.length
  lapic : bytes.getD 0 0 = 0 → bytes.length = 8
  ioapic : bytes.getD 0 0 = 1 ∨ bytes.getD 0 0 = 5 → bytes.length = 12

namespace MadtEntry

def kind (e : MadtEntry) : Byte := e.bytes.getD 0 0

/-- A processor local APIC with the enabled flag. -/
def enabled (e : MadtEntry) : Bool := e.kind = 0 ∧ e.bytes.getD 4 0 &&& 1 ≠ 0

def apicId (e : MadtEntry) : Byte := e.bytes.getD 3 0

end MadtEntry

def enabledIds (es : List MadtEntry) : List Byte :=
  (es.filter MadtEntry.enabled).map MadtEntry.apicId

def entriesLength (es : List MadtEntry) : Nat := (es.map fun e => e.bytes.length).sum

/-- The entries lie one behind the other from `a` on. -/
def Tiles (m : Bytes) : Nat → List MadtEntry → Prop
  | _, [] => True
  | a, e :: es => BytesAt m a e.bytes ∧ Tiles m (a + e.bytes.length) es

/-- The address behind a table is an address, too. -/
structure MadtAt (m : Bytes) (a : Nat) (es : List MadtEntry) : Prop where
  signature : BytesAt m a apicTag
  length : getLe m (a + 4) 4 = 44 + entriesLength es
  tiles : Tiles m (a + 44) es
  fits : a + 44 + entriesLength es < 2 ^ 64

/-- `"RSDT"` or `"XSDT"` -/
def rootTag (x : Bool) : List Byte := [if x then 0x58 else 0x52, 0x53, 0x44, 0x54]

/-- The stride is 8 for the XSDT and 4 for the RSDT. -/
structure RootAt (m : Bytes) (rsdt : Nat) (x : Bool) (ptrs : List Nat) : Prop where
  signature : BytesAt m rsdt (rootTag x)
  length : getLe m (rsdt + 4) 4 = 36 + (if x then 8 else 4) * ptrs.length
  entries : ∀ i < ptrs.length,
    getLe m (rsdt + 36 + (if x then 8 else 4) * i) (if x then 8 else 4) = ptrs.getD i 0
  fits : rsdt + 36 + (if x then 8 else 4) * ptrs.length < 2 ^ 64

/-! ## The entries of the MADT -/

section Scan

variable {m : Bytes} {a ent rsdt : Nat} {e : MadtEntry} {es : List MadtEntry} {st : CpuScan}
  {x : Bool} {ptrs : List Nat} {s : List Byte}

theorem memcmp_eq_zero : memcmp m a s = 0 ↔ BytesAt m a s := by
  induction s generalizing a with
  | nil => simp [memcmp, BytesAt]
  | cons c s ih =>
      have hcons : BytesAt m a (c :: s) ↔ m a = c ∧ BytesAt m (a + 1) s := by
        constructor
        · intro h
          refine ⟨by simpa using h 0 (by simp), fun i hi => ?_⟩
          have hi' := h (i + 1) (by simpa using hi)
          rwa [show a + (i + 1) = a + 1 + i by omega, List.getD_cons_succ] at hi'
        · rintro ⟨hc, hs⟩ i hi
          cases i with
          | zero => simpa using hc
          | succ i =>
              rw [show a + (i + 1) = a + 1 + i by omega, List.getD_cons_succ]
              exact hs i (by simpa using hi)
      rw [hcons, memcmp, ← ih, ← BitVec.toInt_inj]
      split
      · simp
        omega
      · split
        · simp
          omega
        · have heq : (m a).toInt = c.toInt := by omega
          simp [heq]

theorem madtEntry_ids (st : CpuScan) (h : BytesAt m ent e.bytes) :
    (madtEntry m ent st).coreNum =
      (if e.enabled then (st.coreNum + 1) % 256 else st.coreNum) ∧
    (madtEntry m ent st).lapicIds =
      (if e.enabled then Function.update st.lapicIds st.coreNum e.apicId else st.lapicIds) := by
  have hkind : m ent = e.kind := by
    have h0 := h 0 (by have := e.two_le; omega)
    simpa [MadtEntry.kind] using h0
  have henabled : e.enabled = true ↔ e.kind = 0 ∧ e.bytes.getD 4 0 &&& 1 ≠ 0 := by
    simp only [MadtEntry.enabled, decide_eq_true_eq]
  unfold madtEntry
  rw [hkind]
  by_cases hen : e.enabled = true
  · obtain ⟨h0, hflag⟩ := henabled.mp hen
    have hlen := e.lapic h0
    rw [if_pos h0, h 4 (by omega), if_pos hflag, h 3 (by omega), if_pos hen, if_pos hen]
    exact ⟨rfl, rfl⟩
  · rw [if_neg hen, if_neg hen]
    by_cases h0 : e.kind = 0
    · have hlen := e.lapic h0
      rw [if_pos h0, h 4 (by omega), if_neg fun hflag => hen (henabled.mpr ⟨h0, hflag⟩)]
      exact ⟨rfl, rfl⟩
    · rw [if_neg h0]
      split
      · exact ⟨rfl, rfl⟩
      · split <;> exact ⟨rfl, rfl⟩

/-- The inner loop from `a` on over the entries `es` adds their identifiers. -/
theorem madtLoop_tiles (st : CpuScan) (ht : Tiles m a es) (hfits : a + entriesLength es < 2 ^ 64)
    (hcount : st.coreNum + (enabledIds es).length ≤ 255) :
    ∃ st', (∀ fuel > es.length, madtLoop m fuel a (a + entriesLength es) st = some st') ∧
      st'.coreNum = st.coreNum + (enabledIds es).length ∧
      (∀ j < (enabledIds es).length,
        st'.lapicIds (st.coreNum + j) = (enabledIds es).getD j 0) ∧
      ∀ i, i < st.coreNum ∨ st.coreNum + (enabledIds es).length ≤ i →
        st'.lapicIds i = st.lapicIds i := by
  induction es generalizing a st with
  | nil =>
      refine ⟨st, fun fuel hfuel => ?_, by simp [enabledIds], by simp [enabledIds], fun _ _ => rfl⟩
      obtain ⟨fuel, rfl⟩ : ∃ k, fuel = k + 1 := ⟨fuel - 1, by omega⟩
      simp [madtLoop, entriesLength]
  | cons e es ih =>
      obtain ⟨hbytes, ht⟩ := ht
      have htwo := e.two_le
      have hlen : entriesLength (e :: es) = e.bytes.length + entriesLength es := by
        simp [entriesLength]
      have hnext : u64 (a + (m (a + 1)).toNat) = a + e.bytes.length := by
        rw [hbytes 1 (by omega), e.length_eq]
        exact u64_of_lt (by omega)
      obtain ⟨hnum, hids⟩ := madtEntry_ids st hbytes
      have hstep : ∀ st', (∀ fuel > es.length, madtLoop m fuel (a + e.bytes.length)
          (a + e.bytes.length + entriesLength es) (madtEntry m a st) = some st') →
          ∀ fuel > (e :: es).length,
            madtLoop m fuel a (a + entriesLength (e :: es)) st = some st' := by
        intro st' hrun fuel hfuel
        obtain ⟨fuel, rfl⟩ : ∃ k, fuel = k + 1 := ⟨fuel - 1, by omega⟩
        simp only [List.length_cons] at hfuel
        rw [madtLoop, if_pos (by omega), hnext, hlen, ← Nat.add_assoc]
        exact hrun fuel (by omega)
      cases hen : e.enabled with
      | false =>
          have hrest : enabledIds (e :: es) = enabledIds es := by simp [enabledIds, hen]
          simp only [hen, Bool.false_eq_true, if_false] at hnum hids
          rw [hrest] at hcount ⊢
          obtain ⟨st', hrun, hcore, hnew, hold⟩ :=
            ih (madtEntry m a st) ht (by omega) (by omega)
          rw [hnum] at hcore hnew hold
          rw [hids] at hold
          exact ⟨st', hstep st' hrun, hcore, hnew, hold⟩
      | true =>
          have hrest : enabledIds (e :: es) = e.apicId :: enabledIds es := by
            simp [enabledIds, hen]
          simp only [hen, if_true] at hnum hids
          simp only [hrest, List.length_cons] at hcount ⊢
          rw [Nat.mod_eq_of_lt (by omega)] at hnum
          obtain ⟨st', hrun, hcore, hnew, hold⟩ :=
            ih (madtEntry m a st) ht (by omega) (by omega)
          rw [hnum] at hcore hnew hold
          rw [hids] at hold
          refine ⟨st', hstep st' hrun, by omega, fun j hj => ?_, fun i hi => ?_⟩
          · cases j with
            | zero =>
                rw [hold _ (by omega)]
                simp
            | succ j =>
                rw [show st.coreNum + (j + 1) = st.coreNum + 1 + j by omega, hnew j (by omega)]
                simp
          · rw [hold i (by omega), Function.update_of_ne (by omega)]

/-! ## The pointers of the root table -/

theorem rootStride_eq (h : BytesAt m rsdt (rootTag x)) :
    rootStride m rsdt = if x then 8 else 4 := by
  have h0 := h 0 (by simp [rootTag])
  rw [Nat.add_zero] at h0
  rw [rootStride, h0]
  cases x <;> rfl

theorem rootLoop_madt (st : CpuScan) {pre post : List Nat} {madt k : Nat}
    (hroot : RootAt m rsdt x (pre ++ madt :: post))
    (hpre : ∀ p ∈ pre, ¬ BytesAt m p apicTag) (hmadt : MadtAt m madt es) (hk : k ≤ pre.length)
    {fuel : Nat} (hfuel : pre.length - k + es.length + 1 < fuel) :
    ∃ fuel' > es.length,
      rootLoop m rsdt (getLe m (rsdt + 4) 4) fuel (rsdt + 36 + (if x then 8 else 4) * k) st =
        madtLoop m fuel' (madt + 44) (madt + 44 + entriesLength es)
          { st with lapicPtr := getLe m (madt + 0x24) 4 } := by
  have hlen := hroot.length
  have hfits := hroot.fits
  have hentries := hroot.entries
  rw [List.length_append, List.length_cons] at hlen hfits hentries
  have hend : u64 (rsdt + getLe m (rsdt + 4) 4) =
      rsdt + 36 + (if x then 8 else 4) * (pre.length + (post.length + 1)) := by
    rw [hlen, ← Nat.add_assoc]
    exact u64_of_lt hfits
  obtain ⟨n, hn⟩ : ∃ n, n = pre.length - k := ⟨_, rfl⟩
  induction n generalizing k fuel with
  | zero =>
      obtain ⟨fuel, rfl⟩ : ∃ k, fuel = k + 1 := ⟨fuel - 1, by omega⟩
      obtain rfl : k = pre.length := by omega
      refine ⟨fuel, by omega, ?_⟩
      have hptr := hentries pre.length (by omega)
      have hmfits := hmadt.fits
      have hmend : u64 (madt + getLe m (madt + 4) 4) = madt + 44 + entriesLength es := by
        rw [hmadt.length, ← Nat.add_assoc]
        exact u64_of_lt hmfits
      have hbegin : u64 (madt + 44) = madt + 44 := u64_of_lt (by omega)
      have hmadt' : (pre ++ madt :: post).getD pre.length 0 = madt := by simp
      rw [hmadt'] at hptr
      rw [rootLoop, hend, rootStride_eq hroot.signature, hptr, if_pos (by split <;> omega),
        if_pos (memcmp_eq_zero.mpr hmadt.signature), hmend, hbegin]
  | succ n ih =>
      obtain ⟨fuel, rfl⟩ : ∃ k, fuel = k + 1 := ⟨fuel - 1, by omega⟩
      have hptr := hentries k (by omega)
      have hmem : (pre ++ madt :: post).getD k 0 ∈ pre := by
        rw [List.getD_eq_getElem?_getD, List.getElem?_append_left (by omega),
          List.getElem?_eq_getElem (by omega), Option.getD_some]
        exact List.getElem_mem _
      have hnext : u64 (rsdt + 36 + (if x then 8 else 4) * k + (if x then 8 else 4)) =
          rsdt + 36 + (if x then 8 else 4) * (k + 1) := by
        rw [Nat.mul_add, Nat.mul_one, ← Nat.add_assoc]
        apply u64_of_lt
        cases x <;> simp at hfits ⊢ <;> omega
      obtain ⟨fuel', hlt, hrun⟩ := @ih (k + 1) (by omega) fuel (by omega) (by omega)
      refine ⟨fuel', hlt, ?_⟩
      rw [rootLoop, hend, rootStride_eq hroot.signature, hptr, if_pos (by split <;> omega),
        if_neg (mt memcmp_eq_zero.mp (hpre _ hmem)), hnext, hrun]

end Scan

/-- The processors found are the enabled local APICs of the first MADT, in its order. -/
theorem detectCpus_madt {m : Bytes} {rsdt madt : Nat} {x : Bool} {pre post : List Nat}
    {es : List MadtEntry} (hroot : RootAt m rsdt x (pre ++ madt :: post))
    (hpre : ∀ p ∈ pre, ¬ BytesAt m p apicTag) (hmadt : MadtAt m madt es)
    (hcount : (enabledIds es).length ≤ 255) (lapicIds : Nat → Byte) (ebx : BitVec 32) :
    ∃ ids, Returns (fun fuel => detectCpus fuel m rsdt lapicIds ebx)
        ((enabledIds es).length, ids, (ebx >>> 24).setWidth 8) ∧
      (∀ j < (enabledIds es).length, ids j = (enabledIds es).getD j 0) ∧
      (∀ i ≥ (enabledIds es).length, ids i = lapicIds i) := by
  obtain ⟨st', hrun, hcore, hnew, hold⟩ := madtLoop_tiles
    ⟨0, lapicIds, getLe m (madt + 0x24) 4, 0⟩ hmadt.tiles hmadt.fits (by simpa using hcount)
  simp only [Nat.zero_add] at hcore hnew hold
  have hfits := hroot.fits
  have hbegin : u64 (rsdt + 36) = rsdt + 36 + (if x then 8 else 4) * 0 := u64_of_lt (by omega)
  refine ⟨st'.lapicIds, ⟨pre.length + es.length + 2, fun fuel hfuel => ?_⟩,
    hnew, fun i hi => hold i (.inr hi)⟩
  obtain ⟨fuel', hlt, hroot'⟩ := rootLoop_madt ⟨0, lapicIds, 0, 0⟩ hroot hpre hmadt
    (Nat.zero_le _) (show pre.length - 0 + es.length + 1 < fuel by omega)
  simp only
  rw [detectCpus, hbegin, hroot', hrun fuel' hlt, Option.map_some, hcore]

/-- An RSDT at address 0 and the MADT behind it. -/
def twoEntryTables : Bytes := fun i =>
  ([0x52, 0x53, 0x44, 0x54, 40, 0, 0, 0] ++ List.replicate 28 0 ++ [40, 0, 0, 0] ++
    apicTag ++ [60, 0, 0, 0] ++ List.replicate 36 0 ++
    [0, 8, 0, 7, 1, 0, 0, 0] ++ [0, 8, 1, 9, 0, 0, 0, 0] : List Byte).getD i 0

/-- The entries of a processor that is enabled and of one that is not. -/
def twoEntries : List MadtEntry :=
  [⟨[0, 8, 0, 7, 1, 0, 0, 0], by decide, by decide, by decide, by decide⟩,
   ⟨[0, 8, 1, 9, 0, 0, 0, 0], by decide, by decide, by decide, by decide⟩]

theorem twoEntries_root : RootAt twoEntryTables 0 false [40] where
  signature := by unfold BytesAt; decide +kernel
  length := by decide +kernel
  entries := by decide +kernel
  fits := by decide

theorem twoEntries_madt : MadtAt twoEntryTables 40 twoEntries where
  signature := by unfold BytesAt; decide +kernel
  length := by decide +kernel
  tiles := ⟨by unfold BytesAt; decide +kernel, by unfold BytesAt; decide +kernel, trivial⟩
  fits := by decide

theorem detectCpus_madt_twoEntries :
    ∃ ids, Returns (fun fuel => detectCpus fuel twoEntryTables 0 (fun _ => 0) 0)
        ((enabledIds twoEntries).length, ids, ((0 : BitVec 32) >>> 24).setWidth 8) ∧
      (∀ j < (enabledIds twoEntries).length, ids j = (enabledIds twoEntries).getD j 0) ∧
      (∀ i ≥ (enabledIds twoEntries).length, ids i = 0) :=
  detectCpus_madt (show RootAt twoEntryTables 0 false ([] ++ 40 :: []) from twoEntries_root)
    (by simp) twoEntries_madt (by decide) _ _

end UntitledOs.Mtask
