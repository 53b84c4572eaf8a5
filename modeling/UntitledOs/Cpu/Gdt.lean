import UntitledOs.Lib.Bytes

/-!
The global descriptor table: `cpu/x86/gdt.c`.  Descriptors of 8 bytes are put one
behind the other into a static array, which starts out as zeros.  In long mode the
CPU reads a task state segment descriptor as 16 bytes.
-/

namespace UntitledOs.Cpu

open UntitledOs.Lib

def gdtMaxSize : Nat := 65536

/-- `sizeof(gdt_desc)` -/
def gdtDescSize : Nat := 8

/-- `sizeof(gdt_tss_desc)` -/
def gdtTssDescSize : Nat := 104

def gdtDescAccess : BitVec 8 := 0x01

def gdtDescExecutable : BitVec 8 := 0x08

def gdtDescPresent : BitVec 8 := 0x80

def gdtGranularityX32 : BitVec 8 := 0x40

/-- The static variables `gdt` and `gdt_last_off`. -/
structure Gdt where
  gdt : Bytes
  gdtLastOff : Nat

def Gdt.initial : Gdt := ⟨fun _ => 0, 0⟩

/-- `(uint32_t)-1` -/
def gdtFailed : Nat := 2 ^ 32 - 1

/-- The stores through `gdte`. -/
def putDesc (m : Bytes) (off : Nat) (base : BitVec 64) (limit : BitVec 16)
    (access granularity : BitVec 8) : Bytes :=
  let m := setLe m (off + 2) 2 (base &&& 0xFFFF).toNat
  let m := setByte m (off + 4) ((base >>> 16 &&& 0xFF).setWidth 8)
  let m := setByte m (off + 7) ((base >>> 24 &&& 0xFF).setWidth 8)
  let m := setLe m off 2 limit.toNat
  let m := setByte m (off + 5) access
  setByte m (off + 6) granularity

def gdtAddDesc (s : Gdt) (base : BitVec 64) (limit : BitVec 16) (access granularity : BitVec 8) :
    Gdt × Nat :=
  if s.gdtLastOff ≥ gdtMaxSize - gdtDescSize - 1 then (s, gdtFailed)
  else
    let last := (s.gdtLastOff + gdtDescSize) % 2 ^ 32
    (⟨putDesc s.gdt s.gdtLastOff base limit access granularity, last⟩, last - gdtDescSize)

/-- `gd` is the address of the task state segment. -/
def gdtAddTssDesc (s : Gdt) (gd : BitVec 64) : Gdt × Nat :=
  gdtAddDesc s gd (BitVec.ofNat 16 gdtTssDescSize)
    (gdtDescPresent ||| gdtDescExecutable ||| gdtDescAccess) gdtGranularityX32

/-! ## What the CPU reads -/

/-- The access byte of a task state segment, available or busy. -/
def IsTss (access : Byte) : Prop := access &&& 0x1D = 0x09

instance (access : Byte) : Decidable (IsTss access) :=
  inferInstanceAs (Decidable (_ = _))

/-- The bytes the CPU reads of a descriptor. -/
def cpuSize (access : Byte) : Nat := if IsTss access then 16 else 8

def cpuAccess (m : Bytes) (off : Nat) : Byte := m (off + 5)

def cpuBase (m : Bytes) (off : Nat) : Nat :=
  getLe m (off + 2) 3 + 2 ^ 24 * (m (off + 7)).toNat +
    if IsTss (cpuAccess m off) then 2 ^ 32 * getLe m (off + 8) 4 else 0

/-! ## Sequences of calls -/

inductive GdtCall
  | desc (base : BitVec 64) (limit : BitVec 16) (access granularity : BitVec 8)
  | tss (gd : BitVec 64)

namespace GdtCall

def base : GdtCall → BitVec 64
  | desc base _ _ _ => base
  | tss gd => gd

def limit : GdtCall → BitVec 16
  | desc _ limit _ _ => limit
  | tss _ => BitVec.ofNat 16 gdtTssDescSize

def access : GdtCall → BitVec 8
  | desc _ _ access _ => access
  | tss _ => gdtDescPresent ||| gdtDescExecutable ||| gdtDescAccess

def granularity : GdtCall → BitVec 8
  | desc _ _ _ granularity => granularity
  | tss _ => gdtGranularityX32

def exec (s : Gdt) : GdtCall → Gdt × Nat
  | desc base limit access granularity => gdtAddDesc s base limit access granularity
  | tss gd => gdtAddTssDesc s gd

/-- The bytes the call stores. -/
def byte (c : GdtCall) : Nat → Byte
  | 0 => BitVec.ofNat 8 c.limit.toNat
  | 1 => BitVec.ofNat 8 (c.limit.toNat / 256)
  | 2 => BitVec.ofNat 8 c.base.toNat
  | 3 => BitVec.ofNat 8 (c.base.toNat / 256)
  | 4 => BitVec.ofNat 8 (c.base.toNat / 256 ^ 2)
  | 5 => c.access
  | 6 => c.granularity
  | _ => BitVec.ofNat 8 (c.base.toNat / 256 ^ 3)

theorem exec_eq (s : Gdt) (c : GdtCall) :
    c.exec s = gdtAddDesc s c.base c.limit c.access c.granularity := by
  cases c <;> rfl

end GdtCall

/-- The table before the call `k` of a sequence of calls. -/
def gdtBefore (cs : List GdtCall) (k : Nat) : Gdt :=
  (cs.take k).foldl (fun s c => (c.exec s).1) .initial

/-- What the call `k` returns. -/
def gdtReturned (cs : List GdtCall) (k : Nat) (c : GdtCall) : Nat := (c.exec (gdtBefore cs k)).2

structure EntriesValid (cs : List GdtCall) : Prop where
  fresh : ∀ k l c d, cs[k]? = some c → cs[l]? = some d → k < l →
    gdtReturned cs k c ≠ gdtFailed → gdtReturned cs l d ≠ gdtReturned cs k c
  decodes : ∀ k c, cs[k]? = some c → gdtReturned cs k c ≠ gdtFailed →
    cpuAccess (gdtBefore cs (k + 1)).gdt (gdtReturned cs k c) = c.access ∧
    cpuBase (gdtBefore cs (k + 1)).gdt (gdtReturned cs k c) = c.base.toNat
  kept : ∀ k l c, cs[k]? = some c → gdtReturned cs k c ≠ gdtFailed → k < l → l < cs.length →
    ∀ j < cpuSize c.access, (gdtBefore cs (l + 1)).gdt (gdtReturned cs k c + j) =
      (gdtBefore cs l).gdt (gdtReturned cs k c + j)
  failed : ∀ k c, cs[k]? = some c → gdtReturned cs k c = gdtFailed →
    gdtBefore cs (k + 1) = gdtBefore cs k

/-- As many descriptors as the table takes. -/
def gdtSlots : Nat := 8191

/-- A call that stores eight zeros. -/
def GdtCall.Blank (c : GdtCall) : Prop :=
  c.base.toNat % 2 ^ 32 = 0 ∧ c.limit = 0 ∧ c.access = 0 ∧ c.granularity = 0

/-- The calls that find a free slot have a base of 32 bits, and only zeros are stored
behind a task state segment. -/
def ShortEntries (cs : List GdtCall) : Prop :=
  ∀ k c, cs[k]? = some c → k < gdtSlots →
    c.base.toNat < 2 ^ 32 ∧
    (IsTss c.access → ∀ d, cs[k + 1]? = some d → k + 1 < gdtSlots → d.Blank)

/-! ## One call -/

section Steps

variable {cs : List GdtCall} {c d : GdtCall} {k l : Nat}

theorem setByte_apply (m : Bytes) (a : Nat) (b : Byte) (i : Nat) :
    setByte m a b i = if i = a then b else m i := rfl

theorem putDesc_slot (m : Bytes) (off : Nat) (c : GdtCall) {j : Nat} (hj : j < 8) :
    putDesc m off c.base c.limit c.access c.granularity (off + j) = c.byte j := by
  have hword : ∀ x : Nat, x &&& 65535 = x % 65536 := fun x => Nat.and_two_pow_sub_one_eq_mod x 16
  have hbyte : ∀ x : Nat, x &&& 255 = x % 256 := fun x => Nat.and_two_pow_sub_one_eq_mod x 8
  interval_cases j <;> simp [putDesc, setByte_apply, setLe, copyTo, GdtCall.byte]
  all_goals
    apply BitVec.eq_of_toNat_eq
    simp [hword, hbyte, Nat.shiftRight_eq_div_pow]
  omega

theorem putDesc_outside (m : Bytes) (off : Nat) (c : GdtCall) {i : Nat} (hi : i < off ∨ off + 8 ≤ i) :
    putDesc m off c.base c.limit c.access c.granularity i = m i := by
  unfold putDesc
  simp only [setByte_apply]
  rw [if_neg (by omega), if_neg (by omega), setLe_of_outside (by omega), setByte_apply,
    if_neg (by omega), setByte_apply, if_neg (by omega), setLe_of_outside (by omega)]

theorem gdtBefore_succ (hc : cs[k]? = some c) :
    gdtBefore cs (k + 1) = (c.exec (gdtBefore cs k)).1 := by
  unfold gdtBefore
  rw [List.take_add_one, hc, List.foldl_append]
  rfl

/-- The table has a free slot for a call exactly if fewer than `gdtSlots` came before. -/
theorem exec_spec (s : Gdt) (c : GdtCall) {n : Nat} (hoff : s.gdtLastOff = 8 * min n gdtSlots) :
    c.exec s =
      if n < gdtSlots then
        (⟨putDesc s.gdt (8 * n) c.base c.limit c.access c.granularity, 8 * (n + 1)⟩, 8 * n)
      else (s, gdtFailed) := by
  rw [GdtCall.exec_eq, gdtAddDesc, hoff]
  unfold gdtSlots gdtMaxSize gdtDescSize
  by_cases hn : n < 8191
  · rw [if_neg (by omega), if_pos hn, show min n 8191 = n by omega,
      show (8 * n + 8) % 2 ^ 32 = 8 * (n + 1) by omega]
    simp only [show 8 * (n + 1) - 8 = 8 * n by omega]
  · rw [if_pos (by omega), if_neg hn]

theorem gdtBefore_lastOff (hk : k ≤ cs.length) :
    (gdtBefore cs k).gdtLastOff = 8 * min k gdtSlots := by
  induction k with
  | zero => rfl
  | succ k ih =>
      have hc : cs[k]? = some cs[k] := List.getElem?_eq_getElem (by omega)
      rw [gdtBefore_succ hc, exec_spec _ _ (ih (by omega))]
      unfold gdtSlots at *
      split
      · simp only
        omega
      · rw [ih (by omega)]
        omega

theorem exec_before (hc : cs[k]? = some c) :
    c.exec (gdtBefore cs k) =
      if k < gdtSlots then
        (⟨putDesc (gdtBefore cs k).gdt (8 * k) c.base c.limit c.access c.granularity,
          8 * (k + 1)⟩, 8 * k)
      else (gdtBefore cs k, gdtFailed) := by
  have hlen : k < cs.length := (List.getElem?_eq_some_iff.mp hc).choose
  exact exec_spec _ _ (gdtBefore_lastOff hlen.le)

theorem gdtReturned_eq (hc : cs[k]? = some c) :
    gdtReturned cs k c = if k < gdtSlots then 8 * k else gdtFailed := by
  unfold gdtReturned
  rw [exec_before hc]
  split <;> rfl

theorem returned_iff (hc : cs[k]? = some c) : gdtReturned cs k c ≠ gdtFailed ↔ k < gdtSlots := by
  rw [gdtReturned_eq hc]
  unfold gdtSlots gdtFailed
  split <;> omega

theorem gdtBefore_full (hc : cs[k]? = some c) (hk : ¬ k < gdtSlots) :
    gdtBefore cs (k + 1) = gdtBefore cs k := by
  rw [gdtBefore_succ hc, exec_before hc, if_neg hk]

theorem gdtBefore_put (hc : cs[k]? = some c) (hk : k < gdtSlots) :
    (gdtBefore cs (k + 1)).gdt =
      putDesc (gdtBefore cs k).gdt (8 * k) c.base c.limit c.access c.granularity := by
  rw [gdtBefore_succ hc, exec_before hc, if_pos hk]

/-! ## The bytes of the table -/

theorem gdtBefore_outside (hc : cs[k]? = some c) {i : Nat} (hi : i < 8 * k ∨ 8 * k + 8 ≤ i) :
    (gdtBefore cs (k + 1)).gdt i = (gdtBefore cs k).gdt i := by
  by_cases hk : k < gdtSlots
  · rw [gdtBefore_put hc hk, putDesc_outside _ _ _ hi]
  · rw [gdtBefore_full hc hk]

theorem gdtBefore_slot (hc : cs[k]? = some c) (hk : k < gdtSlots) {j : Nat} (hj : j < 8) :
    (gdtBefore cs (k + 1)).gdt (8 * k + j) = c.byte j := by
  rw [gdtBefore_put hc hk, putDesc_slot _ _ _ hj]

theorem gdtBefore_behind (hk : k ≤ cs.length) {i : Nat} (hi : 8 * k ≤ i) :
    (gdtBefore cs k).gdt i = 0 := by
  induction k generalizing i with
  | zero => rfl
  | succ k ih =>
      have hc : cs[k]? = some cs[k] := List.getElem?_eq_getElem (by omega)
      rw [gdtBefore_outside hc (by omega)]
      exact ih (by omega) (by omega)

theorem cpuAccess_put (hc : cs[k]? = some c) (hk : k < gdtSlots) :
    cpuAccess (gdtBefore cs (k + 1)).gdt (8 * k) = c.access :=
  gdtBefore_slot hc hk (by omega)

/-- Right after the call the CPU reads the low 32 bits of the base. -/
theorem cpuBase_put (hc : cs[k]? = some c) (hk : k < gdtSlots) :
    cpuBase (gdtBefore cs (k + 1)).gdt (8 * k) = c.base.toNat % 2 ^ 32 := by
  have hlen : k < cs.length := (List.getElem?_eq_some_iff.mp hc).choose
  have hupper : getLe (gdtBefore cs (k + 1)).gdt (8 * k + 8) 4 = 0 :=
    getLe_zero fun i _ => gdtBefore_behind hlen (by omega)
  have hlower : getLe (gdtBefore cs (k + 1)).gdt (8 * k + 2) 3 =
      c.base.toNat % 256 + 256 * (c.base.toNat / 256 % 256 + 256 * (c.base.toNat / 256 ^ 2 % 256)) := by
    simp only [getLe, Nat.add_assoc]
    rw [gdtBefore_slot hc hk (by omega), gdtBefore_slot hc hk (by omega),
      gdtBefore_slot hc hk (by omega)]
    simp [GdtCall.byte]
  rw [cpuBase, hupper, hlower, gdtBefore_slot hc hk (by omega)]
  simp only [GdtCall.byte, BitVec.toNat_ofNat, Nat.mul_zero, ite_self, Nat.add_zero]
  omega

theorem ofNat_eq_zero {x : Nat} : BitVec.ofNat 8 x = 0 ↔ x % 256 = 0 := by
  rw [← BitVec.toNat_inj]
  simp

theorem blank_iff : d.Blank ↔ ∀ j < 8, d.byte j = 0 := by
  have hlimit := d.limit.isLt
  constructor
  · rintro ⟨hbase, hzero, haccess, hgran⟩ j hj
    have hzero' : d.limit.toNat = 0 := by simp [hzero]
    interval_cases j <;> simp only [GdtCall.byte, ofNat_eq_zero, haccess, hgran] <;> omega
  · intro h
    have h0 := ofNat_eq_zero.mp (h 0 (by omega))
    have h1 := ofNat_eq_zero.mp (h 1 (by omega))
    have h2 := ofNat_eq_zero.mp (h 2 (by omega))
    have h3 := ofNat_eq_zero.mp (h 3 (by omega))
    have h4 := ofNat_eq_zero.mp (h 4 (by omega))
    have h7 := ofNat_eq_zero.mp (h 7 (by omega))
    refine ⟨by omega, BitVec.eq_of_toNat_eq ?_, h 5 (by omega), h 6 (by omega)⟩
    show d.limit.toNat = 0
    omega

end Steps

/-- Every entry stays as the CPU has to read it exactly if all are of the short kind. -/
theorem entriesValid_iff (cs : List GdtCall) : EntriesValid cs ↔ ShortEntries cs := by
  constructor
  · intro h k c hc hk
    have hret : gdtReturned cs k c ≠ gdtFailed := (returned_iff hc).mpr hk
    have hbase := (h.decodes k c hc hret).2
    rw [gdtReturned_eq hc, if_pos hk, cpuBase_put hc hk] at hbase
    refine ⟨by omega, fun htss d hd hk' => blank_iff.mpr fun j hj => ?_⟩
    have hlen : k + 1 < cs.length := (List.getElem?_eq_some_iff.mp hd).choose
    have hkept := h.kept k (k + 1) c hc hret (by omega) hlen (8 + j)
      (by rw [cpuSize, if_pos htss]; omega)
    rw [gdtReturned_eq hc, if_pos hk, show 8 * k + (8 + j) = 8 * (k + 1) + j by omega,
      gdtBefore_slot hd hk' hj, gdtBefore_behind hlen.le (by omega)] at hkept
    exact hkept
  · intro h
    refine ⟨fun k l c d hc hd hkl hret => ?_, fun k c hc hret => ?_,
      fun k l c hc hret hkl hl j hj => ?_, fun k c hc hret => ?_⟩
    · have hk := (returned_iff hc).mp hret
      rw [gdtReturned_eq hc, gdtReturned_eq hd, if_pos hk]
      unfold gdtSlots gdtFailed at *
      split <;> omega
    · have hk := (returned_iff hc).mp hret
      rw [gdtReturned_eq hc, if_pos hk, cpuBase_put hc hk]
      exact ⟨cpuAccess_put hc hk, Nat.mod_eq_of_lt (h k c hc hk).1⟩
    · have hk := (returned_iff hc).mp hret
      have hd : cs[l]? = some cs[l] := List.getElem?_eq_getElem hl
      rw [gdtReturned_eq hc, if_pos hk]
      by_cases hin : 8 * l ≤ 8 * k + j
      · -- only the upper half of a task state segment reaches into the next slot
        have htss : IsTss c.access := by
          by_contra hno
          rw [cpuSize, if_neg hno] at hj
          omega
        rw [cpuSize, if_pos htss] at hj
        obtain rfl : l = k + 1 := by omega
        by_cases hl' : k + 1 < gdtSlots
        · have hblank := (h k c hc hk).2 htss _ hd hl'
          rw [show 8 * k + j = 8 * (k + 1) + (j - 8) by omega,
            gdtBefore_slot hd hl' (by omega), gdtBefore_behind hl.le (by omega)]
          exact blank_iff.mp hblank _ (by omega)
        · rw [gdtBefore_full hd hl']
      · exact gdtBefore_outside hd (by omega)
    · have hk : ¬ k < gdtSlots := fun hk => (returned_iff hc).mpr hk hret
      exact gdtBefore_full hc hk

/-- The descriptor of a second CPU's segment is stored over the upper half of the first. -/
theorem entriesValid_twoTss : ¬ EntriesValid [.tss 0x7000, .tss 0x9000] := by
  intro h
  have hkept := h.kept 0 1 (.tss 0x7000) rfl (by decide +kernel) (by decide) (by decide) 8
    (by decide)
  exact absurd hkept (by decide +kernel)

end UntitledOs.Cpu
