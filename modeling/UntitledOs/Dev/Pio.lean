import UntitledOs.Lib.Bytes
import UntitledOs.Lib.Fuel

/-!
Commands to ATA drives over I/O ports: `dev/pio.c` and what it uses of `dev/ata.c`.

A port that is written byte by byte keeps the last byte and the one before it, as
the registers of a drive do.  What a read from a port gives is up to the devices:
`answer k port` is the result of the read number `k`.
-/

namespace UntitledOs.Dev

open UntitledOs.Lib

/-- `ATA_REG_*`; a read of the command register gives the status. -/
inductive AtaReg
  | data | err | seccount0 | lba0 | lba1 | lba2 | hddevsel | cmd
  deriving DecidableEq, Repr

def AtaReg.offset : AtaReg → Nat
  | data => 0
  | err => 1
  | seccount0 => 2
  | lba0 => 3
  | lba1 => 4
  | lba2 => 5
  | hddevsel => 6
  | cmd => 7

/-- `ATA_SECTOR_SIZE` -/
def ataSectorSize : Nat := 512

/-- `ATA_MODE_LBA28` -/
def ataModeLba28 : BitVec 8 := 0x20

/-- `ATA_MODE_LBA48` -/
def ataModeLba48 : BitVec 8 := 0x40

structure AtaDrive where
  base : BitVec 32
  mode : BitVec 8
  isSlave : BitVec 8

/-- The port goes into `dx`. -/
def AtaDrive.port (d : AtaDrive) (r : AtaReg) : Nat := (d.base.toNat + r.offset) % 2 ^ 16

/-- The ports, and the static variables of `ata_select_drive`. -/
structure Ata where
  /-- the byte before the last one, and the last byte, written to a port -/
  reg : Nat → Byte × Byte
  /-- the 16-bit words written to ports -/
  words : List (Nat × BitVec 16)
  reads : Nat
  lastSelDrive : Option Nat
  lastSelMode : BitVec 32

/-- Before the first selection, over whatever the registers hold. -/
def Ata.initial (reg : Nat → Byte × Byte) : Ata := ⟨reg, [], 0, none, -1⟩

section Code

variable (answer : Nat → Nat → BitVec 16)

def cpuOut8 (s : Ata) (port : Nat) (val : Byte) : Ata :=
  { s with reg := Function.update s.reg port ((s.reg port).2, val) }

def cpuOut16 (s : Ata) (port : Nat) (val : BitVec 16) : Ata :=
  { s with words := s.words ++ [(port, val)] }

def cpuIn16 (s : Ata) (port : Nat) : Ata × BitVec 16 :=
  ({ s with reads := s.reads + 1 }, answer s.reads port)

def cpuIn8 (s : Ata) (port : Nat) : Ata × Byte :=
  ((cpuIn16 answer s port).1, (cpuIn16 answer s port).2.setWidth 8)

def ataWait (s : Ata) (d : AtaDrive) : Ata :=
  (List.range 4).foldl (fun s _ => (cpuIn8 answer s (d.port .cmd)).1) s

/-- The loop of `ata_poll`, for as long as `ATA_STATUS_BSY` is set. -/
def ataBusy : Nat → Ata → AtaDrive → Option (Ata × Byte)
  | 0, _, _ => none
  | fuel + 1, s, d =>
      let (s, status) := cpuIn8 answer s (d.port .cmd)
      if status &&& 0x80 ≠ 0 then ataBusy fuel s d else some (s, status)

def ataPoll (fuel : Nat) (s : Ata) (d : AtaDrive) : Option (Ata × Int) :=
  (ataBusy answer fuel (ataWait answer s d) d).map fun (s, status) =>
    if status &&& 0x01 ≠ 0 ∨ status &&& 0x20 ≠ 0 then
      let (s, err) := cpuIn8 answer (ataWait answer s d) (d.port .err)
      (s, err.toNat)
    else if status &&& 0x08 = 0 then (s, -1)
    else (s, 0)

/-- What `ata_select_drive` writes to the drive/head register. -/
def selectByte (d : AtaDrive) (mode : BitVec 32) : Byte :=
  ((if mode &&& 0x40 ≠ 0 then 0xE0 else 0xA0) ||| d.isSlave.setWidth 32 <<< 4 |||
    (mode &&& 0xF)).setWidth 8

/-- `drive` is the address of the structure `drives drive`. -/
def ataSelectDrive (drives : Nat → AtaDrive) (s : Ata) (drive : Nat) (mode : BitVec 32) : Ata :=
  let d := drives drive
  if some drive ≠ s.lastSelDrive ∨ mode ≠ s.lastSelMode then
    let s := cpuOut8 s (d.port .hddevsel) (selectByte d mode)
    let s := (List.range 5).foldl (fun s _ => ataWait answer s d) s
    { s with lastSelDrive := some drive, lastSelMode := mode }
  else s

/-- `x >> (8 * k) & 0xFF` -/
def byteOf (x : BitVec 64) (k : Nat) : Byte := (x >>> (8 * k) &&& 0xFF).setWidth 8

/-- The high bytes of the sector count and of the address. -/
def sendHigh (s : Ata) (d : AtaDrive) (lba count : BitVec 64) : Ata :=
  let s := cpuOut8 s (d.port .seccount0) (byteOf count 1)
  let s := cpuOut8 s (d.port .lba0) (byteOf lba 3)
  let s := cpuOut8 s (d.port .lba1) (byteOf lba 4)
  cpuOut8 s (d.port .lba2) (byteOf lba 5)

/-- The low bytes of the sector count and of the address. -/
def sendLow (s : Ata) (d : AtaDrive) (lba count : BitVec 64) : Ata :=
  let s := cpuOut8 s (d.port .seccount0) (byteOf count 0)
  let s := cpuOut8 s (d.port .lba0) (byteOf lba 0)
  let s := cpuOut8 s (d.port .lba1) (byteOf lba 1)
  cpuOut8 s (d.port .lba2) (byteOf lba 2)

/-- `pio_read` until it writes the command. -/
def pioReadParams (drives : Nat → AtaDrive) (s : Ata) (drive : Nat) (lba count : BitVec 64) : Ata :=
  let d := drives drive
  let s := ataSelectDrive answer drives s drive (d.mode.setWidth 32)
  let s := cpuOut8 s (d.port .err) 0
  let s := if d.mode = ataModeLba48 then sendHigh s d lba count else s
  ataWait answer (sendLow s d lba count) d

/-- The inner loop of `pio_read`: `n` words. -/
def readWords (s : Ata) (d : AtaDrive) : Nat → Ata × List (BitVec 16)
  | 0 => (s, [])
  | n + 1 =>
      let (s, ws) := readWords s d n
      let (s, w) := cpuIn16 answer s (d.port .data)
      (s, ws ++ [w])

/-- The outer loop of `pio_read`, with the words it puts into the buffer. -/
def readSectors (fuel : Nat) (d : AtaDrive) (readSize : Nat) :
    Nat → Ata → Option (Ata × Nat × List (BitVec 16))
  | 0, s => some (s, readSize, [])
  | count + 1, s =>
      (ataPoll answer fuel s d).bind fun (s, err) =>
        if err ≠ 0 then some (s, readSize - count, [])
        else
          let (s, ws) := readWords answer s d (ataSectorSize / 2)
          (readSectors fuel d readSize count s).map fun (s, n, rest) => (s, n, ws ++ rest)

/-- The words are the ones put into `buf`. -/
def pioRead (fuel : Nat) (drives : Nat → AtaDrive) (s : Ata) (drive : Nat) (lba count : BitVec 64) :
    Option (Ata × Nat × List (BitVec 16)) :=
  let d := drives drive
  let s := pioReadParams answer drives s drive lba count
  let s := cpuOut8 s (d.port .cmd) (if d.mode = ataModeLba48 then 0x24 else 0x20)
  readSectors answer fuel d count.toNat count.toNat (ataWait answer s d)

/-- `pio_write` until it writes the command: in every mode the high bytes are sent. -/
def pioWriteParams (drives : Nat → AtaDrive) (s : Ata) (drive : Nat) (lba count : BitVec 64) : Ata :=
  let d := drives drive
  let s := ataSelectDrive answer drives s drive (d.mode.setWidth 32)
  let s := cpuOut8 s (d.port .err) 0
  let s := sendLow (sendHigh s d lba count) d lba count
  ataWait answer s d

/-- The inner loop of `pio_write`: the words of one sector. -/
def writeWords (s : Ata) (d : AtaDrive) (buf : Nat → BitVec 16) (n : Nat) : Ata :=
  (List.range n).foldl (fun s i => cpuOut16 s (d.port .data) (buf i)) s

/-- The outer loop of `pio_write`; `Sum.inl` is the `return` in it. -/
def writeSectors (fuel : Nat) (d : AtaDrive) (size : Nat) :
    Nat → Ata → (Nat → BitVec 16) → Option (Ata × (Nat ⊕ Unit))
  | 0, s, _ => some (s, .inr ())
  | count + 1, s, buf =>
      (ataPoll answer fuel s d).bind fun (s, err) =>
        if err ≠ 0 then some (s, .inl (size - count))
        else
          let s := writeWords s d buf (ataSectorSize / 2)
          writeSectors fuel d size count s fun i => buf (i + ataSectorSize / 2)

def pioWrite (fuel : Nat) (drives : Nat → AtaDrive) (s : Ata) (drive : Nat) (lba count : BitVec 64)
    (buf : Nat → BitVec 16) : Option (Ata × Nat) :=
  let d := drives drive
  let s := pioWriteParams answer drives s drive lba count
  let s := cpuOut8 s (d.port .cmd) (if d.mode = ataModeLba48 then 0x34 else 0x30)
  (writeSectors answer fuel d count.toNat count.toNat s buf).bind fun
    | (s, .inl n) => some (s, n)
    | (s, .inr ()) =>
        (ataPoll answer fuel s d).bind fun (s, err) =>
          if err ≠ 0 then some (s, 0)
          else
            let s := cpuOut8 s (d.port .cmd) 0xE7
            (ataPoll answer fuel s d).map fun (s, err) =>
              (s, if err ≠ 0 then 0 else count.toNat)

end Code

/-! ## Commands and what the registers denote -/

/-- A call of `pio_read`, or of `pio_write` with what the buffer holds. -/
inductive PioOp
  | read
  | write (buf : Nat → BitVec 16)

structure PioCall where
  op : PioOp
  drive : Nat
  lba : BitVec 64
  count : BitVec 64

/-- The state in which the call writes its command. -/
def PioCall.params (answer : Nat → Nat → BitVec 16) (drives : Nat → AtaDrive) (s : Ata)
    (c : PioCall) : Ata :=
  match c.op with
  | .read => pioReadParams answer drives s c.drive c.lba c.count
  | .write _ => pioWriteParams answer drives s c.drive c.lba c.count

def PioCall.exec (answer : Nat → Nat → BitVec 16) (fuel : Nat) (drives : Nat → AtaDrive) (s : Ata)
    (c : PioCall) : Option Ata :=
  match c.op with
  | .read => (pioRead answer fuel drives s c.drive c.lba c.count).map Prod.fst
  | .write buf => (pioWrite answer fuel drives s c.drive c.lba c.count buf).map Prod.fst

/-- Calls that return, one after the other. -/
inductive PioRun (answer : Nat → Nat → BitVec 16) (drives : Nat → AtaDrive)
    (reg : Nat → Byte × Byte) : List PioCall → Ata → Prop
  | nil : PioRun answer drives reg [] (.initial reg)
  | step {cs : List PioCall} {s s' : Ata} {c : PioCall} {fuel : Nat}
      (run : PioRun answer drives reg cs s) (exec : c.exec answer fuel drives s = some s') :
      PioRun answer drives reg (cs ++ [c]) s'

/-- The last byte written to a register of the drive. -/
def Ata.current (s : Ata) (d : AtaDrive) (r : AtaReg) : Nat := (s.reg (d.port r)).2.toNat

/-- The byte before the last one. -/
def Ata.previous (s : Ata) (d : AtaDrive) (r : AtaReg) : Nat := (s.reg (d.port r)).1.toNat

/-- The sector count as a drive in this mode reads it. -/
def Ata.denotedCount (s : Ata) (d : AtaDrive) : Nat :=
  if d.mode = ataModeLba48 then s.current d .seccount0 + 2 ^ 8 * s.previous d .seccount0
  else s.current d .seccount0

/-- The address as a drive in this mode reads it. -/
def Ata.denotedLba (s : Ata) (d : AtaDrive) : Nat :=
  s.current d .lba0 + 2 ^ 8 * s.current d .lba1 + 2 ^ 16 * s.current d .lba2 +
    if d.mode = ataModeLba48 then
      2 ^ 24 * s.previous d .lba0 + 2 ^ 32 * s.previous d .lba1 + 2 ^ 40 * s.previous d .lba2
    else 2 ^ 24 * (s.current d .hddevsel % 16)

/-- The mode takes this address and this count. -/
def PioCall.Representable (c : PioCall) (d : AtaDrive) : Prop :=
  d.mode = ataModeLba48 ∧ c.lba.toNat < 2 ^ 48 ∧ c.count.toNat < 2 ^ 16 ∨
    d.mode = ataModeLba28 ∧ c.lba.toNat < 2 ^ 28 ∧ c.count.toNat < 2 ^ 8

/-! ## The registers before a command -/

section Registers

variable {answer : Nat → Nat → BitVec 16} {drives : Nat → AtaDrive} {d : AtaDrive} {s s' : Ata}
  {r : AtaReg} {lba count : BitVec 64} {drive : Nat}

@[simp] theorem port_inj (r r' : AtaReg) : d.port r = d.port r' ↔ r = r' := by
  refine ⟨fun h => ?_, fun h => by rw [h]⟩
  unfold AtaDrive.port at h
  cases r <;> cases r' <;> simp only [AtaReg.offset] at h <;> first | rfl | omega

theorem cpuOut8_reg (r r' : AtaReg) (val : Byte) :
    (cpuOut8 s (d.port r) val).reg (d.port r') =
      if r' = r then ((s.reg (d.port r)).2, val) else s.reg (d.port r') := by
  simp [cpuOut8, Function.update_apply]

@[simp] theorem ataWait_current (d' : AtaDrive) :
    (ataWait answer s d).current d' r = s.current d' r := rfl

@[simp] theorem ataWait_previous (d' : AtaDrive) :
    (ataWait answer s d).previous d' r = s.previous d' r := rfl

theorem byteOf_toNat (x : BitVec 64) (k : Nat) : (byteOf x k).toNat = x.toNat / 256 ^ k % 256 := by
  have hbyte : ∀ y : Nat, y &&& 255 = y % 256 := fun y => Nat.and_two_pow_sub_one_eq_mod y 8
  simp [byteOf, hbyte, Nat.shiftRight_eq_div_pow, pow_mul]

/-- The four registers of the sector count and the address. -/
def AtaReg.IsParam (r : AtaReg) : Prop := r = .seccount0 ∨ r = .lba0 ∨ r = .lba1 ∨ r = .lba2

theorem sendLow_current :
    (sendLow s d lba count).current d .seccount0 = count.toNat % 256 ∧
    (sendLow s d lba count).current d .lba0 = lba.toNat % 256 ∧
    (sendLow s d lba count).current d .lba1 = lba.toNat / 256 % 256 ∧
    (sendLow s d lba count).current d .lba2 = lba.toNat / 256 ^ 2 % 256 := by
  simp [sendLow, Ata.current, cpuOut8_reg, byteOf_toNat]

theorem sendLow_previous (hr : r.IsParam) :
    (sendLow s d lba count).previous d r = s.current d r := by
  rcases hr with rfl | rfl | rfl | rfl <;>
    simp [sendLow, Ata.previous, Ata.current, cpuOut8_reg]

theorem sendHigh_current :
    (sendHigh s d lba count).current d .seccount0 = count.toNat / 256 % 256 ∧
    (sendHigh s d lba count).current d .lba0 = lba.toNat / 256 ^ 3 % 256 ∧
    (sendHigh s d lba count).current d .lba1 = lba.toNat / 256 ^ 4 % 256 ∧
    (sendHigh s d lba count).current d .lba2 = lba.toNat / 256 ^ 5 % 256 := by
  simp [sendHigh, Ata.current, cpuOut8_reg, byteOf_toNat]

/-- `s'` has the same selection as `s`, in the cache and in the drive's register. -/
structure Kept (d : AtaDrive) (s s' : Ata) : Prop where
  sel : s'.lastSelDrive = s.lastSelDrive
  mode : s'.lastSelMode = s.lastSelMode
  reg : s'.reg (d.port .hddevsel) = s.reg (d.port .hddevsel)

theorem Kept.refl : Kept d s s := ⟨rfl, rfl, rfl⟩

theorem Kept.trans {s'' : Ata} (h : Kept d s s') (h' : Kept d s' s'') : Kept d s s'' :=
  ⟨h'.sel.trans h.sel, h'.mode.trans h.mode, h'.reg.trans h.reg⟩

theorem Kept.out8 (hr : r ≠ .hddevsel) (val : Byte) : Kept d s (cpuOut8 s (d.port r) val) :=
  ⟨rfl, rfl, by rw [cpuOut8_reg, if_neg hr.symm]⟩

theorem Kept.in8 {port : Nat} : Kept d s (cpuIn8 answer s port).1 := ⟨rfl, rfl, rfl⟩

theorem Kept.wait : Kept d s (ataWait answer s d) := ⟨rfl, rfl, rfl⟩

theorem Kept.sendHigh : Kept d s (sendHigh s d lba count) :=
  (Kept.out8 (by decide) _).trans <| (Kept.out8 (by decide) _).trans <|
    (Kept.out8 (by decide) _).trans (Kept.out8 (by decide) _)

theorem Kept.sendLow : Kept d s (sendLow s d lba count) :=
  (Kept.out8 (by decide) _).trans <| (Kept.out8 (by decide) _).trans <|
    (Kept.out8 (by decide) _).trans (Kept.out8 (by decide) _)

/-- The cached selection is what the drive/head register of the drive holds. -/
def SelectHeld (drives : Nat → AtaDrive) (s : Ata) : Prop :=
  ∀ drive, s.lastSelDrive = some drive →
    (s.reg ((drives drive).port .hddevsel)).2 = selectByte (drives drive) s.lastSelMode

/-- The selection of `drive` in its own mode. -/
structure Selected (drives : Nat → AtaDrive) (drive : Nat) (s : Ata) : Prop where
  sel : s.lastSelDrive = some drive
  mode : s.lastSelMode = (drives drive).mode.setWidth 32
  reg : (s.reg ((drives drive).port .hddevsel)).2 =
    selectByte (drives drive) ((drives drive).mode.setWidth 32)

theorem Selected.kept (h : Selected drives drive s) (hk : Kept (drives drive) s s') :
    Selected drives drive s' :=
  ⟨hk.sel.trans h.sel, hk.mode.trans h.mode, by rw [hk.reg, h.reg]⟩

theorem Selected.held (h : Selected drives drive s) : SelectHeld drives s := by
  intro p hp
  obtain rfl : drive = p := Option.some.inj (h.sel.symm.trans hp)
  rw [h.reg, h.mode]

variable (answer) in
theorem ataSelectDrive_selected (h : SelectHeld drives s) (drive : Nat) :
    Selected drives drive
      (ataSelectDrive answer drives s drive ((drives drive).mode.setWidth 32)) := by
  unfold ataSelectDrive
  split
  · refine ⟨rfl, rfl, ?_⟩
    change ((cpuOut8 s ((drives drive).port .hddevsel) _).reg ((drives drive).port .hddevsel)).2 = _
    rw [cpuOut8_reg, if_pos rfl]
  · rename_i hsame
    simp only [ne_eq, not_or, not_not] at hsame
    exact ⟨hsame.1.symm, hsame.2.symm, by rw [h drive hsame.1.symm, ← hsame.2]⟩

theorem Selected.afterErr (h : Selected drives drive s) :
    Selected drives drive (cpuOut8 s ((drives drive).port .err) 0) :=
  h.kept (Kept.out8 (by decide) 0)

variable (lba count) in
theorem Selected.afterHigh (h : Selected drives drive s) :
    Selected drives drive (Dev.sendHigh s (drives drive) lba count) :=
  h.kept Kept.sendHigh

variable (lba count) in
theorem Selected.afterLow (h : Selected drives drive s) :
    Selected drives drive (Dev.sendLow s (drives drive) lba count) :=
  h.kept Kept.sendLow

variable (answer) in
theorem Selected.afterWait (h : Selected drives drive s) :
    Selected drives drive (ataWait answer s (drives drive)) :=
  h.kept Kept.wait

variable (answer) in
theorem params_selected (h : SelectHeld drives s) (c : PioCall) :
    Selected drives c.drive (c.params answer drives s) := by
  have herr := (ataSelectDrive_selected answer h c.drive).afterErr
  unfold PioCall.params
  cases c.op with
  | read =>
      simp only [pioReadParams]
      split
      · exact ((herr.afterHigh c.lba c.count).afterLow c.lba c.count).afterWait answer
      · exact (herr.afterLow c.lba c.count).afterWait answer
  | write buf => exact ((herr.afterHigh c.lba c.count).afterLow c.lba c.count).afterWait answer

/-- The low nibble of the drive/head register is that of the mode, which is zero. -/
theorem selectByte_nibble (d : AtaDrive) (hmode : d.mode = ataModeLba28) :
    (selectByte d (d.mode.setWidth 32)).toNat % 16 = 0 := by
  have hall : ∀ b : BitVec 8,
      (((0xA0 : BitVec 32) ||| b.setWidth 32 <<< 4 ||| (0x20 &&& 0xF)).setWidth 8 : Byte).toNat % 16 =
        0 := by
    decide +kernel
  rw [hmode]
  exact hall d.isSlave

/-! ## Whole calls keep the selection -/

theorem ataBusy_kept {fuel : Nat} {status : Byte}
    (h : ataBusy answer fuel s d = some (s', status)) : Kept d s s' := by
  induction fuel generalizing s with
  | zero => cases h
  | succ fuel ih =>
      rw [ataBusy] at h
      dsimp only at h
      split at h
      · exact Kept.in8.trans (ih h)
      · cases h
        exact ⟨rfl, rfl, rfl⟩

theorem ataPoll_kept {fuel : Nat} {err : Int} (h : ataPoll answer fuel s d = some (s', err)) :
    Kept d s s' := by
  unfold ataPoll at h
  obtain ⟨⟨t, status⟩, hbusy, hres⟩ := Option.map_eq_some_iff.mp h
  have hk : Kept d s t := Kept.wait.trans (ataBusy_kept hbusy)
  dsimp only at hres
  split at hres
  · cases hres
    exact hk.trans ⟨rfl, rfl, rfl⟩
  · split at hres
    · cases hres
      exact hk
    · cases hres
      exact hk

theorem readWords_kept (n : Nat) : Kept d s (readWords answer s d n).1 := by
  induction n with
  | zero => exact .refl
  | succ n ih => exact ih.trans ⟨rfl, rfl, rfl⟩

theorem readSectors_kept {fuel size count n : Nat} {ws : List (BitVec 16)}
    (h : readSectors answer fuel d size count s = some (s', n, ws)) : Kept d s s' := by
  induction count generalizing s n ws with
  | zero =>
      cases h
      exact .refl
  | succ count ih =>
      rw [readSectors] at h
      obtain ⟨⟨t, err⟩, hpoll, hres⟩ := Option.bind_eq_some_iff.mp h
      have hk := ataPoll_kept hpoll
      dsimp only at hres
      split at hres
      · cases hres
        exact hk
      · obtain ⟨⟨t', n', rest⟩, hrest, heq⟩ := Option.map_eq_some_iff.mp hres
        cases heq
        exact hk.trans ((readWords_kept _).trans (ih hrest))

theorem writeWords_kept (buf : Nat → BitVec 16) (n : Nat) : Kept d s (writeWords s d buf n) := by
  induction n with
  | zero => exact .refl
  | succ n ih =>
      rw [writeWords, List.range_succ, List.foldl_append]
      exact ih.trans ⟨rfl, rfl, rfl⟩

theorem writeSectors_kept {fuel size count : Nat} {buf : Nat → BitVec 16} {r : Nat ⊕ Unit}
    (h : writeSectors answer fuel d size count s buf = some (s', r)) : Kept d s s' := by
  induction count generalizing s buf with
  | zero =>
      cases h
      exact .refl
  | succ count ih =>
      rw [writeSectors] at h
      obtain ⟨⟨t, err⟩, hpoll, hres⟩ := Option.bind_eq_some_iff.mp h
      have hk := ataPoll_kept hpoll
      dsimp only at hres
      split at hres
      · cases hres
        exact hk
      · exact hk.trans ((writeWords_kept _ _).trans (ih hres))

theorem pioRead_kept {fuel n : Nat} {ws : List (BitVec 16)}
    (h : pioRead answer fuel drives s drive lba count = some (s', n, ws)) :
    Kept (drives drive) (pioReadParams answer drives s drive lba count) s' :=
  (Kept.out8 (r := .cmd) (by decide) _).trans (Kept.wait.trans (readSectors_kept h))

theorem pioWrite_kept {fuel n : Nat} {buf : Nat → BitVec 16}
    (h : pioWrite answer fuel drives s drive lba count buf = some (s', n)) :
    Kept (drives drive) (pioWriteParams answer drives s drive lba count) s' := by
  unfold pioWrite at h
  obtain ⟨⟨t, r⟩, hsectors, hres⟩ := Option.bind_eq_some_iff.mp h
  have hk := (Kept.out8 (r := .cmd) (by decide) _).trans (writeSectors_kept hsectors)
  cases r with
  | inl n =>
      cases hres
      exact hk
  | inr u =>
      obtain ⟨⟨t', err⟩, hpoll, hflush⟩ := Option.bind_eq_some_iff.mp hres
      have hk' := hk.trans (ataPoll_kept hpoll)
      dsimp only at hflush
      split at hflush
      · cases hflush
        exact hk'
      · obtain ⟨⟨t'', err'⟩, hpoll', heq⟩ := Option.map_eq_some_iff.mp hflush
        cases heq
        exact hk'.trans ((Kept.out8 (r := .cmd) (by decide) _).trans (ataPoll_kept hpoll'))

theorem exec_held {fuel : Nat} (h : SelectHeld drives s) (c : PioCall)
    (hexec : c.exec answer fuel drives s = some s') : SelectHeld drives s' := by
  have hsel := params_selected answer h c
  unfold PioCall.exec at hexec
  unfold PioCall.params at hsel
  cases hop : c.op with
  | read =>
      simp only [hop] at hexec hsel
      obtain ⟨⟨t, n, ws⟩, hread, rfl⟩ := Option.map_eq_some_iff.mp hexec
      exact (hsel.kept (pioRead_kept hread)).held
  | write buf =>
      simp only [hop] at hexec hsel
      obtain ⟨⟨t, n⟩, hwrite, rfl⟩ := Option.map_eq_some_iff.mp hexec
      exact (hsel.kept (pioWrite_kept hwrite)).held

theorem pioRun_held {reg : Nat → Byte × Byte} {cs : List PioCall}
    (run : PioRun answer drives reg cs s) : SelectHeld drives s := by
  induction run with
  | nil =>
      intro p hp
      cases hp
  | step run exec ih => exact exec_held ih _ exec

/-! ## What the registers denote -/

variable (answer drives s) in
theorem params_current (c : PioCall) :
    (c.params answer drives s).current (drives c.drive) .seccount0 = c.count.toNat % 256 ∧
    (c.params answer drives s).current (drives c.drive) .lba0 = c.lba.toNat % 256 ∧
    (c.params answer drives s).current (drives c.drive) .lba1 = c.lba.toNat / 256 % 256 ∧
    (c.params answer drives s).current (drives c.drive) .lba2 = c.lba.toNat / 256 ^ 2 % 256 := by
  unfold PioCall.params
  cases c.op with
  | read =>
      simp only [pioReadParams, ataWait_current]
      exact sendLow_current
  | write buf =>
      simp only [pioWriteParams, ataWait_current]
      exact sendLow_current

variable (answer drives s) in
/-- In 48-bit mode both functions send the high bytes before the low ones. -/
theorem params_previous (c : PioCall) (hmode : (drives c.drive).mode = ataModeLba48) :
    (c.params answer drives s).previous (drives c.drive) .seccount0 =
      c.count.toNat / 256 % 256 ∧
    (c.params answer drives s).previous (drives c.drive) .lba0 = c.lba.toNat / 256 ^ 3 % 256 ∧
    (c.params answer drives s).previous (drives c.drive) .lba1 = c.lba.toNat / 256 ^ 4 % 256 ∧
    (c.params answer drives s).previous (drives c.drive) .lba2 = c.lba.toNat / 256 ^ 5 % 256 := by
  have hstate : ∃ t, ∀ r : AtaReg, r.IsParam →
      (c.params answer drives s).previous (drives c.drive) r =
        (sendHigh t (drives c.drive) c.lba c.count).current (drives c.drive) r := by
    unfold PioCall.params
    cases c.op with
    | read =>
        simp only [pioReadParams, if_pos hmode, ataWait_previous]
        exact ⟨_, fun r hr => sendLow_previous hr⟩
    | write buf =>
        simp only [pioWriteParams, ataWait_previous]
        exact ⟨_, fun r hr => sendLow_previous hr⟩
  obtain ⟨t, ht⟩ := hstate
  rw [ht _ (.inl rfl), ht _ (.inr (.inl rfl)), ht _ (.inr (.inr (.inl rfl))),
    ht _ (.inr (.inr (.inr rfl)))]
  exact sendHigh_current

/-- The registers denote the address and the count, unless the address of a drive in
28-bit mode needs the drive/head register. -/
theorem pio_denotes_iff {reg : Nat → Byte × Byte} {cs : List PioCall}
    (run : PioRun answer drives reg cs s) (c : PioCall)
    (hrep : c.Representable (drives c.drive)) :
    ((c.params answer drives s).denotedLba (drives c.drive) = c.lba.toNat ∧
      (c.params answer drives s).denotedCount (drives c.drive) = c.count.toNat) ↔
    ((drives c.drive).mode = ataModeLba28 → c.lba.toNat < 2 ^ 24) := by
  obtain ⟨hcount, hlba0, hlba1, hlba2⟩ :=
    params_current answer drives s c
  unfold Ata.denotedLba Ata.denotedCount
  rcases hrep with ⟨hmode, hlba, hcnt⟩ | ⟨hmode, hlba, hcnt⟩
  · obtain ⟨hpcount, hplba0, hplba1, hplba2⟩ :=
      params_previous answer drives s c hmode
    have hne : (drives c.drive).mode ≠ ataModeLba28 := by rw [hmode]; decide
    simp only [if_pos hmode, hcount, hlba0, hlba1, hlba2, hpcount, hplba0, hplba1, hplba2]
    refine ⟨fun _ h => absurd h hne, fun _ => ?_⟩
    norm_num
    omega
  · have hne : (drives c.drive).mode ≠ ataModeLba48 := by rw [hmode]; decide
    have hdev : (c.params answer drives s).current (drives c.drive) .hddevsel % 16 = 0 := by
      have hreg := (params_selected answer (pioRun_held run) c).reg
      rw [Ata.current, hreg, selectByte_nibble _ hmode]
    simp only [if_neg hne, hcount, hlba0, hlba1, hlba2, hdev]
    rw [forall_prop_of_true hmode]
    norm_num
    omega

end Registers

/-- One drive in 28-bit mode at the primary port. -/
def smallDrive : AtaDrive := ⟨0x1F0, ataModeLba28, 0⟩

/-- Behind it on the same port, a slave in 48-bit mode. -/
def twoDrives (drive : Nat) : AtaDrive :=
  if drive = 0 then smallDrive else ⟨0x1F0, ataModeLba48, 1⟩

theorem twoDrives_run : ∃ s, PioRun (fun _ _ => 0x48) twoDrives (fun _ => (0, 0))
    [⟨.read, 0, 5, 2⟩, ⟨.write fun _ => 7, 1, 0x123456789A, 1⟩] s := by
  have hreturn : (((⟨.read, 0, 5, 2⟩ : PioCall).exec (fun _ _ => 0x48) 1 twoDrives
      (.initial fun _ => (0, 0))).bind fun s => (⟨.write fun _ => 7, 1, 0x123456789A, 1⟩ :
        PioCall).exec (fun _ _ => 0x48) 1 twoDrives s).isSome = true := by decide +kernel
  obtain ⟨s', hboth⟩ := Option.isSome_iff_exists.mp hreturn
  obtain ⟨s, hread, hwrite⟩ := Option.bind_eq_some_iff.mp hboth
  exact ⟨s', (PioRun.nil.step hread).step hwrite⟩

/-- After a read of the one and a write of the other: an address of 48 bits reaches the slave, and
one of 25 bits does not reach the master. -/
theorem pio_denotes_iff_twoDrives :
    ∃ s, PioRun (fun _ _ => 0x48) twoDrives (fun _ => (0, 0))
        [⟨.read, 0, 5, 2⟩, ⟨.write fun _ => 7, 1, 0x123456789A, 1⟩] s ∧
      (((⟨.read, 1, 0xABCDEF012345, 0x1FF⟩ : PioCall).params (fun _ _ => 0x48) twoDrives
          s).denotedLba (twoDrives 1) = 0xABCDEF012345 ∧
        ((⟨.read, 1, 0xABCDEF012345, 0x1FF⟩ : PioCall).params (fun _ _ => 0x48) twoDrives
          s).denotedCount (twoDrives 1) = 0x1FF) ∧
      ¬ (((⟨.read, 0, 0x1000000, 1⟩ : PioCall).params (fun _ _ => 0x48) twoDrives
          s).denotedLba (twoDrives 0) = 0x1000000 ∧
        ((⟨.read, 0, 0x1000000, 1⟩ : PioCall).params (fun _ _ => 0x48) twoDrives
          s).denotedCount (twoDrives 0) = 1) := by
  obtain ⟨s, run⟩ := twoDrives_run
  refine ⟨s, run, ?_, fun hdenotes => ?_⟩
  · exact (pio_denotes_iff run ⟨.read, 1, 0xABCDEF012345, 0x1FF⟩
      (.inl ⟨rfl, by decide, by decide⟩)).mpr fun hmode => absurd hmode (by decide)
  · exact absurd ((pio_denotes_iff run ⟨.read, 0, 0x1000000, 1⟩
      (.inr ⟨rfl, by decide, by decide⟩)).mp hdenotes rfl) (by decide)

/-- The sector 2 ^ 24 of this drive is read and written as the sector 0. -/
theorem pio_high_nibble_lost :
    (pioReadParams (fun _ _ => 0) (fun _ => smallDrive) (.initial fun _ => (0, 0)) 0
      0x1000000 1).denotedLba smallDrive = 0 ∧
    (pioWriteParams (fun _ _ => 0) (fun _ => smallDrive) (.initial fun _ => (0, 0)) 0
      0x1000000 1).denotedLba smallDrive = 0 := by
  decide +kernel

end UntitledOs.Dev
