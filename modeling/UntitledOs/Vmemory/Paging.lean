import UntitledOs.Vmemory.Allocator

/-!
# Page tables

`vmemory/vmemory.c`: the page tables of the current handle, IA-32e paging.  The
kernel reaches its tables through their physical addresses, so `mem` is physical
memory in 64-bit words; a data page mapped anywhere is in the same memory.

`none` is a call that does not return, from the allocator underneath.
-/

namespace UntitledOs.Vmemory

open UntitledOs.Lib

def pflagPresent : Nat := 1 <<< 0

def pflagCanwrite : Nat := 1 <<< 1

def pflagPsize : Nat := 1 <<< 7

/-- `e & flag`, as a condition. -/
def has (e flag : Nat) : Bool := e &&& flag != 0

def pageSize : Nat := 4096

def pageSize2 : Nat := 2 * 1024 * 1024

def vmemFlagSizeInBytes : Nat := 4

def vmemFlagMaintainContinuity : Nat := 8

def vmemErrNospace : Int := -1

def vmemErrVirtOccupied : Int := -3

def vmemNotMapped : Int := -4

/-- `GET_BITS` -/
def getBits (x start stop : Nat) : Nat := (x >>> start) &&& ((1 <<< (stop - start)) - 1)

/-- The address bits `51:12` and `51:21` of an entry. -/
def addrMask : Nat := 0xFFFFFFFFFF000

def addrMask2 : Nat := 0xFFFFFFFE00000

structure Vmem where
  mem : Nat → Nat
  /-- `cur_hndl->pml4` -/
  pml4 : Nat
  /-- how many tables `kmalloc_align` has been asked for -/
  tables : Nat
  phys : Allocator

/-- The kernel heap; `none` is `NULL`. -/
structure VmemEnv where
  kmallocAlign : Nat → Option Nat
  kmalloc : Nat → Nat

namespace Vmem

def setEntry (s : Vmem) (ent e : Nat) : Vmem := { s with mem := Function.update s.mem ent e }

/-- A table of 512 empty entries. -/
def clearTable (s : Vmem) (t : Nat) : Vmem :=
  { s with mem := fun a => if t ≤ a ∧ a < t + 512 * 8 then 0 else s.mem a }

/-- `GET_PML4E` -/
def getPml4e (s : Vmem) (vaddr : Nat) : Nat := s.pml4 ||| (getBits vaddr 39 48 <<< 3)

end Vmem

/-- `GET_PDPTE` -/
def getPdpte (vaddr pml4e : Nat) : Nat := (pml4e &&& addrMask) ||| (getBits vaddr 30 39 <<< 3)

/-- `GET_PDE` -/
def getPde (vaddr pdpte : Nat) : Nat := (pdpte &&& addrMask) ||| (getBits vaddr 21 30 <<< 3)

/-- `GET_PTE` -/
def getPte (vaddr pde : Nat) : Nat := (pde &&& addrMask) ||| (getBits vaddr 12 21 <<< 3)

/-- `GET_PDE_PHYSADDR` -/
def getPdePhysaddr (vaddr pde : Nat) : Nat := (pde &&& addrMask2) ||| getBits vaddr 0 21

/-- `SET_BITS(*ent, paddr, 0)` and then `*ent |= PFLAG_PRESENT | PFLAG_CANWRITE`. -/
def fillEntry (e paddr : Nat) : Nat := (e ||| paddr) ||| (pflagPresent ||| pflagCanwrite)

/-- `create_mem_hndl`, which makes the handle the current one here. -/
def createMemHndl (env : VmemEnv) (s : Vmem) : Vmem × Int :=
  match env.kmallocAlign s.tables with
  | none => ({ s with tables := s.tables + 1 }, vmemErrNospace)
  | some t => (({ s with tables := s.tables + 1, pml4 := t } : Vmem).clearTable t, 0)

/-- A step of `make_entry` down one level: the table below `ent` is made if it is missing. -/
def withTable (env : VmemEnv) (ent : Nat) (s : Vmem) (next : Vmem → Vmem × Option Nat) :
    Vmem × Option Nat :=
  if has (s.mem ent) pflagPresent then next s
  else
    match env.kmallocAlign s.tables with
    | none => ({ s with tables := s.tables + 1 }, none)
    | some t =>
        let s := ({ s with tables := s.tables + 1 } : Vmem).clearTable t
        next (s.setEntry ent (fillEntry (s.mem ent) t))

/-- `make_entry` from the directory entry `pde` on. -/
def makeEntryAt (env : VmemEnv) (vaddr size pde : Nat) (s : Vmem) : Vmem × Option Nat :=
  if size = pageSize2 then (s.setEntry pde (s.mem pde ||| pflagPsize), some pde)
  else withTable env pde s fun s => (s, some (getPte vaddr (s.mem pde)))

/-- `make_entry` -/
def makeEntry (env : VmemEnv) (s : Vmem) (vaddr size : Nat) : Vmem × Option Nat :=
  withTable env (s.getPml4e vaddr) s fun s =>
  let pdpte := getPdpte vaddr (s.mem (s.getPml4e vaddr))
  withTable env pdpte s fun s => makeEntryAt env vaddr size (getPde vaddr (s.mem pdpte)) s

/-- `get_entry` -/
def getEntry (s : Vmem) (vaddr : Nat) : Option Nat :=
  let pml4e := s.mem (s.getPml4e vaddr)
  if !has pml4e pflagPresent then none
  else
    let pdpte := s.mem (getPdpte vaddr pml4e)
    if !has pdpte pflagPresent then none
    else
      let pde := s.mem (getPde vaddr pdpte)
      if !has pde pflagPresent then none
      else if has pde pflagPsize then some (getPde vaddr pdpte)
      else some (getPte vaddr pde)

/-- `MAP_PAGE` and `MAP_PAGE2`, which differ in the size; 0 goes on with the caller. -/
def mapPage (env : VmemEnv) (s : Vmem) (size vaddr paddr : Nat) : Vmem × Int :=
  match makeEntry env s vaddr size with
  | (s, none) => (s, vmemErrNospace)
  | (s, some ent) =>
      if has (s.mem ent) pflagPresent then (s, vmemErrVirtOccupied)
      else (s.setEntry ent (fillEntry (s.mem ent) paddr), 0)

/-- A mapping that a loop makes. -/
structure Chunk where
  size : Nat
  vaddr : Nat
  paddr : Nat
  deriving DecidableEq, Repr

/-- The rounds of a loop, one after the other, up to the first that returns. -/
def mapChunks (env : VmemEnv) : List Chunk → Vmem → Vmem × Int
  | [], s => (s, 0)
  | c :: cs, s =>
      let r := mapPage env s c.size c.vaddr c.paddr
      if r.2 = 0 then mapChunks env cs r.1 else r

/-- The first loop goes on while neither address is aligned. -/
def headChunks : Nat → Nat → Nat → List Chunk
  | 0, _, _ => []
  | usize + 1, vaddr, paddr =>
      if paddr % pageSize2 > 0 ∧ vaddr % pageSize2 > 0 then
        ⟨pageSize, vaddr, paddr⟩ ::
          headChunks usize (u64 (vaddr + pageSize)) (u64 (paddr + pageSize))
      else []

/-- `rounds` rounds of one of the other two loops. -/
def loopChunks (size rounds vaddr paddr : Nat) : List Chunk :=
  (List.range rounds).map fun i => ⟨size, u64 (vaddr + i * size), u64 (paddr + i * size)⟩

/-- What the three loops of `map_phys`, and of `map_alloc` with continuity, map. -/
def rangeChunks (usize vaddr paddr : Nat) : List Chunk :=
  let head := headChunks usize vaddr paddr
  let off := head.length * pageSize
  let usize := usize - head.length
  let large := usize / (pageSize2 / pageSize)
  let off' := off + large * pageSize2
  head ++ loopChunks pageSize2 large (u64 (vaddr + off)) (u64 (paddr + off)) ++
    loopChunks pageSize (usize % (pageSize2 / pageSize)) (u64 (vaddr + off')) (u64 (paddr + off'))

/-- `VMEM_FLAG_SIZE_IN_BYTES` -/
def unitsOf (usize flags : Nat) : Nat :=
  if has flags vmemFlagSizeInBytes then u64 (usize + (pageSize - 1)) / pageSize else usize

/-- `map_phys`; what `allocator_alloc_addr` returns is not looked at. -/
def mapPhys (env : VmemEnv) (fuel : Nat) (s : Vmem) (vaddr paddr usize flags : Nat) :
    Option (Vmem × Int) :=
  let usize := unitsOf usize flags
  (allocatorAllocAddr env.kmalloc fuel s.phys (u64 (usize * pageSize)) paddr).map fun r =>
    mapChunks env (rangeChunks usize vaddr paddr) { s with phys := r.1 }

/-- How a loop of `map_alloc` ends. -/
inductive LoopEnd
  | finished
  | returned (code : Int)
  /-- no frame was left with that many rounds to go -/
  | noFrame (rounds : Nat)

/-- The rounds of `MAP_PAGE_ALLOC` and `MAP_PAGE2_ALLOC`. -/
def allocLoop (env : VmemEnv) (fuel size : Nat) : List Nat → Vmem → Option (Vmem × LoopEnd)
  | [], s => some (s, .finished)
  | v :: vs, s =>
      (allocatorAllocAlign env.kmalloc fuel s.phys size size).bind fun r =>
        match r.2 with
        | none => some ({ s with phys := r.1 }, .noFrame (vs.length + 1))
        | some paddr =>
            let r := mapPage env { s with phys := r.1 } size v paddr
            if r.2 = 0 then allocLoop env fuel size vs r.1 else some (r.1, .returned r.2)

/-- `MAP_PAGE_ALLOC` returns when there is no frame. -/
def LoopEnd.code : LoopEnd → Int
  | .finished => 0
  | .returned code => code
  | .noFrame _ => vmemErrNospace

/-- `MAP_PAGE2_ALLOC` only leaves its loop then. -/
def LoopEnd.left : LoopEnd → Nat
  | .noFrame rounds => rounds
  | _ => 0

/-- The pages of the first loop, up to the next boundary of `PAGE_SIZE2`. -/
def headVaddrs : Nat → Nat → List Nat
  | 0, _ => []
  | usize + 1, vaddr =>
      if vaddr % pageSize2 > 0 then vaddr :: headVaddrs usize (u64 (vaddr + pageSize)) else []

def loopVaddrs (size rounds vaddr : Nat) : List Nat :=
  (List.range rounds).map fun i => u64 (vaddr + i * size)

/-- The pages of the last loop, once the loop over large pages stopped. -/
def tailVaddrs (usize vaddr : Nat) (stop : LoopEnd) : List Nat :=
  let done := usize / (pageSize2 / pageSize) - stop.left
  loopVaddrs pageSize (usize - done * (pageSize2 / pageSize)) (u64 (vaddr + done * pageSize2))

/-- `map_alloc` without continuity. -/
def mapAllocPages (env : VmemEnv) (fuel : Nat) (s : Vmem) (vaddr usize : Nat) :
    Option (Vmem × Int) :=
  let head := headVaddrs usize vaddr
  (allocLoop env fuel pageSize head s).bind fun r =>
    if r.2.code ≠ 0 then some (r.1, r.2.code)
    else
      let usize := usize - head.length
      let vaddr := u64 (vaddr + head.length * pageSize)
      (allocLoop env fuel pageSize2 (loopVaddrs pageSize2 (usize / (pageSize2 / pageSize)) vaddr)
        r.1).bind fun r =>
          match r.2 with
          | .returned code => some (r.1, code)
          | stop =>
              (allocLoop env fuel pageSize (tailVaddrs usize vaddr stop) r.1).map fun r =>
                (r.1, r.2.code)

/-- `map_alloc` -/
def mapAlloc (env : VmemEnv) (fuel : Nat) (s : Vmem) (vaddr usize flags : Nat) :
    Option (Vmem × Int) :=
  let usize := unitsOf usize flags
  if has flags vmemFlagMaintainContinuity then
    (allocatorAllocAlign env.kmalloc fuel s.phys (u64 (usize * pageSize)) pageSize).map fun r =>
      match r.2 with
      | none => ({ s with phys := r.1 }, vmemErrNospace)
      | some paddr => mapChunks env (rangeChunks usize vaddr paddr) { s with phys := r.1 }
  else mapAllocPages env fuel s vaddr usize

/-- `UNMAP_PAGE` and `UNMAP_PAGE2`, which differ in the size. -/
def unmapPage (env : VmemEnv) (fuel : Nat) (s : Vmem) (size vaddr : Nat) : Option (Vmem × Int) :=
  match getEntry s vaddr with
  | none => some (s, vmemNotMapped)
  | some ent =>
      (allocatorFree env.kmalloc fuel s.phys (getPdePhysaddr vaddr (s.mem ent)) size).map fun a =>
        (({ s with phys := a } : Vmem).setEntry ent (s.mem ent &&& (2 ^ 64 - 1 - pflagPresent)), 0)

def unmapPages (env : VmemEnv) (fuel : Nat) : List (Nat × Nat) → Vmem → Option (Vmem × Int)
  | [], s => some (s, 0)
  | c :: cs, s =>
      (unmapPage env fuel s c.1 c.2).bind fun r =>
        if r.2 = 0 then unmapPages env fuel cs r.1 else some r

/-- `unmap` -/
def unmap (env : VmemEnv) (fuel : Nat) (s : Vmem) (vaddr usize flags : Nat) :
    Option (Vmem × Int) :=
  let usize := unitsOf usize flags
  let head := headVaddrs usize vaddr
  let usize := usize - head.length
  let large := usize / (pageSize2 / pageSize)
  let off := head.length * pageSize
  let off' := off + large * pageSize2
  unmapPages env fuel (head.map (pageSize, ·) ++
    (loopVaddrs pageSize2 large (u64 (vaddr + off))).map (pageSize2, ·) ++
    (loopVaddrs pageSize (usize % (pageSize2 / pageSize)) (u64 (vaddr + off'))).map (pageSize, ·)) s

/--
The IA-32e walk from the table at `pml4`: the page-size bit ends it at a 1 GiB or
a 2 MiB page.  `none` is a page fault, which the processor also raises where the
page-size bit is set in the first level, or a bit between the flags and the
address of a large page.
-/
def walk (mem : Nat → Nat) (pml4 vaddr : Nat) : Option Nat :=
  let pml4e := mem (pml4 ||| (getBits vaddr 39 48 <<< 3))
  if !has pml4e pflagPresent then none
  else if has pml4e pflagPsize then none
  else
    let pdpte := mem (getPdpte vaddr pml4e)
    if !has pdpte pflagPresent then none
    else if has pdpte pflagPsize then
      if getBits pdpte 13 30 = 0 then some ((pdpte &&& 0xFFFFFC0000000) ||| getBits vaddr 0 30)
      else none
    else
      let pde := mem (getPde vaddr pdpte)
      if !has pde pflagPresent then none
      else if has pde pflagPsize then
        if getBits pde 13 21 = 0 then some (getPdePhysaddr vaddr pde) else none
      else
        let pte := mem (getPte vaddr pde)
        if !has pte pflagPresent then none
        else some ((pte &&& addrMask) ||| getBits vaddr 0 12)

/-- What the tables of the current handle map an address to. -/
def Vmem.translate (s : Vmem) (vaddr : Nat) : Option Nat := walk s.mem s.pml4 vaddr

end UntitledOs.Vmemory
