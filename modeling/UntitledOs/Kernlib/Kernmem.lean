import UntitledOs.Word
import UntitledOs.Lib.LinkedList

/-!
# The kernel heap

The heap of `kernlib/kernmem.c` is a doubly linked list of headers that starts
at the dummy node `kmem_head`.  A header lies directly below its payload.
Headers are modelled by address; payload bytes are not, so what the `memcpy` of
`krealloc_align` makes of the headers is a parameter here.

`none` is a call that never returns: a spinlock that is taken while held, or a
walk over more nodes than `fuel`.
-/

namespace UntitledOs.Kernlib

open UntitledOs.Lib

/-- `KMEM_HEAP_BASE`, also the address of `kmem_head`. -/
def kmemHeapBase : Nat := 0x200000

/-- `sizeof(kmem_node)` -/
def kmemNodeSize : Nat := 24

structure KmemNode where
  sz : Nat
  next : Option Nat
  prev : Option Nat
  deriving DecidableEq, Repr

/-- The heap's memory, and `ext`, the state its map function works on. -/
structure Kmem (σ : Type) where
  node : Nat → KmemNode
  occupiedTo : Nat
  kmemSpinlock : Bool
  ext : σ

/-- What `kmem_set_map_functions` installs. -/
structure MapFunctions (σ : Type) where
  vmemoryMapAlloc : Nat → Nat → Kmem σ → Option (Kmem σ)
  memUnitSize : Nat

/--
The surroundings of a heap call: whether the spinlock spins (`false` ignores
the lock calls) and the installed map functions, if any.
-/
structure KmemEnv (σ : Type) where
  spin : Bool
  mapFunctions : Option (MapFunctions σ)

variable {σ : Type}

namespace Kmem

def next (m : Kmem σ) (a : Nat) : Option Nat := (m.node a).next

def prev (m : Kmem σ) (a : Nat) : Option Nat := (m.node a).prev

def sz (m : Kmem σ) (a : Nat) : Nat := (m.node a).sz

def setNode (m : Kmem σ) (a : Nat) (n : KmemNode) : Kmem σ :=
  { m with node := Function.update m.node a n }

def setNext (m : Kmem σ) (a : Nat) (v : Option Nat) : Kmem σ :=
  m.setNode a { m.node a with next := v }

def setPrev (m : Kmem σ) (a : Nat) (v : Option Nat) : Kmem σ :=
  m.setNode a { m.node a with prev := v }

def setSz (m : Kmem σ) (a : Nat) (v : Nat) : Kmem σ :=
  m.setNode a { m.node a with sz := v }

section Access

variable (m : Kmem σ) (a x : Nat) (n : KmemNode) (v : Option Nat) (k : Nat)

@[simp] theorem node_setNode :
    (m.setNode a n).node x = if x = a then n else m.node x := by
  simp [setNode, Function.update_apply]

@[simp] theorem next_setNode :
    (m.setNode a n).next x = if x = a then n.next else m.next x := by
  simp only [next, node_setNode]; split <;> rfl

@[simp] theorem prev_setNode :
    (m.setNode a n).prev x = if x = a then n.prev else m.prev x := by
  simp only [prev, node_setNode]; split <;> rfl

@[simp] theorem sz_setNode :
    (m.setNode a n).sz x = if x = a then n.sz else m.sz x := by
  simp only [sz, node_setNode]; split <;> rfl

@[simp] theorem next_setNext :
    (m.setNext a v).next x = if x = a then v else m.next x := by
  simp [setNext]

@[simp] theorem prev_setNext : (m.setNext a v).prev x = m.prev x := by
  simp only [setNext, prev_setNode]; split <;> simp_all [prev]

@[simp] theorem sz_setNext : (m.setNext a v).sz x = m.sz x := by
  simp only [setNext, sz_setNode]; split <;> simp_all [sz]

@[simp] theorem next_setPrev : (m.setPrev a v).next x = m.next x := by
  simp only [setPrev, next_setNode]; split <;> simp_all [next]

@[simp] theorem prev_setPrev :
    (m.setPrev a v).prev x = if x = a then v else m.prev x := by
  simp [setPrev]

@[simp] theorem sz_setPrev : (m.setPrev a v).sz x = m.sz x := by
  simp only [setPrev, sz_setNode]; split <;> simp_all [sz]

@[simp] theorem next_setSz : (m.setSz a k).next x = m.next x := by
  simp only [setSz, next_setNode]; split <;> simp_all [next]

@[simp] theorem prev_setSz : (m.setSz a k).prev x = m.prev x := by
  simp only [setSz, prev_setNode]; split <;> simp_all [prev]

@[simp] theorem sz_setSz :
    (m.setSz a k).sz x = if x = a then k else m.sz x := by
  simp [setSz]

@[simp] theorem occupiedTo_setNode :
    (m.setNode a n).occupiedTo = m.occupiedTo := rfl

@[simp] theorem occupiedTo_setNext :
    (m.setNext a v).occupiedTo = m.occupiedTo := rfl

@[simp] theorem occupiedTo_setPrev :
    (m.setPrev a v).occupiedTo = m.occupiedTo := rfl

@[simp] theorem occupiedTo_setSz :
    (m.setSz a k).occupiedTo = m.occupiedTo := rfl

end Access

end Kmem

/-- The state after `kmem_init`; the size of the dummy node is never set. -/
def kmemInit (ext : σ) : Kmem σ :=
  { node := fun _ => ⟨0, none, none⟩
    occupiedTo := kmemHeapBase
    kmemSpinlock := false
    ext := ext }

/-- `spinlock_lock`, idealised: the lock is taken when it is clear, and never while it is held. -/
def spinlockLock (env : KmemEnv σ) (m : Kmem σ) : Option (Kmem σ) :=
  if env.spin then
    if m.kmemSpinlock then none else some { m with kmemSpinlock := true }
  else some m

def spinlockUnlock (env : KmemEnv σ) (m : Kmem σ) : Kmem σ :=
  if env.spin then { m with kmemSpinlock := false } else m

/--
Where a header may start behind the node `it` so that the payload behind it is
aligned: `gap_beg` inside the walk and `nblk` after it.
-/
def gapBegin (m : Kmem σ) (it align : Nat) : Nat :=
  let gapBeg := u64 (it + kmemNodeSize + m.sz it)
  let off := u64 (gapBeg + kmemNodeSize) % align
  if off ≠ 0 then u64 (gapBeg + (align - off)) else gapBeg

/-- How the walk over the list ends. -/
inductive GapSearch where
  | gap (it gapBeg gapEnd : Nat)
  | tail (it : Nat)
  deriving DecidableEq, Repr

/-- The `while(it->next)` loop of `kmalloc_align`. -/
def gapSearch (m : Kmem σ) (size align : Nat) : Nat → Nat → Option GapSearch
  | 0, _ => none
  | fuel + 1, it =>
      match m.next it with
      | none => some (.tail it)
      | some gapEnd =>
          let gapBeg := gapBegin m it align
          if gapEnd > gapBeg ∧ gapEnd - gapBeg ≥ u64 (size + kmemNodeSize) then
            some (.gap it gapBeg gapEnd)
          else gapSearch m size align fuel gapEnd

/-- Links a block into the gap between `it` and `itNext`. -/
def linkGap (m : Kmem σ) (it gapBeg itNext size : Nat) : Kmem σ :=
  let m := m.setNext it (some gapBeg)
  let m := m.setPrev itNext (some gapBeg)
  m.setNode gapBeg ⟨size, some itNext, some it⟩

/-- Links a block behind `it`, whatever `it` pointed on to before. -/
def linkTail (m : Kmem σ) (it nblk size : Nat) : Kmem σ :=
  let m := m.setNext it (some nblk)
  m.setNode nblk ⟨size, none, some it⟩

/-- Raises `occupied_to` to `top`, mapping the missing pages if it can. -/
def growHeap (env : KmemEnv σ) (m : Kmem σ) (top : Nat) :
    Option (Kmem σ) :=
  if top > m.occupiedTo then
    match env.mapFunctions with
    | none => some { m with occupiedTo := top }
    | some map =>
        let occupiedToAligned := m.occupiedTo - m.occupiedTo % map.memUnitSize
        let mapped :=
          if sub64 top occupiedToAligned > map.memUnitSize then
            map.vmemoryMapAlloc (u64 (occupiedToAligned + map.memUnitSize))
              (sub64 top occupiedToAligned) m
          else some m
        mapped.map fun m => { m with
          occupiedTo := u64 (top + (map.memUnitSize - top % map.memUnitSize)) }
  else some m

def kmallocAlign (env : KmemEnv σ) (fuel : Nat) (m : Kmem σ)
    (size align : Nat) : Option (Kmem σ × Nat) := do
  let m ← spinlockLock env m
  match ← gapSearch m size align fuel kmemHeapBase with
  | .gap it gapBeg gapEnd =>
      -- this return leaves the lock taken
      some (linkGap m it gapBeg gapEnd size, u64 (gapBeg + kmemNodeSize))
  | .tail it =>
      let nblk := gapBegin m it align
      let m ← growHeap env m (u64 (nblk + kmemNodeSize + size))
      let m := linkTail m it nblk size
      some (spinlockUnlock env m, u64 (nblk + kmemNodeSize))

/-- Unlinks the node of `ptr` from its neighbours. -/
def kfree (env : KmemEnv σ) (m : Kmem σ) (ptr : Nat) : Option (Kmem σ) := do
  let m ← spinlockLock env m
  let it := ptr - kmemNodeSize
  let m := match m.prev it with
    | some p => m.setNext p (m.next it)
    | none => m
  let m := match m.next it with
    | some n => m.setPrev n (m.prev it)
    | none => m
  some (spinlockUnlock env m)

/-- What copying `n` bytes from one payload to another makes of the headers. -/
abbrev HeaderCopy := Nat → Nat → Nat → (Nat → KmemNode) → Nat → KmemNode

def kreallocAlign (env : KmemEnv σ) (memcpy : HeaderCopy) (fuel : Nat) (m : Kmem σ)
    (ptr : Option Nat) (size align : Nat) : Option (Kmem σ × Nat) :=
  match ptr with
  | none => kmallocAlign env fuel m size align
  | some ptr => do
      let m ← spinlockLock env m
      let kn := ptr - kmemNodeSize
      let move : Option (Kmem σ × Nat) := do
        let (m, nptr) ← kmallocAlign env fuel m size align
        if nptr = 0 then some (m, nptr)
        else
          -- the size of the old block, whatever the new one's
          let m := { m with node := memcpy nptr ptr (m.sz kn) m.node }
          let m ← kfree env m ptr
          some (spinlockUnlock env m, nptr)
      match m.next kn with
      | some gapEnd =>
          if sub64 gapEnd ptr ≥ u64 (size + kmemNodeSize) then
            some (m.setSz kn size, ptr)
          else move
      | none => move

end UntitledOs.Kernlib
