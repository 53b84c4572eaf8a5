import UntitledOs.Word
import UntitledOs.RbTree.Delete

/-!
# The physical memory allocator

`vmemory/allocator.c`: free regions in a red-black tree ordered by address.  The
top bit of a node's `size` is its colour; here the colour is a field of its own
and `size` are the other 63 bits.  Nodes come from the pool, the pool's nodes
from `kmalloc`, a function of how many blocks were handed out before; `kfree`
of a node has no effect on the tree.

`none` is a call that does not return: it follows a null pointer or the pointer
`(void*)-1`, or a loop takes more than `fuel` rounds.
-/

namespace UntitledOs.Vmemory

open UntitledOs.Lib UntitledOs.RbTree

structure Region where
  addr : Nat
  size : Nat
  deriving DecidableEq, Repr

/-- `NODE_MEM_POOL_SIZE` -/
def nodeMemPoolSize : Nat := 112

/-- The static data of `allocator.c` and the nodes. -/
structure Allocator where
  node : Nat → TreeNode Region
  root : Option Nat
  nodeMemPool : Nat → Nat
  nodeMemPoolI : Nat
  /-- how many blocks `kmalloc` has handed out -/
  kmallocs : Nat

/-- Addresses are compared as pointers; `TREE_SET_SIZE` clears the colour bit. -/
def allocTreeKind : TreeKind Region Unit where
  less _ a b := a.addr < b.addr
  moved _ _ x := x
  stored _ := .black

namespace Allocator

def tree (m : Allocator) : Tree Region Unit := ⟨m.node, m.root, ()⟩

def putTree (m : Allocator) (t : Tree Region Unit) : Allocator :=
  { m with node := t.node, root := t.root }

@[simp] theorem tree_putTree (m : Allocator) (t : Tree Region Unit) : (m.putTree t).tree = t := rfl

end Allocator

/-- `TREE_SET_SIZE` -/
def treeSetSize (t : Tree Region Unit) (n sz : Nat) : Tree Region Unit :=
  (t.setItem n { t.item n with size := sz % 2 ^ 63 }).setClr n .black

def setAddr (t : Tree Region Unit) (n addr : Nat) : Tree Region Unit :=
  t.setItem n { t.item n with addr := addr }

/-- `n->addr = addr; TREE_SET_SIZE(n, sz)` -/
def setRegion (t : Tree Region Unit) (n addr sz : Nat) : Tree Region Unit :=
  treeSetSize (setAddr t n addr) n sz

/-- One round of the loop that refills the pool from behind index `from`. -/
def refillSlot (kmalloc : Nat → Nat) (start : Nat) (m : Allocator) (i : Nat) : Allocator :=
  { m with
    nodeMemPool := Function.update
      (Function.update m.nodeMemPool (i - start) (m.nodeMemPool i)) i (kmalloc m.kmallocs)
    kmallocs := m.kmallocs + 1 }

/-- `alloc_node` -/
def allocNode (kmalloc : Nat → Nat) (m : Allocator) : Allocator × Nat :=
  let i := m.nodeMemPoolI + 1
  let m' :=
    if m.nodeMemPoolI ≥ nodeMemPoolSize / 2 then
      { (List.range' i (nodeMemPoolSize - i)).foldl (refillSlot kmalloc i) m with nodeMemPoolI := 0 }
    else { m with nodeMemPoolI := i }
  (m', m'.nodeMemPool m'.nodeMemPoolI)

/-- `node_mem_pool_init` -/
def nodeMemPoolInit (kmalloc : Nat → Nat) (m : Allocator) : Allocator :=
  (List.range nodeMemPoolSize).foldl
    (fun m i =>
      { m with nodeMemPool := Function.update m.nodeMemPool i (kmalloc m.kmallocs)
               kmallocs := m.kmallocs + 1 }) m

/-- `allocator_init`, over whatever the memory held before. -/
def allocatorInit (kmalloc : Nat → Nat) (memLimit : Nat) (m : Allocator) : Allocator :=
  let (m, n) := allocNode kmalloc (nodeMemPoolInit kmalloc m)
  let t := setRegion (m.tree.setRoot (some n)) n 0 memLimit
  m.putTree (((t.clearChildren n).setParent n none).setClr n .black)

/--
`alloc_tree_find_first_fit_r` and `alloc_tree_find_first_fit_align_r`, which
differ in when a node fits.  The result is `none` for `(void*)-1`.
-/
def findFirst (t : Tree Region Unit) (fits : Region → Bool) : Nat → Nat → Option (Option Nat)
  | 0, _ => none
  | fuel + 1, n =>
      if fits (t.item n) then some (some n)
      else
        ((t.child .left n).elim (some none) (findFirst t fits fuel)).bind fun
          | some found => some (some found)
          | none => (t.child .right n).elim (some none) (findFirst t fits fuel)

/-- The test of `alloc_tree_find_first_fit_r`. -/
def firstFit (size : Nat) (r : Region) : Bool := r.size ≥ size

/-- The test of `alloc_tree_find_first_fit_align_r`; the subtraction may wrap. -/
def firstFitAlign (size align : Nat) (r : Region) : Bool :=
  sub64 r.size (align - r.addr % align) ≥ size

/--
The search loops over the tree: stop at a hit, go left or right otherwise.  The
result is `none` for `(void*)-1`.
-/
def descend (t : Tree Region Unit) (hit goLeft : Region → Bool) :
    Nat → Option Nat → Option (Option Nat)
  | 0, _ => none
  | _ + 1, none => some none
  | fuel + 1, some n =>
      if hit (t.item n) then some (some n)
      else descend t hit goLeft fuel (t.child (if goLeft (t.item n) then .left else .right) n)

/-- The test of `alloc_tree_find_containing`. -/
def containing (addr size : Nat) (r : Region) : Bool :=
  addr ≥ r.addr && u64 (addr + size) ≤ u64 (r.addr + r.size)

/-- `alloc_tree_find_containing` -/
def allocTreeFindContaining (fuel : Nat) (t : Tree Region Unit) (addr size : Nat) :
    Option (Option Nat) :=
  descend t (containing addr size) (fun r => addr < r.addr) fuel t.root

/-- `merge_lr` -/
def mergeLr (fuel : Nat) (t : Tree Region Unit) (n addr : Nat) : Option (Option Nat) :=
  descend t (fun r => u64 (r.addr + r.size) = addr) (fun r => addr < u64 (r.addr + r.size))
    fuel (some n)

/-- `merge_rr` -/
def mergeRr (fuel : Nat) (t : Tree Region Unit) (n addr size : Nat) : Option (Option Nat) :=
  descend t (fun r => u64 (addr + size) = r.addr) (fun r => u64 (addr + size) < r.addr)
    fuel (some n)

/-- `alloc_tree_insert` -/
def allocTreeInsert (fuel : Nat) (t : Tree Region Unit) (n : Nat) : Option (Tree Region Unit) :=
  t.insert allocTreeKind fuel n

/-- `alloc_tree_delete`, which frees the node that is left over. -/
def allocTreeDelete (fuel : Nat) (t : Tree Region Unit) (n : Nat) : Option (Tree Region Unit) :=
  (t.delete allocTreeKind fuel n).map Prod.fst

/-- A node from the pool, set to a region and inserted. -/
def insertRegion (kmalloc : Nat → Nat) (fuel : Nat) (m : Allocator) (addr size : Nat) :
    Option Allocator :=
  let (m, n) := allocNode kmalloc m
  (allocTreeInsert fuel (setRegion m.tree n addr size) n).map m.putTree

/-- What is left over of a region is inserted, unless nothing is. -/
def insertRest (kmalloc : Nat → Nat) (fuel : Nat) (m : Allocator) (addr size : Nat) :
    Option Allocator :=
  if size ≠ 0 then insertRegion kmalloc fuel m addr size else some m

/-- `allocator_alloc` with a node that fits. -/
def allocFrom (fuel : Nat) (m : Allocator) (size n : Nat) : Option (Allocator × Option Nat) :=
  let t := m.tree
  let ret := (t.item n).addr
  if (t.item n).size = size then
    (allocTreeDelete fuel t n).map fun t => (m.putTree t, some ret)
  else
    let t := treeSetSize t n (sub64 (t.item n).size size)
    some (m.putTree (setAddr t n (u64 ((t.item n).addr + size))), some ret)

/-- `allocator_alloc`; the address is `none` for `(void*)-1`. -/
def allocatorAlloc (fuel : Nat) (m : Allocator) (size : Nat) : Option (Allocator × Option Nat) :=
  m.root.bind fun root => (findFirst m.tree (firstFit size) fuel root).bind fun found =>
    found.elim (some (m, none)) (allocFrom fuel m size)

/-- `align_off` -/
def alignOff (align addr : Nat) : Nat :=
  let off := align - addr % align
  if off = align then 0 else off

/-- `allocator_alloc_align` with a node that fits. -/
def allocAlignFrom (kmalloc : Nat → Nat) (fuel : Nat) (m : Allocator) (size align n : Nat) :
    Option (Allocator × Option Nat) :=
  let t := m.tree
  let off := alignOff align (t.item n).addr
  if sub64 (t.item n).size off = size then
    (allocTreeDelete fuel t n).map fun t' => (m.putTree t', some (u64 ((t.item n).addr + off)))
  else
    (insertRest kmalloc fuel m (t.item n).addr off).map fun m =>
      let t := m.tree
      let ret := u64 ((t.item n).addr + off)
      let t := treeSetSize t n (sub64 (sub64 (t.item n).size size) off)
      (m.putTree (setAddr t n (u64 ((t.item n).addr + u64 (size + off)))), some ret)

/-- `allocator_alloc_align` -/
def allocatorAllocAlign (kmalloc : Nat → Nat) (fuel : Nat) (m : Allocator) (size align : Nat) :
    Option (Allocator × Option Nat) :=
  m.root.bind fun root => (findFirst m.tree (firstFitAlign size align) fuel root).bind fun found =>
    found.elim (some (m, none)) (allocAlignFrom kmalloc fuel m size align)

/-- `allocator_alloc_addr` with a node that contains the region. -/
def allocAddrFrom (kmalloc : Nat → Nat) (fuel : Nat) (m : Allocator) (size addr n : Nat) :
    Option (Allocator × Option Nat) :=
  let t := m.tree
  if (t.item n).size = size then
    (allocTreeDelete fuel t n).map fun t => (m.putTree t, some addr)
  else
    let addr₁ := (t.item n).addr
    let addr₂ := u64 (addr + size)
    let size₁ := sub64 addr (t.item n).addr
    let size₂ := sub64 (sub64 (u64 ((t.item n).addr + (t.item n).size)) addr) size
    (allocTreeDelete fuel t n).bind fun t =>
    (insertRest kmalloc fuel (m.putTree t) addr₁ size₁).bind fun m =>
    (insertRest kmalloc fuel m addr₂ size₂).map fun m => (m, some addr)

/-- `allocator_alloc_addr` -/
def allocatorAllocAddr (kmalloc : Nat → Nat) (fuel : Nat) (m : Allocator) (size addr : Nat) :
    Option (Allocator × Option Nat) :=
  (allocTreeFindContaining fuel m.tree addr size).bind fun found =>
    found.elim (some (m, none)) (allocAddrFrom kmalloc fuel m size addr)

/-- `merge_l`, `merge_r`: the search in a subtree, or `NULL` where there is none. -/
def mergeSide (t : Tree Region Unit) (n : Nat) (d : Side)
    (search : Nat → Option (Option Nat)) : Option (Option Nat) :=
  -- a search that fails gives `(void*)-1`, which is then followed
  (t.child d n).elim (some none) fun c => (search c).bind fun found => found.map some

/-- `n` is widened by the region of `l` to its left. -/
def growLeft (t : Tree Region Unit) (n l : Nat) : Tree Region Unit :=
  let t := setAddr t n (t.item l).addr
  treeSetSize t n (u64 ((t.item n).size + (t.item l).size))

/-- `n` is widened by the region of `r` to its right. -/
def growRight (t : Tree Region Unit) (n r : Nat) : Tree Region Unit :=
  treeSetSize t n (u64 ((t.item n).size + (t.item r).size))

def absorbLeft (fuel : Nat) (t : Tree Region Unit) (n l : Nat) : Option (Tree Region Unit) :=
  allocTreeDelete fuel (growLeft t n l) l

def absorbRight (fuel : Nat) (t : Tree Region Unit) (n r : Nat) : Option (Tree Region Unit) :=
  allocTreeDelete fuel (growRight t n r) r

/-- The merges of `allocator_free` around the new node `n`. -/
def mergeFreed (fuel : Nat) (t : Tree Region Unit) (n addr size : Nat) :
    Option (Tree Region Unit) :=
  (mergeSide t n .left fun c => mergeLr fuel t c addr).bind fun left =>
  (mergeSide t n .right fun c => mergeRr fuel t c addr size).bind fun right =>
  (left.elim (some t) (absorbLeft fuel t n)).bind fun t =>
    right.elim (some t) (absorbRight fuel t n)

/-- `allocator_free` -/
def allocatorFree (kmalloc : Nat → Nat) (fuel : Nat) (m : Allocator) (addr size : Nat) :
    Option Allocator :=
  let n := (allocNode kmalloc m).2
  (insertRegion kmalloc fuel m addr size).bind fun m =>
    (mergeFreed fuel m.tree n addr size).map m.putTree

end UntitledOs.Vmemory
