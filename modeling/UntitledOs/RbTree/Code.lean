import UntitledOs.Lib.BinaryTree
import UntitledOs.Lib.Fuel

/-!
# The red-black tree code

`mtask/thread_tree.c` and `vmemory/allocator.c` hold the same tree code twice,
over nodes with different contents.  It is modelled once, over nodes that carry
an item; a `TreeKind` says where the two files differ.

`none` is a call that does not return: it follows a null pointer, or a loop
takes more than `fuel` rounds.
-/

namespace UntitledOs.RbTree

open UntitledOs.Lib

/-- `TREE_CLR_BLACK`, `TREE_CLR_RED` -/
inductive Color
  | black
  | red
  deriving DecidableEq, Repr

structure TreeNode (α : Type) where
  item : α
  clr : Color
  child : Side → Option Nat
  parent : Option Nat

/-- The nodes of a tree by address, and `ext`, whatever else its code touches. -/
structure Tree (α σ : Type) where
  node : Nat → TreeNode α
  root : Option Nat
  ext : σ

/--
What tells the two copies of the code apart: the order of the items, what is
done when an item moved to another node (`thr->hndl = n`), and the colour of a
node whose item was overwritten (`TREE_SET_SIZE` clears the colour bit).
-/
structure TreeKind (α σ : Type) where
  less : σ → α → α → Bool
  moved : α → Nat → σ → σ
  stored : Color → Color

variable {α σ : Type}

namespace Tree

def item (t : Tree α σ) (a : Nat) : α := (t.node a).item

def clr (t : Tree α σ) (a : Nat) : Color := (t.node a).clr

def child (t : Tree α σ) (d : Side) (a : Nat) : Option Nat := (t.node a).child d

def parent (t : Tree α σ) (a : Nat) : Option Nat := (t.node a).parent

def setNode (t : Tree α σ) (a : Nat) (n : TreeNode α) : Tree α σ :=
  { t with node := Function.update t.node a n }

def setItem (t : Tree α σ) (a : Nat) (i : α) : Tree α σ :=
  t.setNode a { t.node a with item := i }

def setClr (t : Tree α σ) (a : Nat) (c : Color) : Tree α σ :=
  t.setNode a { t.node a with clr := c }

def setChild (t : Tree α σ) (d : Side) (a : Nat) (v : Option Nat) : Tree α σ :=
  t.setNode a { t.node a with child := Function.update (t.node a).child d v }

def setParent (t : Tree α σ) (a : Nat) (v : Option Nat) : Tree α σ :=
  t.setNode a { t.node a with parent := v }

def setRoot (t : Tree α σ) (v : Option Nat) : Tree α σ := { t with root := v }

def setExt (t : Tree α σ) (x : σ) : Tree α σ := { t with ext := x }

/-- `n->child[TREE_DIR_LEFT] = n->child[TREE_DIR_RIGHT] = NULL` -/
def clearChildren (t : Tree α σ) (a : Nat) : Tree α σ :=
  (t.setChild .left a none).setChild .right a none

/-- The side of `p` that `n` is on, by the comparison of `TREE_DIR_CHILD`. -/
def sideUnder (t : Tree α σ) (p n : Nat) : Side :=
  if t.child .right p = some n then .right else .left

/-- `TREE_DIR_CHILD` -/
def dirChild (t : Tree α σ) (n : Nat) : Option Side :=
  (t.parent n).map fun p => t.sideUnder p n

/-- `TREE_GET_SIBLING`: it indexes with the side `n` itself is on. -/
def getSibling (t : Tree α σ) (n : Nat) : Option Nat :=
  (t.parent n).bind fun p => t.child (t.sideUnder p n) p

/-- `if(c) c->parent = v` -/
def setParentOf (t : Tree α σ) (c v : Option Nat) : Tree α σ :=
  match c with
  | none => t
  | some c => t.setParent c v

/-- The link from above to `p`, out of `g` or the root pointer, is turned to `s`. -/
def replaceChild (t : Tree α σ) (g : Option Nat) (p s : Nat) : Tree α σ :=
  match g with
  | none => t.setRoot (some s)
  | some g => t.setChild (t.sideUnder g p) g (some s)

/-- `thread_tree_rotate`, `alloc_tree_rotate`.  No caller uses the result. -/
def rotate (t : Tree α σ) (p : Nat) (dir : Side) : Option (Tree α σ) :=
  let g := t.parent p
  (t.child dir.other p).map fun s =>
    let c := t.child dir s
    let t := (t.setChild dir.other p c).setParentOf c (some p)
    let t := ((t.setChild dir s (some p)).setParent p (some s)).setParent s g
    t.replaceChild g p s

/-- Case 6: the parent is red, the uncle black, `n` an outer grandchild. -/
def insertOuter (t : Tree α σ) (p g : Nat) (dir : Side) : Option (Tree α σ) :=
  (t.rotate g dir.other).map fun t => (t.setClr p .black).setClr g .red

/-- Cases 5 and 6: the parent is red and the uncle is black. -/
def insertRotate (t : Tree α σ) (n p g : Nat) (dir : Side) : Option (Tree α σ) :=
  if t.child dir.other p = some n then
    (t.rotate p dir).bind fun t =>
      (t.child dir g).bind fun p => t.insertOuter p g dir
  else
    t.insertOuter p g dir

/-- The loop of `thread_tree_insertp`, `alloc_tree_insertp`. -/
def insertLoop : Nat → Tree α σ → Nat → Nat → Option (Tree α σ)
  | 0, _, _, _ => none
  | fuel + 1, t, n, p =>
      if t.clr p = .black then some t
      else
        match t.parent p with
        | none => some (t.setClr p .red)
        | some g =>
            let dir := t.sideUnder g p
            match t.child dir.other g with
            | none => t.insertRotate n p g dir
            | some u =>
                if t.clr u = .black then t.insertRotate n p g dir
                else
                  let t := ((t.setClr p .black).setClr u .black).setClr g .red
                  match t.parent g with
                  | none => some t
                  | some p => insertLoop fuel t g p

/-- `thread_tree_insertp`, `alloc_tree_insertp` -/
def insertp (fuel : Nat) (t : Tree α σ) (n : Nat) (p : Option Nat) (dir : Side) :
    Option (Tree α σ) :=
  let t := ((t.setClr n .red).clearChildren n).setParent n p
  match p with
  | none => some ((t.setClr n .black).setRoot (some n))
  | some p => insertLoop fuel (t.setChild dir p (some n)) n p

/-- The descent of `thread_tree_insert`, `alloc_tree_insert`. -/
def insertFrom (k : TreeKind α σ) : Nat → Tree α σ → Nat → Nat → Option (Tree α σ)
  | 0, _, _, _ => none
  | fuel + 1, t, n, root =>
      let dir := if k.less t.ext (t.item n) (t.item root) then Side.left else Side.right
      match t.child dir root with
      | none => insertp fuel ((t.setChild dir root (some n)).clearChildren n) n (some root) dir
      | some next => insertFrom k fuel t n next

/-- `thread_tree_insert`, `alloc_tree_insert` -/
def insert (k : TreeKind α σ) (fuel : Nat) (t : Tree α σ) (n : Nat) : Option (Tree α σ) :=
  match t.root with
  | none => some ((((t.setClr n .black).clearChildren n).setParent n none).setRoot (some n))
  | some root => insertFrom k fuel t n root

/-- The walk to the leftmost node below `n`. -/
def leftmost : Nat → Tree α σ → Nat → Option Nat
  | 0, _, _ => none
  | fuel + 1, t, n =>
      match t.child .left n with
      | none => some n
      | some l => leftmost fuel t l

/-- `thread_tree_delete_replacement`, `alloc_tree_delete_replacement` -/
def deleteReplacement (fuel : Nat) (t : Tree α σ) (n : Nat) : Option (Option Nat) :=
  match t.child .left n, t.child .right n with
  | some _, some _ => (leftmost fuel t n).map some
  | some l, none => some (some l)
  | none, some r => some (some r)
  | none, none => some none

/-- The child of `s` on side `e`, if it is red. -/
def redChild (t : Tree α σ) (e : Side) (s : Nat) : Option Nat :=
  (t.child e s).filter fun c => t.clr c = .red

/--
The four rotations for a black sibling `s` on side `d` with a red child `c` on
side `e` (left left, right left, left right, right right).
-/
def fixbbRotate (t : Tree α σ) (p s c : Nat) (d e : Side) : Option (Tree α σ) :=
  if d = e then
    (((t.setClr c (t.clr s)).setClr s (t.clr p)).rotate p d.other).map
      fun t => t.setClr p .black
  else
    ((t.setClr c (t.clr p)).rotate s d).bind fun t =>
      (t.rotate p d.other).map fun t => t.setClr p .black

/-- `thread_tree_delete_fixbb`, `alloc_tree_delete_fixbb` -/
def deleteFixbb : Nat → Tree α σ → Nat → Option (Tree α σ)
  | 0, _, _ => none
  | fuel + 1, t, n =>
      if t.root = some n then some t
      else
        match t.parent n with
        | none => if t.root = none then some t else none
        | some p =>
            match t.getSibling n with
            | none => deleteFixbb fuel t p
            | some s =>
                if t.clr s = .red then
                  let t := (t.setClr p .red).setClr s .black
                  (t.dirChild s).bind fun d =>
                    (t.rotate p d).bind fun t => deleteFixbb fuel t n
                else
                  match t.redChild .left s, t.redChild .right s with
                  | some c, _ => (t.dirChild s).bind fun d => t.fixbbRotate p s c d .left
                  | none, some c => (t.dirChild s).bind fun d => t.fixbbRotate p s c d .right
                  | none, none =>
                      let t := t.setClr s .red
                      if t.clr p = .black then deleteFixbb fuel t n
                      else some (t.setClr p .black)

/-- The swap of the contents of `n` and `u`. -/
def swapItems (k : TreeKind α σ) (t : Tree α σ) (n u : Nat) : Tree α σ :=
  let i := t.item n
  let j := t.item u
  let t := (t.setItem n j).setItem u i
  let t := (t.setClr n (k.stored (t.clr n)))
  let t := (t.setClr u (k.stored (t.clr u)))
  t.setExt (k.moved i u (k.moved j n t.ext))

/-- `u == NULL` in `thread_tree_delete`, `alloc_tree_delete`. -/
def deleteLeaf (fuel : Nat) (t : Tree α σ) (n : Nat) : Option (Tree α σ) :=
  if t.root = some n then some (t.setRoot none)
  else
    (if t.clr n = .black then t.deleteFixbb fuel n
      else some (((t.getSibling n).map fun s => t.setClr s .red).getD t)).bind fun t' =>
    (t.parent n).bind fun p =>
      (t'.dirChild n).map fun d => t'.setChild d p none

/-- `n` has the only child `u`.  The result comes with the node that was freed. -/
def deleteOneChild (k : TreeKind α σ) (fuel : Nat) (t : Tree α σ) (n u : Nat) :
    Option (Tree α σ × Nat) :=
  if t.root = some n then
    let i := t.item u
    let t := t.setItem n i
    let t := t.setClr n (k.stored (t.clr n))
    some (((t.setExt (k.moved i n t.ext)).clearChildren n), u)
  else
    let bothBlack := t.clr u = .black ∧ t.clr n = .black
    (t.parent n).bind fun p => (t.dirChild n).bind fun d =>
      let t := (t.setChild d p (some u)).setParent u (some p)
      (if bothBlack then t.deleteFixbb fuel n else some (t.setClr u .black)).map fun t => (t, n)

/--
`thread_tree_delete`, `alloc_tree_delete`: the tree afterwards and the node that
is no longer in it.
-/
def delete (k : TreeKind α σ) : Nat → Tree α σ → Nat → Option (Tree α σ × Nat)
  | 0, _, _ => none
  | fuel + 1, t, n =>
      (t.deleteReplacement fuel n).bind fun
        | none => (t.deleteLeaf fuel n).map fun t => (t, n)
        | some u =>
            if t.child .left n = none ∨ t.child .right n = none then
              t.deleteOneChild k fuel n u
            else
              delete k fuel (t.swapItems k n u) u

section Access

variable (t : Tree α σ) (a x : Nat) (i : α) (c : Color) (d e : Side) (v w : Option Nat) (y : σ) (z : Nat)

@[simp] theorem item_setItem : (t.setItem a i).item x = if x = a then i else t.item x := by
  simp only [setItem, setNode, item, Function.update_apply]; split <;> rfl

@[simp] theorem clr_setItem : (t.setItem a i).clr x = t.clr x := by
  simp only [setItem, setNode, clr, Function.update_apply]; split <;> simp_all

@[simp] theorem child_setItem : (t.setItem a i).child d x = t.child d x := by
  simp only [setItem, setNode, child, Function.update_apply]; split <;> simp_all

@[simp] theorem parent_setItem : (t.setItem a i).parent x = t.parent x := by
  simp only [setItem, setNode, parent, Function.update_apply]; split <;> simp_all

@[simp] theorem root_setItem : (t.setItem a i).root = t.root := rfl

@[simp] theorem ext_setItem : (t.setItem a i).ext = t.ext := rfl

@[simp] theorem item_setClr : (t.setClr a c).item x = t.item x := by
  simp only [setClr, setNode, item, Function.update_apply]; split <;> simp_all

@[simp] theorem clr_setClr : (t.setClr a c).clr x = if x = a then c else t.clr x := by
  simp only [setClr, setNode, clr, Function.update_apply]; split <;> rfl

@[simp] theorem child_setClr : (t.setClr a c).child d x = t.child d x := by
  simp only [setClr, setNode, child, Function.update_apply]; split <;> simp_all

@[simp] theorem parent_setClr : (t.setClr a c).parent x = t.parent x := by
  simp only [setClr, setNode, parent, Function.update_apply]; split <;> simp_all

@[simp] theorem root_setClr : (t.setClr a c).root = t.root := rfl

@[simp] theorem ext_setClr : (t.setClr a c).ext = t.ext := rfl

@[simp] theorem item_setChild : (t.setChild e a v).item x = t.item x := by
  simp only [setChild, setNode, item, Function.update_apply]; split <;> simp_all

@[simp] theorem clr_setChild : (t.setChild e a v).clr x = t.clr x := by
  simp only [setChild, setNode, clr, Function.update_apply]; split <;> simp_all

@[simp] theorem child_setChild :
    (t.setChild e a v).child d x = if x = a ∧ d = e then v else t.child d x := by
  simp only [setChild, setNode, child, Function.update_apply]
  by_cases hx : x = a <;> by_cases hd : d = e <;> simp [hx, hd]

@[simp] theorem parent_setChild : (t.setChild e a v).parent x = t.parent x := by
  simp only [setChild, setNode, parent, Function.update_apply]; split <;> simp_all

@[simp] theorem root_setChild : (t.setChild e a v).root = t.root := rfl

@[simp] theorem ext_setChild : (t.setChild e a v).ext = t.ext := rfl

@[simp] theorem item_setParent : (t.setParent a v).item x = t.item x := by
  simp only [setParent, setNode, item, Function.update_apply]; split <;> simp_all

@[simp] theorem clr_setParent : (t.setParent a v).clr x = t.clr x := by
  simp only [setParent, setNode, clr, Function.update_apply]; split <;> simp_all

@[simp] theorem child_setParent : (t.setParent a v).child d x = t.child d x := by
  simp only [setParent, setNode, child, Function.update_apply]; split <;> simp_all

@[simp] theorem parent_setParent :
    (t.setParent a v).parent x = if x = a then v else t.parent x := by
  simp only [setParent, setNode, parent, Function.update_apply]; split <;> rfl

@[simp] theorem root_setParent : (t.setParent a v).root = t.root := rfl

@[simp] theorem ext_setParent : (t.setParent a v).ext = t.ext := rfl

@[simp] theorem node_setRoot : (t.setRoot v).node = t.node := rfl

@[simp] theorem item_setRoot : (t.setRoot v).item x = t.item x := rfl

@[simp] theorem clr_setRoot : (t.setRoot v).clr x = t.clr x := rfl

@[simp] theorem child_setRoot : (t.setRoot v).child d x = t.child d x := rfl

@[simp] theorem parent_setRoot : (t.setRoot v).parent x = t.parent x := rfl

@[simp] theorem root_setRoot : (t.setRoot v).root = v := rfl

@[simp] theorem ext_setRoot : (t.setRoot v).ext = t.ext := rfl

@[simp] theorem node_setExt : (t.setExt y).node = t.node := rfl

@[simp] theorem item_setExt : (t.setExt y).item x = t.item x := rfl

@[simp] theorem clr_setExt : (t.setExt y).clr x = t.clr x := rfl

@[simp] theorem child_setExt : (t.setExt y).child d x = t.child d x := rfl

@[simp] theorem parent_setExt : (t.setExt y).parent x = t.parent x := rfl

@[simp] theorem root_setExt : (t.setExt y).root = t.root := rfl

@[simp] theorem ext_setExt : (t.setExt y).ext = y := rfl

@[simp] theorem node_setItem_of_ne (h : x ≠ a) : (t.setItem a i).node x = t.node x := by
  simp [setItem, setNode, h]

@[simp] theorem node_setClr_of_ne (h : x ≠ a) : (t.setClr a c).node x = t.node x := by
  simp [setClr, setNode, h]

@[simp] theorem node_setChild_of_ne (h : x ≠ a) : (t.setChild d a v).node x = t.node x := by
  simp [setChild, setNode, h]

@[simp] theorem node_setParent_of_ne (h : x ≠ a) : (t.setParent a v).node x = t.node x := by
  simp [setParent, setNode, h]

@[simp] theorem child_clearChildren :
    (t.clearChildren a).child e x = if x = a then none else t.child e x := by
  cases e <;> by_cases hx : x = a <;> simp [clearChildren, hx]

@[simp] theorem parent_clearChildren : (t.clearChildren a).parent x = t.parent x := by
  simp [clearChildren]

@[simp] theorem item_clearChildren : (t.clearChildren a).item x = t.item x := by
  simp [clearChildren]

@[simp] theorem clr_clearChildren : (t.clearChildren a).clr x = t.clr x := by
  simp [clearChildren]

@[simp] theorem root_clearChildren : (t.clearChildren a).root = t.root := rfl

@[simp] theorem ext_clearChildren : (t.clearChildren a).ext = t.ext := rfl

@[simp] theorem node_clearChildren_of_ne (h : x ≠ a) :
    (t.clearChildren a).node x = t.node x := by
  simp [clearChildren, h]

@[simp] theorem item_setParentOf : (t.setParentOf w v).item x = t.item x := by
  cases w <;> simp [setParentOf]

@[simp] theorem clr_setParentOf : (t.setParentOf w v).clr x = t.clr x := by
  cases w <;> simp [setParentOf]

@[simp] theorem child_setParentOf : (t.setParentOf w v).child d x = t.child d x := by
  cases w <;> simp [setParentOf]

@[simp] theorem parent_setParentOf :
    (t.setParentOf w v).parent x = if w = some x then v else t.parent x := by
  cases w <;> simp [setParentOf, eq_comm]

@[simp] theorem root_setParentOf : (t.setParentOf w v).root = t.root := by
  cases w <;> simp [setParentOf]

@[simp] theorem ext_setParentOf : (t.setParentOf w v).ext = t.ext := by
  cases w <;> simp [setParentOf]

@[simp] theorem item_replaceChild : (t.replaceChild w a z).item x = t.item x := by
  cases w <;> simp [replaceChild]

@[simp] theorem clr_replaceChild : (t.replaceChild w a z).clr x = t.clr x := by
  cases w <;> simp [replaceChild]

@[simp] theorem child_replaceChild : (t.replaceChild w a z).child d x =
    if w = some x ∧ d = t.sideUnder x a then some z else t.child d x := by
  cases w with
  | none => simp [replaceChild]
  | some g =>
      by_cases hx : g = x
      · subst hx; simp [replaceChild]
      · simp [replaceChild, hx, Ne.symm hx]

@[simp] theorem parent_replaceChild : (t.replaceChild w a z).parent x = t.parent x := by
  cases w <;> simp [replaceChild]

@[simp] theorem root_replaceChild :
    (t.replaceChild w a z).root = if w = none then some z else t.root := by
  cases w <;> simp [replaceChild]

@[simp] theorem ext_replaceChild : (t.replaceChild w a z).ext = t.ext := by
  cases w <;> simp [replaceChild]

section SwapItems

variable (k : TreeKind α σ)

@[simp] theorem item_swapItems : (t.swapItems k a z).item x =
    if x = z then t.item a else if x = a then t.item z else t.item x := by
  simp [swapItems]

@[simp] theorem child_swapItems : (t.swapItems k a z).child d x = t.child d x := by
  simp [swapItems]

@[simp] theorem parent_swapItems : (t.swapItems k a z).parent x = t.parent x := by
  simp [swapItems]

@[simp] theorem root_swapItems : (t.swapItems k a z).root = t.root := rfl

@[simp] theorem ext_swapItems :
    (t.swapItems k a z).ext = k.moved (t.item a) z (k.moved (t.item z) a t.ext) := rfl

@[simp] theorem node_swapItems_of_ne (ha : x ≠ a) (hz : x ≠ z) :
    (t.swapItems k a z).node x = t.node x := by
  simp [swapItems, ha, hz]

end SwapItems

@[simp] theorem node_setParentOf_of_ne (h : w ≠ some x) :
    (t.setParentOf w v).node x = t.node x := by
  cases w with
  | none => rfl
  | some c => exact node_setParent_of_ne t c x v (by rintro rfl; exact h rfl)

@[simp] theorem node_replaceChild_of_ne (h : w ≠ some x) :
    (t.replaceChild w a z).node x = t.node x := by
  cases w with
  | none => rfl
  | some g => exact node_setChild_of_ne t g x _ _ (by rintro rfl; exact h rfl)

end Access

section Fuel

theorem insertLoop_steady (t : Tree α σ) (n p : Nat) :
    Steady fun fuel => insertLoop fuel t n p := by
  intro fuel
  induction fuel generalizing t n p with
  | zero => exact Below.none _
  | succ fuel ih =>
      dsimp only
      unfold insertLoop
      split
      · exact Below.refl _
      cases t.parent p with
      | none => exact Below.refl _
      | some g =>
          dsimp only
          cases t.child (t.sideUnder g p).other g with
          | none => exact Below.refl _
          | some u =>
              dsimp only
              split
              · exact Below.refl _
              split
              · exact Below.refl _
              · exact ih _ _ _

theorem insertp_steady (t : Tree α σ) (n : Nat) (p : Option Nat) (d : Side) :
    Steady fun fuel => insertp fuel t n p d := by
  cases p with
  | none => exact Steady.const _
  | some p => exact insertLoop_steady _ n p

theorem insertFrom_steady (k : TreeKind α σ) (t : Tree α σ) (n root : Nat) :
    Steady fun fuel => insertFrom k fuel t n root := by
  intro fuel
  induction fuel generalizing root with
  | zero => exact Below.none _
  | succ fuel ih =>
      dsimp only
      unfold insertFrom
      generalize (if k.less t.ext (t.item n) (t.item root) then Side.left else .right) = dir
      dsimp only
      cases t.child dir root with
      | none => exact insertp_steady _ n _ _ fuel
      | some next => exact ih next

theorem insert_steady (k : TreeKind α σ) (t : Tree α σ) (n : Nat) :
    Steady fun fuel => insert k fuel t n := by
  unfold insert
  cases t.root with
  | none => exact Steady.const _
  | some root => exact insertFrom_steady k t n root

theorem leftmost_steady (t : Tree α σ) (n : Nat) : Steady fun fuel => leftmost fuel t n := by
  intro fuel
  induction fuel generalizing n with
  | zero => exact Below.none _
  | succ fuel ih =>
      dsimp only
      unfold leftmost
      split
      · exact Below.refl _
      · exact ih _

theorem deleteReplacement_steady (t : Tree α σ) (n : Nat) :
    Steady fun fuel => deleteReplacement fuel t n := by
  unfold deleteReplacement
  cases t.child .left n <;> cases t.child .right n
  · exact Steady.const _
  · exact Steady.const _
  · exact Steady.const _
  · exact (leftmost_steady t n).map some

theorem deleteFixbb_steady (t : Tree α σ) (n : Nat) :
    Steady fun fuel => deleteFixbb fuel t n := by
  intro fuel
  induction fuel generalizing t n with
  | zero => exact Below.none _
  | succ fuel ih =>
      dsimp only
      unfold deleteFixbb
      split
      · exact Below.refl _
      cases t.parent n with
      | none => exact Below.refl _
      | some p =>
          dsimp only
          cases t.getSibling n with
          | none => exact ih t p
          | some s =>
              dsimp only
              split
              · exact (Below.refl _).bind fun d => (Below.refl _).bind fun t => ih t n
              cases t.redChild .left s with
              | some c => exact Below.refl _
              | none =>
                  cases t.redChild .right s with
                  | some c => exact Below.refl _
                  | none =>
                      dsimp only
                      split
                      · exact ih _ n
                      · exact Below.refl _

theorem deleteLeaf_steady (t : Tree α σ) (n : Nat) : Steady fun fuel => deleteLeaf fuel t n := by
  unfold deleteLeaf
  split
  · exact Steady.const _
  split
  · exact (deleteFixbb_steady t n).bind fun _ => Steady.const _
  · exact Steady.const _

theorem deleteOneChild_steady (k : TreeKind α σ) (t : Tree α σ) (n u : Nat) :
    Steady fun fuel => deleteOneChild k fuel t n u := by
  unfold deleteOneChild
  split
  · exact Steady.const _
  refine (Steady.const _).bind fun p => (Steady.const _).bind fun d => ?_
  dsimp only
  split
  · exact (deleteFixbb_steady _ n).map _
  · exact Steady.const _

theorem delete_steady (k : TreeKind α σ) (t : Tree α σ) (n : Nat) :
    Steady fun fuel => delete k fuel t n := by
  intro fuel
  induction fuel generalizing t n with
  | zero => exact Below.none _
  | succ fuel ih =>
      refine (deleteReplacement_steady t n fuel).bind fun u => ?_
      cases u with
      | none => exact (deleteLeaf_steady t n fuel).map _
      | some u =>
          dsimp only
          split
          · exact deleteOneChild_steady k t n u fuel
          · exact ih _ _

end Fuel

end Tree

end UntitledOs.RbTree
