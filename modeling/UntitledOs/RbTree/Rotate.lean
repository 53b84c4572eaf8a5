import UntitledOs.RbTree.Code

/-!
# Rotations

A tree whose nodes hold a shape is only rearranged by rotations and recolouring:
the nodes, their in-order sequence and their items stay.
-/

namespace UntitledOs.RbTree

open UntitledOs.Lib

variable {α σ : Type} {t t' t'' : Tree α σ} {s s' : BinaryTree Nat} {cells : List Nat}
  {c : Context Nat} {u v w : BinaryTree Nat} {d e : Side} {a n p q g x : Nat}

def Tree.links (t : Tree α σ) : Links Nat := ⟨t.child, t.parent⟩

@[simp] theorem Tree.links_child (t : Tree α σ) : t.links.child = t.child := rfl

@[simp] theorem Tree.links_parent (t : Tree α σ) : t.links.parent = t.parent := rfl

/-- The nodes reachable from the root are those of the shape `s`, each once. -/
structure Holds (t : Tree α σ) (s : BinaryTree Nat) : Prop where
  root : t.root = Lib.root s
  linked : Linked t.links none s
  nodup : (inorder s).Nodup

instance : Decidable (Holds t s) :=
  decidable_of_iff (t.root = Lib.root s ∧ Linked t.links none s ∧ (inorder s).Nodup)
    ⟨fun h => ⟨h.1, h.2.1, h.2.2⟩, fun h => ⟨h.root, h.linked, h.nodup⟩⟩

/-- `t'` is `t` with its nodes in the shape `s`. -/
structure Reshaped (t t' : Tree α σ) (s : BinaryTree Nat) : Prop where
  holds : Holds t' s
  item : ∀ a, t'.item a = t.item a
  frame : ∀ a ∉ inorder s, t'.node a = t.node a
  ext : t'.ext = t.ext

/-- `t'` is `t` with its nodes, `cells` in order, in some shape. -/
def Rearranged (cells : List Nat) (t t' : Tree α σ) : Prop :=
  ∃ s, inorder s = cells ∧ Reshaped t t' s

theorem Tree.parent_of_node (h : t'.node a = t.node a) : t'.parent a = t.parent a := by
  simp [Tree.parent, h]

namespace Holds

theorem child_mem (h : Holds t s) (ha : a ∈ inorder s) (hx : t.child d a = some x) :
    x ∈ inorder s := h.linked.child_mem ha hx

theorem parent_mem (h : Holds t s) (ha : a ∈ inorder s) (hx : t.parent a = some x) :
    x ∈ inorder s := h.linked.parent_mem ha hx

theorem at_plug (h : Holds t (c.plug (join d u p v))) :
    t.parent p = c.owner ∧ t.child d p = Lib.root u ∧ t.child d.other p = Lib.root v ∧
      c.Linked t.links (some p) ∧ Linked t.links (some p) u ∧ Linked t.links (some p) v := by
  have hl := h.linked
  rw [linked_plug, linked_join, root_join] at hl
  obtain ⟨hc, hp, hu, hv, hlu, hlv⟩ := hl
  exact ⟨hp, hu, hv, hc, hlu, hlv⟩

theorem disjoint (h : Holds t (c.plug s)) (ha : a ∈ inorder s) : a ∉ c.cells := by
  have hnd := List.nodup_append.mp (Context.nodup_plug.mp h.nodup)
  exact fun hc => hnd.2.2 a ha a hc rfl

theorem slot_child (h : Holds t (c.plug s)) (hc : c.slot = some (e, x)) :
    t.child e x = Lib.root s := by
  have hl := (linked_plug.mp h.linked).1
  cases c with
  | top => simp at hc
  | step c d p r =>
      obtain ⟨rfl, rfl⟩ : d = e ∧ p = x := by simpa using hc
      exact hl.2.1

/-- `TREE_DIR_CHILD` of the root of a plugged subtree finds the side of the hole. -/
theorem sideUnder (h : Holds t ((c.step d p s).plug v)) (hv : Lib.root v = some n) :
    t.sideUnder p n = d := by
  obtain ⟨-, hd, ho, -⟩ := h.at_plug
  cases d with
  | right => simp [Tree.sideUnder, hd, hv]
  | left =>
      have hne : Lib.root s ≠ some n := by
        intro hs
        refine h.disjoint (root_mem hv) ?_
        simp [Context.cells, root_mem hs]
      simp only [Side.other] at ho
      simp [Tree.sideUnder, ho, hne]

theorem getSibling (h : Holds t ((c.step d p s).plug v)) (hv : Lib.root v = some n) :
    t.getSibling n = some n := by
  obtain ⟨a, b, rfl⟩ := eq_join_of_root hv .left
  have hp : t.parent n = some p := h.at_plug.1
  have hd : t.child d p = Lib.root (join .left a n b) :=
    (Holds.at_plug (c := c) (d := d) (p := p) (v := s) h).2.1
  simp [Tree.getSibling, hp, h.sideUnder hv, hd]

theorem parent_root (h : Holds t s) (hp : t.root = some p) : t.parent p = none := by
  obtain ⟨a, b, rfl⟩ := eq_join_of_root (h.root ▸ hp) .left
  exact (linked_join.mp h.linked).1

theorem root_iff (h : Holds t (c.plug (join d u p v))) : t.root = some p ↔ c = .top := by
  constructor
  · intro hroot
    have howner := h.at_plug.1.symm.trans (h.parent_root hroot)
    cases c with
    | top => rfl
    | step c e q r => simp at howner
  · rintro rfl
    simpa using h.root

theorem congr (h : Holds t s) (hroot : t'.root = t.root)
    (hchild : ∀ a ∈ inorder s, ∀ d, t'.child d a = t.child d a)
    (hparent : ∀ a ∈ inorder s, t'.parent a = t.parent a) : Holds t' s :=
  ⟨hroot.trans h.root, h.linked.congr hchild hparent, h.nodup⟩

@[simp] theorem setClr_iff {k : Color} : Holds (t.setClr a k) s ↔ Holds t s :=
  ⟨fun h => h.congr (by simp) (by simp) (by simp), fun h => h.congr (by simp) (by simp) (by simp)⟩

end Holds

theorem Reshaped.refl (h : Holds t s) : Reshaped t t s :=
  ⟨h, fun _ => rfl, fun _ _ => rfl, rfl⟩

theorem Reshaped.trans (h : Reshaped t t' s) (h' : Reshaped t' t'' s')
    (hs : (inorder s').Perm (inorder s)) : Reshaped t t'' s' where
  holds := h'.holds
  item a := (h'.item a).trans (h.item a)
  frame a ha := (h'.frame a ha).trans (h.frame a fun hmem => ha (hs.mem_iff.mpr hmem))
  ext := h'.ext.trans h.ext

theorem Reshaped.setClr (h : Reshaped t t' s) (ha : a ∈ inorder s) (k : Color) :
    Reshaped t (t'.setClr a k) s where
  holds := Holds.setClr_iff.mpr h.holds
  item x := by simp [h.item]
  frame x hx := by
    rw [Tree.node_setClr_of_ne _ _ _ _ (by rintro rfl; exact hx ha), h.frame x hx]
  ext := by simp [h.ext]

namespace Rearranged

theorem refl (h : Holds t s) : Rearranged (inorder s) t t :=
  ⟨s, rfl, Reshaped.refl h⟩

theorem trans (h : Rearranged cells t t') (h' : Rearranged cells t' t'') :
    Rearranged cells t t'' := by
  obtain ⟨s, hs, h⟩ := h
  obtain ⟨s', hs', h'⟩ := h'
  exact ⟨s', hs', h.trans h' (by rw [hs, hs'])⟩

theorem setClr (h : Rearranged cells t t') (ha : a ∈ cells) (k : Color) :
    Rearranged cells t (t'.setClr a k) := by
  obtain ⟨s, rfl, h⟩ := h
  exact ⟨s, rfl, h.setClr ha k⟩

end Rearranged

/-- What `rotate` writes, link by link. -/
theorem rotate_links (hq : t.child d.other p = some q)
    (hg : ∀ g, t.parent p = some g → g ≠ p ∧ g ≠ q) :
    ∃ t', t.rotate p d = some t' ∧
      (∀ e x, t'.child e x =
        if t.parent p = some x ∧ e = t.sideUnder x p then some q
        else if x = q ∧ e = d then some p
        else if x = p ∧ e = d.other then t.child d q
        else t.child e x) ∧
      (∀ x, t'.parent x =
        if x = q then t.parent p
        else if x = p then some q
        else if t.child d q = some x then some p
        else t.parent x) ∧
      t'.root = (if t.parent p = none then some q else t.root) ∧
      (∀ x, t'.clr x = t.clr x) ∧ (∀ x, t'.item x = t.item x) ∧ t'.ext = t.ext ∧
      ∀ x, x ≠ p → x ≠ q → t.child d q ≠ some x → t.parent p ≠ some x →
        t'.node x = t.node x := by
  refine ⟨_, by simp only [Tree.rotate, hq, Option.map_some]; rfl, ?_, ?_, ?_, ?_, ?_, ?_, ?_⟩
  · intro e x
    simp only [Tree.child_replaceChild]
    by_cases hp : t.parent p = some x
    · obtain ⟨hxp, hxq⟩ := hg x hp
      simp [Tree.sideUnder, hp, hxp, hxq]
    · simp [hp]
  · intro x
    simp
  · simp
  · simp
  · simp
  · simp
  · intro x hxp hxq hxc hxg
    simp [hxp, hxq, hxc, hxg]

/--
A rotation at `p` finds the child `q` on the other side and turns the shape at
that place.
-/
theorem rotate_spec (h : Holds t (c.plug (join d u p (join d v q w)))) :
    ∃ t', t.rotate p d = some t' ∧ (∀ x, t'.clr x = t.clr x) ∧
      Reshaped t t' (c.plug (join d (join d u p v) q w)) := by
  have hqd : t.child d q = Lib.root v := by
    have hl := (linked_plug.mp h.linked).2
    rw [linked_join, linked_join] at hl
    exact hl.2.2.2.2.2.1
  obtain ⟨hp, hpd, hpo, hc, -, -⟩ := h.at_plug
  rw [root_join] at hpo
  have hmem : ∀ x, x = p ∨ x = q ∨ Lib.root v = some x →
      x ∈ inorder (join d u p (join d v q w)) := by
    intro x hx
    simp only [mem_inorder_join]
    rcases hx with rfl | rfl | hx
    · simp
    · simp
    · simp [root_mem hx]
  have howner : ∀ x, c.owner = some x → x ≠ p ∧ x ≠ q := by
    intro x hx
    have hx' := Context.owner_mem hx
    refine ⟨?_, ?_⟩ <;> rintro rfl <;> exact h.disjoint (hmem x (by simp)) hx'
  have hnd := List.nodup_append.mp (Context.nodup_plug.mp h.nodup)
  have hpnot : p ∉ inorder u ++ inorder (join d v q w) :=
    (List.nodup_cons.mp ((inorder_join_perm d u p _).nodup_iff.mp hnd.1)).1
  have hqnot : q ∉ inorder v ++ inorder w := by
    have := (List.nodup_cons.mp ((inorder_join_perm d u p _).nodup_iff.mp hnd.1)).2
    exact (List.nodup_cons.mp
      ((inorder_join_perm d v q w).nodup_iff.mp (List.nodup_append.mp this).2.1)).1
  simp only [List.mem_append, mem_inorder_join, not_or] at hpnot hqnot
  obtain ⟨t', hrot, hchild, hparent, hroot, hclr, hitem, hext, hnode⟩ :=
    rotate_links hpo (by rw [hp]; exact howner)
  rw [hp] at hchild hparent hroot hnode
  rw [hqd] at hchild hparent hnode
  have hslot : ∀ e x, c.slot = some (e, x) ↔ c.owner = some x ∧ e = t.sideUnder x p := by
    intro e x
    cases c with
    | top => simp
    | step c f y r =>
        have hside := h.sideUnder (root_join d u p _)
        constructor
        · intro hx
          obtain ⟨rfl, rfl⟩ : f = e ∧ y = x := by simpa using hx
          exact ⟨rfl, hside.symm⟩
        · rintro ⟨hy, rfl⟩
          obtain rfl : y = x := by simpa using hy
          simp [hside]
  have hpowner : c.owner ≠ some p := fun hx => (howner p hx).1 rfl
  have hqowner : c.owner ≠ some q := fun hx => (howner q hx).2 rfl
  have hpq : p ≠ q := hpnot.2.1
  refine ⟨t', hrot, hclr, ⟨?_, ?_, ?_⟩, hitem, ?_, hext⟩
  · rw [hroot]
    cases c with
    | top => simp
    | step c f y r =>
        rw [Context.owner_step, if_neg (by simp), h.root, Context.plug_step, Context.plug_step]
        exact c.root_plug (by simp)
  · refine h.linked.rotate h.nodup ?_ ?_ ?_ ?_ ?_ ?_ ?_ ?_
    · simp [hchild, hpowner, hpq]
    · simp [hchild, hqowner]
    · simp [hparent, hpq]
    · simp [hparent]
    · intro x hx
      have hxp : x ≠ p := by rintro rfl; exact hpnot.2.2.1 (root_mem hx)
      have hxq : x ≠ q := by rintro rfl; exact hqnot.1 (root_mem hx)
      simp [hparent, hx, hxp, hxq]
    · intro e x hx
      simp [hchild, (hslot e x).mp hx]
    · intro e x hxp hxq hx
      rw [ne_eq, hslot] at hx
      simp [hchild, hx, hxp, hxq]
    · intro x hxp hxq hxv
      simp [hparent, hxp, hxq, hxv]
  · rw [Context.nodup_plug, inorder_rotate, ← Context.nodup_plug]
    exact h.nodup
  · intro x hx
    rw [Context.mem_inorder_plug, inorder_rotate, not_or] at hx
    refine hnode x ?_ ?_ ?_ ?_
    · rintro rfl; exact hx.1 (hmem x (by simp))
    · rintro rfl; exact hx.1 (hmem x (by simp))
    · exact fun hxv => hx.1 (hmem x (by simp [hxv]))
    · exact fun hxc => hx.2 (Context.owner_mem hxc)

theorem Rearranged.rotate (h : Rearranged cells t t') (hp : p ∈ cells)
    (hr : t'.rotate p d = some t'') : Rearranged cells t t'' := by
  obtain ⟨s, rfl, h⟩ := h
  obtain ⟨c, u, x, rfl⟩ := Context.exists_plug hp d
  have hx : t'.child d.other p = Lib.root x := h.holds.at_plug.2.2.1
  cases hq : Lib.root x with
  | none => simp [Tree.rotate, hx, hq] at hr
  | some q =>
      obtain ⟨v, w, rfl⟩ := eq_join_of_root hq d
      obtain ⟨t₁, hrot, -, hreshaped⟩ := rotate_spec h.holds
      obtain rfl : t₁ = t'' := by rw [hrot] at hr; exact Option.some.inj hr
      refine ⟨_, ?_, h.trans hreshaped ?_⟩
      · rw [Context.inorder_plug, inorder_rotate, ← Context.inorder_plug]
      · rw [Context.inorder_plug, inorder_rotate, ← Context.inorder_plug]

/-- The cells of a tree, in order. -/
def HoldsCells (t : Tree α σ) (cells : List Nat) : Prop :=
  ∃ s, inorder s = cells ∧ Holds t s

namespace HoldsCells

theorem nodup (h : HoldsCells t cells) : cells.Nodup := by
  obtain ⟨s, rfl, h⟩ := h
  exact h.nodup

theorem root_mem (h : HoldsCells t cells) (ha : t.root = some a) : a ∈ cells := by
  obtain ⟨s, rfl, h⟩ := h
  exact Lib.root_mem (h.root ▸ ha)

theorem root_eq_none (h : HoldsCells t cells) : t.root = none ↔ cells = [] := by
  obtain ⟨s, rfl, h⟩ := h
  rw [h.root]
  cases s <;> simp

/-- A tree is not touched by what is written to nodes outside of it. -/
theorem congr (h : HoldsCells t cells) (hroot : t'.root = t.root)
    (hnode : ∀ a ∈ cells, t'.node a = t.node a) :
    HoldsCells t' cells ∧ cells.map t'.item = cells.map t.item := by
  obtain ⟨s, rfl, h⟩ := h
  refine ⟨⟨s, rfl, h.congr hroot ?_ ?_⟩, List.map_congr_left ?_⟩
  · intro a ha d
    simp [Tree.child, hnode a ha]
  · intro a ha
    simp [Tree.parent, hnode a ha]
  · intro a ha
    simp [Tree.item, hnode a ha]

theorem relink (h : HoldsCells t cells) (hroot : t'.root = t.root)
    (hchild : ∀ a ∈ cells, ∀ d, t'.child d a = t.child d a)
    (hparent : ∀ a ∈ cells, t'.parent a = t.parent a) : HoldsCells t' cells := by
  obtain ⟨s, rfl, h⟩ := h
  exact ⟨s, rfl, h.congr hroot hchild hparent⟩

end HoldsCells

/-- The cells below `a` in order, as a walk over the child pointers finds them. -/
def Tree.walk (t : Tree α σ) : Nat → Option Nat → List Nat
  | 0, _ => []
  | _ + 1, none => []
  | fuel + 1, some a => t.walk fuel (t.child .left a) ++ a :: t.walk fuel (t.child .right a)

/-- The shape that the child pointers give below `a`. -/
def Tree.shape (t : Tree α σ) : Nat → Option Nat → BinaryTree Nat
  | 0, _ => .nil
  | _ + 1, none => .nil
  | fuel + 1, some a => .node a (t.shape fuel (t.child .left a)) (t.shape fuel (t.child .right a))

/-- The nodes of the tree in order, if its pointers are those of a tree. -/
def Tree.readCells (t : Tree α σ) (fuel : Nat) : Option (List Nat) :=
  if Holds t (t.shape fuel t.root) then some (inorder (t.shape fuel t.root)) else none

theorem HoldsCells.of_readCells {fuel : Nat} (h : t.readCells fuel = some cells) :
    HoldsCells t cells := by
  unfold Tree.readCells at h
  split at h
  · rename_i hholds
    exact ⟨_, Option.some.inj h, hholds⟩
  · cases h

theorem walk_eq (fuel : Nat) {up : Option Nat} (h : Linked t.links up s)
    (hfuel : (inorder s).length < fuel) : t.walk fuel (Lib.root s) = inorder s := by
  induction s generalizing fuel up with
  | nil =>
      obtain ⟨fuel, rfl⟩ : ∃ k, fuel = k + 1 := ⟨fuel - 1, by omega⟩
      rfl
  | node a l r ihl ihr =>
      obtain ⟨fuel, rfl⟩ : ∃ k, fuel = k + 1 := ⟨fuel - 1, by omega⟩
      simp only [inorder_node, List.length_append, List.length_cons] at hfuel
      obtain ⟨-, hl, hr, hll, hlr⟩ := h
      rw [Tree.links_child] at hl hr
      rw [root_node, Tree.walk, hl, hr, ihl fuel hll (by omega), ihr fuel hlr (by omega), inorder_node]

theorem HoldsCells.unique {cells' : List Nat} (h : HoldsCells t cells)
    (h' : HoldsCells t cells') : cells = cells' := by
  obtain ⟨s, rfl, hs⟩ := h
  obtain ⟨s', rfl, hs'⟩ := h'
  have hwalk := walk_eq ((inorder s).length + (inorder s').length + 1) hs.linked (by omega)
  have hwalk' := walk_eq ((inorder s).length + (inorder s').length + 1) hs'.linked (by omega)
  rw [← hs.root] at hwalk
  rw [← hs'.root] at hwalk'
  exact hwalk.symm.trans hwalk'

end UntitledOs.RbTree
