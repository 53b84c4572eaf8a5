import UntitledOs.Mtask.Bookkeeping
import UntitledOs.RbTree.DeleteOrder

/-!
# Removing a thread from a valid tree

`thread_tree_delete` of a red-black tree always returns, frees a node that is not in
the tree and keeps the handles.  The order of the other threads is kept only when the
left subtree of the node has at most one thread.
-/

namespace UntitledOs.Mtask

open UntitledOs.Lib UntitledOs.RbTree

variable {s : Sched} {t : Tree Nat Threads} {shape v w : BinaryTree Nat} {c : Context Nat}
  {cells : List Nat} {cpu n a b : Nat}

/-- The threads of a tree in order. -/
def threadsOf (s : Sched) (cpu : Nat) (shape : BinaryTree Nat) : List Nat :=
  (inorder shape).map (s.tree cpu).item

/-- A red-black tree in order of the `vruntime`s whose threads know their nodes. -/
structure ValidTree (s : Sched) (cpu : Nat) (shape : BinaryTree Nat) : Prop where
  holds : Holds (s.tree cpu) shape
  redBlack : ∃ h, RedBlack (s.tree cpu).Red shape h
  sorted : SortedBy s.thread (threadsOf s cpu shape)
  handles : Handles (s.tree cpu) (inorder shape)

/-- The deletion of `n` removes its thread and nothing else, and frees a node. -/
def RemovesThread (s : Sched) (cpu : Nat) (shape : BinaryTree Nat) (n : Nat) : Prop :=
  ∃ s' f shape', Returns (fun fuel => threadTreeDelete fuel s cpu n) (s', f) ∧
    Holds (s'.tree cpu) shape' ∧
    threadsOf s' cpu shape' = (threadsOf s cpu shape).erase ((s.tree cpu).item n) ∧
    Handles (s'.tree cpu) (inorder shape') ∧ f ∉ inorder shape'

/-- The left child of `n`, if there is one, has no children. -/
def LeftLeaf (s : Sched) (cpu n : Nat) : Prop :=
  ∀ l, (s.tree cpu).child .left n = some l → ∀ d, (s.tree cpu).child d l = none

theorem Handles.erase_item (h : Handles t cells) (hn : n ∈ cells) (hnd : cells.Nodup) :
    (cells.map t.item).erase (t.item n) = (cells.erase n).map t.item := by
  obtain ⟨pre, post, rfl⟩ := List.append_of_mem hn
  have hpre : n ∉ pre := fun hx => (List.nodup_append.mp hnd).2.2 n hx n (by simp) rfl
  have hitem : t.item n ∉ pre.map t.item := by
    intro hx
    obtain ⟨a, ha, heq⟩ := List.mem_map.mp hx
    obtain rfl := h.inj (by simp [ha]) hn heq
    exact hpre ha
  rw [List.map_append, List.map_cons, List.erase_append_right _ hitem, List.erase_cons_head,
    List.erase_append_right _ hpre, List.erase_cons_head, List.map_append]

/-- A list of different threads turned by one is another list, unless it is short. -/
theorem map_rotate_iff {xs : List Nat} {f : Nat → Nat} (hnd : (xs.map f).Nodup) :
    (xs.rotate 1).map f = xs.map f ↔ xs.length ≤ 1 := by
  match xs with
  | [] => simp
  | [a] => simp
  | a :: b :: rest =>
      simp only [List.map_cons, List.nodup_cons, List.mem_cons, not_or] at hnd
      simp [Ne.symm hnd.1.1]

theorem ValidTree.delete (h : ValidTree s cpu (c.plug (.node n v w))) :
    ∃ s' f shape', Returns (fun fuel => threadTreeDelete fuel s cpu n) (s', f) ∧
      Holds (s'.tree cpu) shape' ∧
      threadsOf s' cpu shape' =
        (c.before ++ ((inorder v).rotate 1 ++ (inorder w ++ c.after))).map (s.tree cpu).item ∧
      Handles (s'.tree cpu) (inorder shape') ∧ f ∉ inorder shape' := by
  obtain ⟨height, hb⟩ := h.redBlack
  obtain ⟨t', f, hret, hdel, horder⟩ := delete_rotates (k := threadTreeKind) (fun _ => rfl) h.holds hb
  have hn : n ∈ inorder (c.plug (.node n v w)) := by simp [Context.mem_inorder_plug]
  obtain ⟨shape', hshape', hholds⟩ := hdel.holds
  have hkeep : ∀ a ∈ inorder (c.plug (.node n v w)), a ≠ f → (t'.ext (t'.item a)).hndl = a := by
    obtain ⟨k, hk⟩ := hret
    exact (h.handles.delete (closed_of_holds ⟨_, rfl, h.holds⟩) hn (hk k le_rfl)).1
  refine ⟨s.putTree cpu t', f, shape', hret.map_eq rfl, ?_, ?_, ?_, ?_⟩
  · rwa [Sched.tree_putTree]
  · rw [threadsOf, Sched.tree_putTree, hshape', horder]
  · rw [Sched.tree_putTree, hshape']
    exact fun a ha => hkeep a (List.mem_of_mem_erase ha) fun haf =>
      h.holds.nodup.not_mem_erase (haf ▸ ha)
  · rw [hshape']
    exact h.holds.nodup.not_mem_erase

theorem ValidTree.nodup_items (h : ValidTree s cpu shape) : (threadsOf s cpu shape).Nodup :=
  h.holds.nodup.map_on fun _ ha _ hb heq => h.handles.inj ha hb heq

/-- The left subtree has at most one node. -/
theorem leftLeaf_iff (hh : Holds (s.tree cpu) (c.plug (.node n v w))) :
    LeftLeaf s cpu n ↔ (inorder v).length ≤ 1 := by
  obtain ⟨-, hl, -⟩ := Holds.at_plug (d := .left) hh
  cases v with
  | nil => simp [LeftLeaf, hl]
  | node l x y =>
      obtain ⟨-, hx, hy, -⟩ := Holds.at_plug (c := c.step .left n w) (d := .left) (p := l)
        (u := x) (v := y) hh
      rw [Side.other] at hy
      have hchild : LeftLeaf s cpu n ↔ ∀ d, (s.tree cpu).child d l = none := by
        constructor
        · exact fun h => h l hl
        · rintro h l' hl'
          obtain rfl := Option.some.inj (hl.symm.trans hl')
          exact h
      rw [hchild]
      constructor
      · intro h
        obtain rfl : x = .nil := root_eq_none.mp (hx.symm.trans (h .left))
        obtain rfl : y = .nil := root_eq_none.mp (hy.symm.trans (h .right))
        simp
      · intro hlen d
        simp only [inorder_node, List.length_append, List.length_cons] at hlen
        have hx₀ : x = .nil := inorder_eq_nil.mp (List.length_eq_zero_iff.mp (by omega))
        have hy₀ : y = .nil := inorder_eq_nil.mp (List.length_eq_zero_iff.mp (by omega))
        cases d with
        | left => rw [hx, hx₀, root_nil]
        | right => rw [hy, hy₀, root_nil]

/-- The order is kept exactly where the left subtree has at most one thread. -/
theorem ValidTree.removes_iff (h : ValidTree s cpu shape) (hn : n ∈ inorder shape) :
    RemovesThread s cpu shape n ↔ LeftLeaf s cpu n := by
  obtain ⟨c, v, w, rfl⟩ := Context.exists_plug hn .left
  rw [join] at h hn ⊢
  have hnd := h.nodup_items
  have herase : (threadsOf s cpu (c.plug (.node n v w))).erase ((s.tree cpu).item n) =
      (c.before ++ (inorder v ++ (inorder w ++ c.after))).map (s.tree cpu).item := by
    rw [threadsOf, h.handles.erase_item hn h.holds.nodup, Context.inorder_erase_node h.holds.nodup]
  have hv : ((inorder v).map (s.tree cpu).item).Nodup := by
    rw [threadsOf, Context.inorder_plug, inorder_node] at hnd
    simp only [List.map_append] at hnd
    exact (List.nodup_append.mp (List.nodup_append.mp (List.nodup_append.mp hnd).2.1).1).1
  obtain ⟨s', f, shape', hret, hholds, horder, hhandles, hfree⟩ := h.delete
  rw [leftLeaf_iff h.holds, ← map_rotate_iff hv]
  constructor
  · rintro ⟨s₂, f₂, shape₂, hret₂, hholds₂, hthreads, -⟩
    obtain ⟨rfl, rfl⟩ := Prod.mk.inj (hret.unique hret₂)
    have hcells : inorder shape' = inorder shape₂ :=
      HoldsCells.unique ⟨_, rfl, hholds⟩ ⟨_, rfl, hholds₂⟩
    rw [threadsOf, ← hcells, ← threadsOf, horder, herase] at hthreads
    simpa using hthreads
  · intro hturn
    refine ⟨s', f, shape', hret, hholds, ?_, hhandles, hfree⟩
    rw [horder, herase]
    simp only [List.map_append, hturn]

/-- Removing any thread of a valid tree: exactly where it goes right. -/
theorem thread_removal_iff (s : Sched) (cpu : Nat) (shape : BinaryTree Nat)
    (h : ValidTree s cpu shape) (n : Nat) (hn : n ∈ inorder shape) :
    RemovesThread s cpu shape n ↔ LeftLeaf s cpu n :=
  h.removes_iff hn

/-- Threads 4, 2, 1 and 3 in this order, on nodes of the same names, below node 1. -/
def fourThreads : Sched :=
  { blankSched with
    thread := fun th => ⟨if th = 4 then 0 else if th = 2 then 1 else if th = 1 then 2 else 3,
      defaultWeight, 0, 0, 0, th⟩
    node := fun a =>
      if a = 1 then ⟨1, .black, fun d => if d = .left then some 2 else some 3, none⟩
      else if a = 2 then ⟨2, .black, fun d => if d = .left then some 4 else none, some 1⟩
      else if a = 3 then ⟨3, .black, fun _ => none, some 1⟩
      else ⟨a, .red, fun _ => none, some 2⟩
    cpuTrees := fun _ => ⟨some 1, 4, 0, 0, 0, 0, false⟩ }

def fourShape : BinaryTree Nat :=
  .node 1 (.node 2 (.node 4 .nil .nil) .nil) (.node 3 .nil .nil)

theorem fourThreads_valid : ValidTree fourThreads 0 fourShape where
  holds := ⟨rfl, ⟨rfl, rfl, rfl, ⟨rfl, rfl, rfl, ⟨rfl, rfl, rfl, trivial, trivial⟩, trivial⟩,
    rfl, rfl, rfl, trivial, trivial⟩, by decide⟩
  redBlack := by
    have hblack : ∀ a, a = 1 ∨ a = 2 ∨ a = 3 → ¬ (fourThreads.tree 0).Red a := by
      rintro a (rfl | rfl | rfl) <;> exact fun h => Color.noConfusion h
    have hleaf : RedBlack (fourThreads.tree 0).Red (.node 4 .nil .nil) 0 :=
      .inl ⟨rfl, rootBlack_nil, rootBlack_nil, rfl, rfl⟩
    exact ⟨2, .inr ⟨hblack 1 (by simp), 1, rfl, .inr ⟨hblack 2 (by simp), 0, rfl, hleaf, rfl⟩,
      .inr ⟨hblack 3 (by simp), 0, rfl, rfl, rfl⟩⟩⟩
  sorted := by
    unfold SortedBy
    decide
  handles := by
    unfold Handles
    decide

theorem thread_removal_iff_four :
    RemovesThread fourThreads 0 fourShape 3 ↔ LeftLeaf fourThreads 0 3 :=
  thread_removal_iff fourThreads 0 fourShape fourThreads_valid 3 (by decide)

/-- Deleting node 1 puts thread 4 behind thread 2. -/
theorem thread_removal_reorders :
    ¬ ∀ (s : Sched) (cpu : Nat) (shape : BinaryTree Nat) (n : Nat), ValidTree s cpu shape →
      n ∈ inorder shape → RemovesThread s cpu shape n := by
  intro h
  have hremoves := h fourThreads 0 fourShape 1 fourThreads_valid (by decide)
  have hleaf := (fourThreads_valid.removes_iff (by decide)).mp hremoves 2 rfl .left
  cases hleaf

end UntitledOs.Mtask
