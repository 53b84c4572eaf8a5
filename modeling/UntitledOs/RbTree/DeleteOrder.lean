import Mathlib.Data.List.Rotate
import UntitledOs.RbTree.Balance

/-!
# The order after a deletion

In a red-black tree every deletion returns.  A node with two children changes its
item with the leftmost node below it, which is in its left subtree and not next to
it in order: the items of the left subtree turn by one.
-/

namespace UntitledOs.RbTree

open UntitledOs.Lib

variable {α σ : Type} {k : TreeKind α σ} {t : Tree α σ} {s v w : BinaryTree Nat}
  {c : Context Nat} {n u h fuel : Nat}

theorem Tree.clr_swapItems (hstored : ∀ x, k.stored x = x) (n u x : Nat) :
    (t.swapItems k n u).clr x = t.clr x := by
  simp only [Tree.swapItems, hstored, Tree.clr_setExt, Tree.clr_setClr, Tree.clr_setItem]
  split_ifs with hu hun hn <;> simp_all

theorem redBlack_swapItems (hstored : ∀ x, k.stored x = x) (hb : RedBlack t.Red s h) (n u : Nat) :
    RedBlack (t.swapItems k n u).Red s h :=
  hb.congr fun x _ => by rw [Tree.Red, Tree.Red, Tree.clr_swapItems hstored]

theorem deleteSafeAny_of_redBlack (hstored : ∀ x, k.stored x = x) (hh : Holds t s)
    (hb : RedBlack t.Red s h) (hn : n ∈ inorder s) : DeleteSafeAny k t n := by
  unfold DeleteSafeAny
  split
  · rename_i hone
    exact deleteSafe_of_redBlack hh hb hn hone
  · rename_i hone
    intro u hu
    obtain ⟨u', hrep⟩ := hh.exists_replaced k hn hone
    obtain rfl := hrep.leftmost.unique hu
    exact deleteSafe_of_redBlack hrep.holds (redBlack_swapItems hstored hb n u') hrep.mem
      (.inl hrep.left)

theorem Context.inorder_erase_node (hnd : (inorder (c.plug (.node n v w))).Nodup) :
    (inorder (c.plug (.node n v w))).erase n = c.before ++ (inorder v ++ (inorder w ++ c.after)) := by
  rw [Context.inorder_plug, inorder_node, List.append_assoc, List.cons_append] at hnd ⊢
  rw [← List.append_assoc] at hnd ⊢
  have hn : n ∉ c.before ++ inorder v := fun hx =>
    (List.nodup_append.mp hnd).2.2 n hx n (by simp) rfl
  rw [List.erase_append_right _ hn, List.erase_cons_head, List.append_assoc]

/-- The list after `n` has taken the value of `u`, which is gone. -/
theorem map_swapped {β : Type} {f g : Nat → β} {pre rest post : List Nat}
    (hnd : (pre ++ u :: (rest ++ n :: post)).Nodup) (hn : g n = f u)
    (hsame : ∀ x, x ≠ n → x ≠ u → g x = f x) :
    ((pre ++ u :: (rest ++ n :: post)).erase u).map g = (pre ++ (rest ++ u :: post)).map f := by
  obtain ⟨-, htail, hpre⟩ := List.nodup_append.mp hnd
  obtain ⟨hu, htail⟩ := List.nodup_cons.mp htail
  obtain ⟨-, hpost, hrest⟩ := List.nodup_append.mp htail
  have hn' : n ∉ post := (List.nodup_cons.mp hpost).1
  have hkeep : ∀ xs : List Nat, n ∉ xs → u ∉ xs → xs.map g = xs.map f := by
    intro xs hnx hux
    refine List.map_congr_left fun x hx => hsame x ?_ ?_
    · rintro rfl
      exact hnx hx
    · rintro rfl
      exact hux hx
  have hupre : u ∉ pre := fun hx => hpre u hx u (by simp) rfl
  rw [List.erase_append_right _ hupre, List.erase_cons_head]
  simp only [List.map_append, List.map_cons, hn]
  rw [hkeep pre (fun hx => hpre n hx n (by simp) rfl) hupre,
    hkeep rest (fun hx => hrest n hx n (by simp) rfl) (fun hx => hu (by simp [hx])),
    hkeep post hn' fun hx => hu (by simp [hx])]

/-- The items of the left subtree stand turned by one where those of the subtree were. -/
theorem delete_rotates (hstored : ∀ x, k.stored x = x) (hh : Holds t (c.plug (.node n v w)))
    (hb : RedBlack t.Red (c.plug (.node n v w)) h) :
    ∃ t' f, Returns (fun fuel => t.delete k fuel n) (t', f) ∧
      Deleted k t t' (inorder (c.plug (.node n v w))) n f ∧
      ((inorder (c.plug (.node n v w))).erase f).map t'.item =
        (c.before ++ ((inorder v).rotate 1 ++ (inorder w ++ c.after))).map t.item := by
  have hn : n ∈ inorder (c.plug (.node n v w)) := by simp [Context.mem_inorder_plug]
  have hsafe := deleteSafeAny_of_redBlack hstored hh hb hn
  obtain ⟨t', f, hret, hdel⟩ := HoldsCells.delete (k := k) ⟨_, rfl, hh⟩ hn hsafe
  refine ⟨t', f, hret, hdel, ?_⟩
  obtain ⟨-, hl, hr, -⟩ := Holds.at_plug (d := .left) hh
  rw [Side.other] at hr
  by_cases hone : t.child .left n = none ∨ t.child .right n = none
  · -- the left subtree has at most one node
    have hturn : (inorder v).rotate 1 = inorder v := by
      rcases hone with hnone | hnone
      · obtain rfl : v = .nil := root_eq_none.mp (hl.symm.trans hnone)
        rfl
      · obtain rfl : w = .nil := root_eq_none.mp (hr.symm.trans hnone)
        cases v with
        | nil => rfl
        | node b l r =>
            obtain ⟨j, hb⟩ := Context.redBlack_of_plug hb
            obtain ⟨-, -, b, hleaf, -⟩ := RedBlack.only_child (d := .left) hb (by simp)
            cases hleaf
            simp
    rw [DeleteSafeAny, if_pos hone] at hsafe
    obtain ⟨t₂, f₂, hone, -, hkeeps⟩ := delete_one (k := k) hh hn hone hsafe 0
    obtain ⟨rfl, rfl⟩ := Prod.mk.inj (hret.unique ((Tree.delete_steady _ _ _).returns _ hone))
    rw [hkeeps, Context.inorder_erase_node hh.nodup, hturn]
  · rw [not_or] at hone
    have hv : v ≠ .nil := by
      rintro rfl
      exact hone.1 hl
    have hw : w ≠ .nil := by
      rintro rfl
      exact hone.2 hr
    obtain ⟨u, rest, hrest⟩ : ∃ u rest, inorder v = u :: rest := by
      cases v with
      | nil => exact absurd rfl hv
      | node a l r => exact List.exists_cons_of_ne_nil (by simp)
    have hrep : Replaced k t (c.plug (.node n v w)) n u := hh.replaced hv hw (by rw [hrest]; rfl)
    obtain ⟨t₂, f₂, hone, -, hkeeps⟩ := delete_one (k := k) hrep.holds hrep.mem (.inl hrep.left)
      (deleteSafe_of_redBlack hrep.holds (redBlack_swapItems hstored hb n u) hrep.mem
        (.inl hrep.left)) ((inorder (c.plug (.node n v w))).length)
    have hnext := hrep.next ((inorder (c.plug (.node n v w))).length + 5) (by omega)
    rw [hone] at hnext
    obtain ⟨rfl, rfl⟩ := Prod.mk.inj (hret.unique ((Tree.delete_steady _ _ _).returns _ hnext))
    have hnd := hh.nodup
    rw [hkeeps, Context.inorder_plug, inorder_node, hrest]
    rw [Context.inorder_plug, inorder_node, hrest] at hnd
    simp only [List.append_assoc, List.cons_append, List.rotate_cons_succ, List.rotate_zero,
      List.nil_append] at hnd ⊢
    refine map_swapped hnd ?_ fun x hxn hxu => ?_
    · simp [hrep.ne]
    · simp [hxn, hxu]

end UntitledOs.RbTree
