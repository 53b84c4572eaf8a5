import UntitledOs.RbTree.Rotate

/-!
# Insertion

`insert` puts the new node into the in-order sequence where the descent ends and
rearranges the rest.  Colours play no part in this, so nothing is asked of them.
-/

namespace UntitledOs.RbTree

open UntitledOs.Lib

variable {α σ : Type} {t t' : Tree α σ} {s v : BinaryTree Nat} {cells : List Nat}
  {left right : BinaryTree Nat}
  {c : Context Nat} {d f : Side} {a n p q g r fuel : Nat}

theorem rotate_exists (h : t.child d.other p = some q) : ∃ t', t.rotate p d = some t' :=
  ⟨_, by simp only [Tree.rotate, h, Option.map_some]; rfl⟩

theorem Holds.owner_ne (h : Holds t (c.plug v)) (hg : c.owner = some g) (ha : a ∈ inorder v) :
    g ≠ a := by
  rintro rfl
  exact h.disjoint ha (Context.owner_mem hg)

theorem insertOuter_rearranged (h : Rearranged cells t t') (hp : p ∈ cells) (hg : g ∈ cells)
    (hchild : t'.child d g = some q) :
    ∃ t'', t'.insertOuter p g d = some t'' ∧ Rearranged cells t t'' := by
  obtain ⟨t₁, hrot⟩ := rotate_exists (d := d.other) (by simpa using hchild)
  refine ⟨_, by simp only [Tree.insertOuter, hrot, Option.map_some]; rfl, ?_⟩
  exact (((h.rotate hg hrot).setClr hp _).setClr hg _)

theorem insertRotate_spec (h : Holds t (((c.step d g s).plug v))) (hv : Lib.root v = some p)
    (hn : n ∈ inorder v) :
    ∃ t', t.insertRotate n p g d = some t' ∧
      Rearranged (inorder ((c.step d g s).plug v)) t t' := by
  have hmem : ∀ x ∈ inorder v, x ∈ inorder ((c.step d g s).plug v) :=
    fun x hx => Context.mem_inorder_plug.mpr (.inl hx)
  have hg : g ∈ inorder ((c.step d g s).plug v) :=
    Context.mem_inorder_plug.mpr (.inr (by simp [Context.cells]))
  obtain ⟨x, y, rfl⟩ := eq_join_of_root hv d
  obtain ⟨hparent, hd, ho, -⟩ := Holds.at_plug (c := c.step d g s) h
  have hgd : t.child d g = some p := by simpa using h.slot_child (c := c.step d g s) rfl
  unfold Tree.insertRotate
  split
  · rename_i hinner
    have hgne : ∀ g', t.parent p = some g' → g' ≠ p ∧ g' ≠ n := by
      intro g' hg'
      have howner := hparent.symm.trans hg'
      exact ⟨h.owner_ne howner (root_mem hv), h.owner_ne howner hn⟩
    obtain ⟨t₁, hrot, hchild, -⟩ := rotate_links hinner hgne
    rw [hrot, Option.bind_some]
    have hslot : t₁.child d g = some n := by
      rw [hchild, if_pos ⟨hparent, (h.sideUnder (root_join ..)).symm⟩]
    rw [hslot, Option.bind_some]
    exact insertOuter_rearranged ((Rearranged.refl h).rotate (hmem p (root_mem hv)) hrot)
      (hmem n hn) hg hslot
  · exact insertOuter_rearranged (Rearranged.refl h) (hmem p (root_mem hv)) hg hgd

/-- A turn of the loop below a `p` that is not black: it ends if the uncle is, else goes on from `g`. -/
theorem insertLoop_turn (fuel : Nat) {r : BinaryTree Nat}
    (h : Holds t (((c.step f g r).step d p s).plug v)) (hp : t.clr p ≠ .black) :
    ((∀ u, Lib.root r = some u → t.clr u = .black) ∧
      Tree.insertLoop (fuel + 1) t n p = t.insertRotate n p g f) ∨
    ∃ u t₁, t₁ = ((t.setClr p .black).setClr u .black).setClr g .red ∧
      Lib.root r = some u ∧ t.clr u ≠ .black ∧ Holds t₁ (c.plug (join f (join d v p s) g r)) ∧
      Tree.insertLoop (fuel + 1) t n p = c.owner.elim (some t₁) (Tree.insertLoop fuel t₁ g) := by
  have hparent : t.parent p = some g := h.at_plug.1
  have hside : t.sideUnder g p = f := Holds.sideUnder (v := join d v p s) h (root_join ..)
  have hgr : t.child f.other g = Lib.root r := (Holds.at_plug (u := join d v p s) h).2.2.1
  have hgp : t.parent g = c.owner := (Holds.at_plug (u := join d v p s) h).1
  rw [Tree.insertLoop, if_neg hp, hparent]
  simp only [hside, hgr]
  cases hu : Lib.root r with
  | none => exact .inl ⟨by simp, rfl⟩
  | some u =>
      by_cases hblack : t.clr u = .black
      · refine .inl ⟨?_, if_pos hblack⟩
        intro x hx
        obtain rfl : u = x := by simpa using hx
        exact hblack
      · refine .inr ⟨u, _, rfl, rfl, hblack, by simpa [Context.plug_step] using h, ?_⟩
        simp only [if_neg hblack, Tree.parent_setClr, hgp]
        cases c.owner <;> rfl

theorem insertLoop_spec (h : Holds t ((c.step d p s).plug v)) (hv : Lib.root v = some n)
    (hfuel : c.depth < fuel) :
    ∃ t', Tree.insertLoop fuel t n p = some t' ∧
      Rearranged (inorder ((c.step d p s).plug v)) t t' := by
  induction fuel using Nat.strong_induction_on generalizing t c d p s v n with
  | _ fuel ih =>
      obtain ⟨fuel, rfl⟩ : ∃ k, fuel = k + 1 := ⟨fuel - 1, by omega⟩
      have hp : p ∈ inorder ((c.step d p s).plug v) :=
        Context.mem_inorder_plug.mpr (.inr (by simp [Context.cells]))
      by_cases hblack : t.clr p = .black
      · exact ⟨t, by rw [Tree.insertLoop, if_pos hblack], Rearranged.refl h⟩
      cases c with
      | top =>
          have hparent : t.parent p = none := h.at_plug.1
          exact ⟨_, by rw [Tree.insertLoop, if_neg hblack, hparent], (Rearranged.refl h).setClr hp _⟩
      | step c f g r =>
          obtain ⟨-, hturn⟩ | ⟨u, t₁, ht₁, hu, -, hholds, hturn⟩ :=
            insertLoop_turn (n := n) fuel h hblack
          · rw [hturn]
            exact insertRotate_spec (n := n) (v := join d v p s) h (root_join ..)
              (by simp [mem_inorder_join, root_mem hv])
          have hg : g ∈ inorder (((c.step f g r).step d p s).plug v) := by
            simp [Context.mem_inorder_plug, Context.cells]
          have hur : u ∈ inorder (((c.step f g r).step d p s).plug v) := by
            simp [Context.mem_inorder_plug, Context.cells, root_mem hu]
          have hclr : Rearranged (inorder (((c.step f g r).step d p s).plug v)) t t₁ := by
            rw [ht₁]
            exact (((Rearranged.refl h).setClr hp .black).setClr hur .black).setClr hg .red
          rw [hturn]
          cases c with
          | top => exact ⟨t₁, rfl, hclr⟩
          | step c e y z =>
              obtain ⟨t', hloop, hre⟩ :=
                ih fuel (by omega) (c := c) (d := e) (p := y) (s := z) hholds (root_join ..)
                  (by simp only [Context.depth] at hfuel; omega)
              exact ⟨t', hloop, hclr.trans hre⟩

/-- The store with `n` written into the hole of a context as a leaf. -/
theorem Holds.graft (h : Holds t ((c.step d p s).plug .nil)) (hn : n ∉ inorder ((c.step d p s).plug .nil))
    (hroot : t'.root = t.root) (hslot : t'.child d p = some n)
    (hleaf : ∀ e, t'.child e n = none) (hup : t'.parent n = some p)
    (hchild : ∀ e x, x ≠ n → ¬(x = p ∧ e = d) → t'.child e x = t.child e x)
    (hparent : ∀ x, x ≠ n → t'.parent x = t.parent x) :
    Holds t' ((c.step d p s).plug (.node n .nil .nil)) := by
  have hn' : n ∉ (c.step d p s).cells := by
    rw [Context.mem_inorder_plug] at hn
    exact fun hc => hn (.inr hc)
  have hnd : (c.step d p s).cells.Nodup := by simpa using Context.nodup_plug.mp h.nodup
  refine ⟨?_, ?_, ?_⟩
  · rw [hroot, h.root, Context.plug_step, Context.plug_step]
    exact c.root_plug (by simp)
  · rw [linked_plug]
    refine ⟨(linked_plug.mp h.linked).1.refill hnd ?_ ?_ ?_, hup, hleaf _, hleaf _, trivial, trivial⟩
    · intro e x hx
      obtain ⟨rfl, rfl⟩ : d = e ∧ p = x := by simpa using hx
      exact hslot
    · intro x hx e hne
      refine hchild e x (by rintro rfl; exact hn' hx) ?_
      rintro ⟨rfl, rfl⟩
      exact hne rfl
    · intro x hx
      exact hparent x (by rintro rfl; exact hn' hx)
  · rw [Context.nodup_plug]
    simpa using ⟨hn', hnd⟩

/-- The new node where `insertp` has put it, before its loop. -/
theorem Holds.grafted (h : Holds t ((c.step d p s).plug .nil))
    (hn : n ∉ inorder ((c.step d p s).plug .nil)) :
    Holds ((((((t.setChild d p (some n)).clearChildren n).setClr n .red).clearChildren n).setParent n
      (some p)).setChild d p (some n)) ((c.step d p s).plug (.node n .nil .nil)) := by
  have hpn : p ≠ n := by
    rintro rfl
    simp [Context.mem_inorder_plug, Context.cells] at hn
  refine h.graft hn ?_ ?_ ?_ ?_ ?_ ?_
  · simp
  · simp
  · intro e
    simp [Ne.symm hpn]
  · simp
  · intro e x hx hne
    simp [hx, hne]
  · intro x hx
    simp [hx]

/-- What one level of the descent finds at the end of a branch. -/
theorem insertp_spec (fuel : Nat) (h : Holds t ((c.step d p s).plug .nil))
    (hn : n ∉ inorder ((c.step d p s).plug .nil)) (hfuel : c.depth < fuel) :
    ∃ t', Tree.insertp fuel ((t.setChild d p (some n)).clearChildren n) n (some p) d = some t' ∧
      Rearranged (inorder ((c.step d p s).plug (.node n .nil .nil))) t t' := by
  have hholds := h.grafted hn
  unfold Tree.insertp
  set t₁ := ((((t.setChild d p (some n)).clearChildren n).setClr n .red).clearChildren n).setParent n
    (some p) with ht₁
  obtain ⟨t', hloop, s', hs', hre⟩ := insertLoop_spec hholds (root_node ..) hfuel
  refine ⟨t', hloop, s', hs', hre.holds, ?_, ?_, ?_⟩
  · intro x
    simp [hre.item, ht₁]
  · intro x hx
    rw [hre.frame x hx]
    have hxn : x ≠ n := by
      rintro rfl
      rw [hs'] at hx
      simp [Context.mem_inorder_plug] at hx
    have hxp : x ≠ p := by
      rintro rfl
      rw [hs'] at hx
      simp [Context.mem_inorder_plug, Context.cells] at hx
    simp [ht₁, hxn, hxp, Tree.node_clearChildren_of_ne]
  · simp [hre.ext, ht₁]

/--
`cells` is cut in front of the first cell that `n` sorts before, provided that
all cells behind such a cell are of that kind too.
-/
def SplitsAt (before : Nat → Bool) (cells pre post : List Nat) : Prop :=
  cells = pre ++ post ∧
    (cells.Pairwise (fun a b => before a → before b) →
      (∀ a ∈ pre, before a = false) ∧ ∀ a ∈ post, before a = true)

namespace SplitsAt

variable {before : Nat → Bool} {pre post left right : List Nat}

theorem nil : SplitsAt before [] [] [] := ⟨rfl, by simp⟩

theorem append_right (h : SplitsAt before left pre post) (ha : before a = true)
    (right : List Nat) : SplitsAt before (left ++ a :: right) pre (post ++ a :: right) := by
  refine ⟨by rw [h.1, List.append_assoc], ?_⟩
  intro hmono
  rw [List.pairwise_append, List.pairwise_cons] at hmono
  obtain ⟨hpre, hpost⟩ := h.2 hmono.1
  refine ⟨hpre, ?_⟩
  intro x hx
  rw [List.mem_append, List.mem_cons] at hx
  rcases hx with hx | rfl | hx
  · exact hpost x hx
  · exact ha
  · exact hmono.2.1.1 x hx ha

theorem append_left (h : SplitsAt before right pre post) (ha : before a = false)
    (left : List Nat) : SplitsAt before (left ++ a :: right) (left ++ a :: pre) post := by
  refine ⟨by rw [h.1, List.append_assoc, List.cons_append], ?_⟩
  intro hmono
  rw [List.pairwise_append, List.pairwise_cons] at hmono
  obtain ⟨hpre, hpost⟩ := h.2 hmono.2.1.2
  refine ⟨?_, hpost⟩
  intro x hx
  rw [List.mem_append, List.mem_cons] at hx
  rcases hx with hx | rfl | hx
  · have himp := hmono.2.2 x hx a (by simp)
    rw [ha] at himp
    simpa using himp
  · exact ha
  · exact hpre x hx

end SplitsAt

/-- On the way from the hole to the root every comparison with the new node went this way. -/
def Follows (before : Nat → Bool) : Context Nat → Prop
  | .top => True
  | .step c d p _ => d = (if before p then Side.left else Side.right) ∧ Follows before c

/--
Where the descent with `n` from the root of `v` ends: at the empty side `d` of
`p`, with `rest` turns left for the loop and `v` cut into `pre` and `post`.
-/
structure Descent (k : TreeKind α σ) (t : Tree α σ) (n fuel r : Nat) (c : Context Nat)
    (v : BinaryTree Nat) (c' : Context Nat) (d : Side) (p : Nat) (u : BinaryTree Nat) (rest : Nat)
    (pre post : List Nat) : Prop where
  inserts : Tree.insertFrom k fuel t n r =
    Tree.insertp rest ((t.setChild d p (some n)).clearChildren n) n (some p) d
  hole : (c'.step d p u).plug .nil = c.plug v
  follows : Follows (fun a => k.less t.ext (t.item n) (t.item a)) (c'.step d p u)
  deep : c'.depth < rest
  split : SplitsAt (fun a => k.less t.ext (t.item n) (t.item a)) (inorder v) pre post
  before : (c'.step d p u).before = c.before ++ pre
  after : (c'.step d p u).after = post ++ c.after

/-- One turn of the descent: the side of `a` that the comparison picks is empty, or the descent goes on. -/
theorem insertFrom_descends (k : TreeKind α σ) (fuel : Nat) (h : Holds t (c.plug v))
    (hr : Lib.root v = some r)
    (hfollows : Follows (fun a => k.less t.ext (t.item n) (t.item a)) c)
    (hfuel : (inorder v).length + (inorder (c.plug v)).length < fuel) :
    ∃ c' d p u rest pre post, Descent k t n fuel r c v c' d p u rest pre post := by
  induction v generalizing c r fuel with
  | nil => simp at hr
  | node a left right ihl ihr =>
      obtain rfl : a = r := by simpa using hr
      obtain ⟨fuel, rfl⟩ : ∃ k, fuel = k + 1 := ⟨fuel - 1, by omega⟩
      obtain ⟨-, hleft, hright, -⟩ := Holds.at_plug (d := .left) (u := left) (p := a) (v := right) h
      rw [Side.other] at hright
      have hdepth := c.depth_lt (.node a left right)
      simp only [inorder_node, List.length_append, List.length_cons] at hfuel hdepth
      cases hless : k.less t.ext (t.item n) (t.item a) with
      | true =>
          have hfollows' : Follows (fun a => k.less t.ext (t.item n) (t.item a))
              (c.step .left a right) := ⟨by simp [hless], hfollows⟩
          cases left with
          | nil =>
              refine ⟨c, .left, a, right, fuel, [], a :: inorder right, ?_, rfl, hfollows', by omega,
                SplitsAt.nil.append_right hless _, ?_, ?_⟩
              · simp [Tree.insertFrom, hless, hleft]
              · simp [Context.before]
              · simp [Context.after]
          | node b l r =>
              obtain ⟨c', d, p, u, rest, pre, post, hd⟩ := ihl (c := c.step .left a right)
                (r := b) fuel h rfl hfollows'
                (by simp only [inorder_node, List.length_append, List.length_cons,
                      Context.plug_step, join] at hfuel ⊢; omega)
              refine ⟨c', d, p, u, rest, pre, post ++ a :: inorder right, ?_, hd.hole, hd.follows,
                hd.deep, hd.split.append_right hless _, ?_, ?_⟩
              · simpa [Tree.insertFrom, hless, hleft] using hd.inserts
              · rw [hd.before, Context.before]
              · rw [hd.after, Context.after, List.append_assoc]
      | false =>
          have hfollows' : Follows (fun a => k.less t.ext (t.item n) (t.item a))
              (c.step .right a left) := ⟨by simp [hless], hfollows⟩
          cases right with
          | nil =>
              refine ⟨c, .right, a, left, fuel, inorder left ++ [a], [], ?_, rfl, hfollows', by omega,
                SplitsAt.nil.append_left hless _, ?_, ?_⟩
              · simp [Tree.insertFrom, hless, hright]
              · simp [Context.before]
              · simp [Context.after]
          | node b l r =>
              obtain ⟨c', d, p, u, rest, pre, post, hd⟩ := ihr (c := c.step .right a left)
                (r := b) fuel h rfl hfollows'
                (by simp only [inorder_node, List.length_append, List.length_cons,
                      Context.plug_step, join] at hfuel ⊢; omega)
              refine ⟨c', d, p, u, rest, inorder left ++ a :: pre, post, ?_, hd.hole, hd.follows,
                hd.deep, hd.split.append_left hless _, ?_, ?_⟩
              · simpa [Tree.insertFrom, hless, hright] using hd.inserts
              · rw [hd.before, Context.before]
                simp
              · rw [hd.after, Context.after]

theorem Tree.insert_descends (k : TreeKind α σ) (h : Holds t (.node a left right))
    (hfuel : 2 * (inorder (.node a left right)).length < fuel) :
    ∃ c d p u rest pre post, Tree.insert k fuel t n = Tree.insertFrom k fuel t n a ∧
      Descent k t n fuel a .top (.node a left right) c d p u rest pre post := by
  obtain ⟨c, d, p, u, rest, pre, post, hd⟩ := insertFrom_descends (c := .top) (n := n) k fuel h
    (root_node ..) trivial (by rw [Context.plug_top]; omega)
  refine ⟨c, d, p, u, rest, pre, post, ?_, hd⟩
  simp only [Tree.insert, h.root, root_node]

/-- The first node of a tree. -/
theorem Holds.first : Holds
    ((((t.setClr n .black).clearChildren n).setParent n none).setRoot (some n)) (.node n .nil .nil) := by
  refine ⟨?_, ?_, ?_⟩
  · simp
  · refine ⟨?_, ?_, ?_, trivial, trivial⟩ <;> simp
  · simp

/-- `insert` returns, and the new node is cut into the in-order sequence. -/
theorem insert_spec (k : TreeKind α σ) (fuel : Nat) (h : Holds t s) (hn : n ∉ inorder s)
    (hfuel : 2 * (inorder s).length < fuel) :
    ∃ pre post t', Tree.insert k fuel t n = some t' ∧
      SplitsAt (fun a => k.less t.ext (t.item n) (t.item a)) (inorder s) pre post ∧
      Rearranged (pre ++ n :: post) t t' := by
  cases s with
  | nil =>
      refine ⟨[], [], _, by simp only [Tree.insert, h.root]; rfl, SplitsAt.nil,
        .node n .nil .nil, rfl, Holds.first, ?_, ?_, ?_⟩
      · simp
      · intro x hx
        simp only [inorder_node, inorder_nil, List.nil_append, List.mem_singleton] at hx
        simp [hx]
      · simp
  | node a l r =>
      obtain ⟨c, d, p, u, rest, pre, post, hinsert, hd⟩ := Tree.insert_descends (n := n) k h hfuel
      rw [← Context.plug_top (.node a l r), ← hd.hole] at h hn
      obtain ⟨t', hins, hre⟩ := insertp_spec rest h hn hd.deep
      refine ⟨pre, post, t', by rw [hinsert, hd.inserts, hins], hd.split, ?_⟩
      rw [Context.inorder_plug, hd.before, hd.after] at hre
      simpa [Context.before, Context.after] using hre

theorem HoldsCells.insert (k : TreeKind α σ) (h : HoldsCells t cells) (hn : n ∉ cells) :
    ∃ pre post t', Returns (fun fuel => t.insert k fuel n) t' ∧
      SplitsAt (fun a => k.less t.ext (t.item n) (t.item a)) cells pre post ∧
      HoldsCells t' (pre ++ n :: post) ∧ (pre ++ n :: post).Perm (n :: cells) ∧
      (∀ a, t'.item a = t.item a) ∧ t'.ext = t.ext := by
  obtain ⟨s, rfl, h⟩ := h
  obtain ⟨pre, post, t', hins, hsplit, s', hcells, hre⟩ :=
    insert_spec k (2 * (inorder s).length + 1) h hn (by omega)
  refine ⟨pre, post, t', (Tree.insert_steady _ _ _).returns _ hins, hsplit,
    ⟨s', hcells, hre.holds⟩, ?_, hre.item, hre.ext⟩
  rw [hsplit.1]
  exact List.perm_middle

end UntitledOs.RbTree
