import UntitledOs.RbTree.Insert

/-!
# The repair of two black nodes in a row

`TREE_GET_SIBLING` of a node that hangs in the tree is the node itself, so
`delete_fixbb` does not do what its cases are written for.  Whenever it returns
it has only rearranged the tree.  What it needs in order to return depends on
whether the node still hangs in the tree (`deleteFixbb_attached`) or was
already replaced by its child (`deleteFixbb_left`, `deleteFixbb_right`).
-/

namespace UntitledOs.RbTree

open UntitledOs.Lib

variable {α σ : Type} {t t' t₁ : Tree α σ} {s v r : BinaryTree Nat} {cells : List Nat}
  {c : Context Nat} {d e : Side} {a m n p q g x : Nat} {fuel : Nat}

theorem Rearranged.parent_mem (h : Rearranged cells t t')
    (hn : ∀ p, t.parent n = some p → p ∈ cells) : ∀ p, t'.parent n = some p → p ∈ cells := by
  obtain ⟨s, rfl, h⟩ := h
  intro p hp
  by_cases hmem : n ∈ inorder s
  · exact h.holds.parent_mem hmem hp
  · exact hn p (by rw [← hp, Tree.parent_of_node (h.frame n hmem)])

theorem redChild_some (h : t.redChild e a = some x) : t.child e a = some x ∧ t.clr x = .red := by
  simpa [Tree.redChild, Option.filter_eq_some_iff] using h

theorem redChild_none : t.redChild e a = none ↔ ∀ x, t.child e a = some x → t.clr x = .black := by
  cases h : t.child e a with
  | none => simp [Tree.redChild, h]
  | some y =>
      cases hc : t.clr y <;> simp [Tree.redChild, h, hc, Option.filter]

theorem fixbbRotate_rearranged (h : Rearranged cells t t₁) (hp : p ∈ cells) (ha : a ∈ cells)
    (hx : x ∈ cells) (hr : t₁.fixbbRotate p a x d e = some t') : Rearranged cells t t' := by
  unfold Tree.fixbbRotate at hr
  split at hr
  · obtain ⟨t₂, hrot, rfl⟩ := Option.map_eq_some_iff.mp hr
    exact (((h.setClr hx _).setClr ha _).rotate hp hrot).setClr hp _
  · obtain ⟨t₂, hrot, hr⟩ := Option.bind_eq_some_iff.mp hr
    obtain ⟨t₃, hrot', rfl⟩ := Option.map_eq_some_iff.mp hr
    exact (((h.setClr hx _).rotate ha hrot).rotate hp hrot').setClr hp _

/-- Whatever the colours, a repair that returns has only rearranged the nodes. -/
theorem deleteFixbb_rearranged (h : Holds t s)
    (hn : ∀ p, t.parent n = some p → p ∈ inorder s)
    (hr : Tree.deleteFixbb fuel t n = some t') : Rearranged (inorder s) t t' := by
  induction fuel generalizing t s n with
  | zero => simp [Tree.deleteFixbb] at hr
  | succ fuel ih =>
      have hstep : ∀ {t₁ n}, Rearranged (inorder s) t t₁ →
          (∀ p, t₁.parent n = some p → p ∈ inorder s) →
          Tree.deleteFixbb fuel t₁ n = some t' → Rearranged (inorder s) t t' := by
        intro t₁ n hre hn hr
        obtain ⟨s', hs', h'⟩ := hre
        rw [← hs'] at hn ⊢
        exact Rearranged.trans ⟨s', rfl, h'⟩ (ih h'.holds hn hr)
      unfold Tree.deleteFixbb at hr
      split at hr
      · obtain rfl : t = t' := Option.some.inj hr
        exact Rearranged.refl h
      cases hp : t.parent n with
      | none =>
          simp only [hp] at hr
          split at hr
          · obtain rfl : t = t' := Option.some.inj hr
            exact Rearranged.refl h
          · cases hr
      | some p =>
          have hpmem := hn p hp
          simp only [hp] at hr
          cases hsib : t.getSibling n with
          | none =>
              simp only [hsib] at hr
              exact hstep (Rearranged.refl h) (fun q hq => h.parent_mem hpmem hq) hr
          | some a =>
              have ha : a ∈ inorder s := by
                rw [Tree.getSibling, hp, Option.bind_some] at hsib
                exact h.child_mem hpmem hsib
              simp only [hsib] at hr
              split at hr
              · obtain ⟨d, -, hr⟩ := Option.bind_eq_some_iff.mp hr
                obtain ⟨t₂, hrot, hr⟩ := Option.bind_eq_some_iff.mp hr
                have hre := (((Rearranged.refl h).setClr hpmem .red).setClr ha .black).rotate
                  hpmem hrot
                exact hstep hre (hre.parent_mem hn) hr
              split at hr
              · rename_i x _ hx
                obtain ⟨d, -, hr⟩ := Option.bind_eq_some_iff.mp hr
                exact fixbbRotate_rearranged (Rearranged.refl h) hpmem ha
                  (h.child_mem ha (redChild_some hx).1) hr
              · rename_i x _ hx
                obtain ⟨d, -, hr⟩ := Option.bind_eq_some_iff.mp hr
                exact fixbbRotate_rearranged (Rearranged.refl h) hpmem ha
                  (h.child_mem ha (redChild_some hx).1) hr
              · have hre := (Rearranged.refl h).setClr ha .red
                split at hr
                · exact hstep hre (hre.parent_mem hn) hr
                · obtain rfl : _ = t' := Option.some.inj hr
                  exact hre.setClr hpmem _

/-- No child of `a` is red. -/
def BlackBelow (t : Tree α σ) (a : Nat) : Prop :=
  ∀ e x, t.child e a = some x → t.clr x = .black

instance : Decidable (BlackBelow t a) :=
  decidable_of_iff ((∀ x ∈ t.child .left a, t.clr x = .black) ∧
      ∀ x ∈ t.child .right a, t.clr x = .black)
    ⟨fun h e x hx => by
      cases e with
      | left => exact h.1 x hx
      | right => exact h.2 x hx, fun h => ⟨h .left, h .right⟩⟩

section Attached

theorem Holds.child_ne (h : Holds t (c.plug v)) (hv : Lib.root v = some m)
    (hx : t.child e m = some x) : x ∈ inorder v ∧ x ≠ m := by
  obtain ⟨y, z, rfl⟩ := eq_join_of_root hv e
  obtain ⟨-, hd, -⟩ := h.at_plug
  have hxy : Lib.root y = some x := by rw [← hd, hx]
  refine ⟨by simp [mem_inorder_join, root_mem hxy], ?_⟩
  have hnd := (List.nodup_append.mp (Context.nodup_plug.mp h.nodup)).1
  rw [(inorder_join_perm e y m z).nodup_iff, List.nodup_cons] at hnd
  rintro rfl
  exact hnd.1 (by simp [root_mem hxy])

theorem BlackBelow.setClr (hb : BlackBelow t m) (h : Holds t (c.plug v))
    (hv : Lib.root v = some m) (ha : a = m ∨ a ∈ c.cells) (k : Color) :
    BlackBelow (t.setClr a k) m := by
  intro e x hx
  rw [Tree.child_setClr] at hx
  obtain ⟨hmem, hne⟩ := h.child_ne hv hx
  have hxa : x ≠ a := by
    rcases ha with rfl | ha
    · exact hne
    · rintro rfl; exact h.disjoint hmem ha
  simpa [hxa] using hb e x hx

/-- The links of a node that hangs in the tree below `g`. -/
theorem Holds.attached (h : Holds t ((c.step d g r).plug v)) (hv : Lib.root v = some m) :
    t.root ≠ some m ∧ t.parent m = some g ∧ t.getSibling m = some m ∧ t.dirChild m = some d := by
  obtain ⟨y, z, rfl⟩ := eq_join_of_root hv .left
  have hp : t.parent m = some g := h.at_plug.1
  refine ⟨?_, hp, h.getSibling hv, ?_⟩
  · rw [Ne, h.root_iff]
    simp
  · simp [Tree.dirChild, hp, h.sideUnder hv]

theorem deleteFixbb_recolour (h : Holds t ((c.step d g r).plug v)) (hv : Lib.root v = some m)
    (hb : BlackBelow t m) (hm : t.clr m = .black) (fuel : Nat) :
    Tree.deleteFixbb (fuel + 1) t m =
      if t.clr g = .black then Tree.deleteFixbb fuel (t.setClr m .red) m
      else some ((t.setClr m .red).setClr g .black) := by
  obtain ⟨hroot, hp, hsib, -⟩ := h.attached hv
  have hred : ∀ e, t.redChild e m = none := fun e => redChild_none.mpr (hb e)
  have hgm : g ≠ m := h.owner_ne (c := c.step d g r) rfl (root_mem hv)
  rw [Tree.deleteFixbb]
  simp [hroot, hp, hsib, hm, hred, hgm]

theorem deleteFixbb_turn (h : Holds t ((c.step d g r).plug v)) (hv : Lib.root v = some m)
    (hm : t.clr m = .red) (fuel : Nat) :
    Tree.deleteFixbb (fuel + 1) t m =
      (((t.setClr g .red).setClr m .black).rotate g d).bind fun t =>
        Tree.deleteFixbb fuel t m := by
  obtain ⟨hroot, hp, hsib, hdir⟩ := h.attached hv
  have hdir' : ((t.setClr g .red).setClr m .black).dirChild m = some d := by
    simpa [Tree.dirChild, Tree.sideUnder] using hdir
  rw [Tree.deleteFixbb]
  simp [hroot, hp, hsib, hm, hdir']

/-- A red node below a red parent: the parent is turned down towards it. -/
theorem deleteFixbb_red (h : Holds t ((c.step d g (join d s q r)).plug v))
    (hv : Lib.root v = some m) (hb : BlackBelow t m) (hm : t.clr m = .red) (fuel : Nat) :
    ∃ t', Tree.deleteFixbb (fuel + 2) t m = some t' ∧
      Reshaped t t' (((c.step d q r).step d g s).plug v) := by
  have hholds : Holds ((t.setClr g .red).setClr m .black) (c.plug (join d v g (join d s q r))) := by
    simpa [Context.plug_step] using h
  have hgm : g ≠ m := h.owner_ne (c := c.step d g (join d s q r)) rfl (root_mem hv)
  have hgmem : g ∈ (c.step d g (join d s q r)).cells := by simp [Context.cells]
  have hmem : ∀ x, x = g ∨ x = m → x ∈ inorder ((c.step d g (join d s q r)).plug v) := by
    rintro x (rfl | rfl) <;> rw [Context.mem_inorder_plug]
    · exact .inr hgmem
    · exact .inl (root_mem hv)
  obtain ⟨t₁, hrot, hclr, hre⟩ := rotate_spec hholds
  have hre' : Reshaped t t₁ (((c.step d q r).step d g s).plug v) := by
    refine Reshaped.trans ?_ hre (by rw [← Context.inorder_turn])
    exact ((Reshaped.refl h).setClr (hmem g (by simp)) _).setClr (hmem m (by simp)) _
  have hb' : BlackBelow t₁ m := by
    intro e x hx
    have hb₁ := (hb.setClr h hv (.inr hgmem) .red).setClr (by simpa using h) hv (.inl rfl) .black
    obtain ⟨y, z, rfl⟩ := eq_join_of_root hv e
    have h₀ := (Holds.at_plug (c := c.step d g (join d s q r)) h).2.1
    have h₁ := (Holds.at_plug (c := (c.step d q r).step d g s) hre'.holds).2.1
    rw [hclr]
    refine hb₁ e x ?_
    rw [Tree.child_setClr, Tree.child_setClr, h₀, ← h₁, hx]
  refine ⟨(t₁.setClr m .red).setClr g .black, ?_, ?_⟩
  · rw [deleteFixbb_turn h hv hm, hrot, Option.bind_some,
      deleteFixbb_recolour hre'.holds hv hb' (by simp [hclr]), if_neg (by simp [hclr, hgm])]
  · have hperm := Context.inorder_turn c d v s r g q
    exact (hre'.setClr (hperm ▸ hmem m (by simp)) _).setClr (hperm ▸ hmem g (by simp)) _

/-- What the repair of a node in the tree needs, and what it does to its place. -/
theorem deleteFixbb_attached (h : Holds t ((c.step d g r).plug v)) (hv : Lib.root v = some m)
    (hb : BlackBelow t m) (hok : t.clr m = .black ∧ t.clr g = .red ∨ r ≠ .nil) (fuel : Nat) :
    ∃ t' c' r', Tree.deleteFixbb (fuel + 3) t m = some t' ∧
      inorder ((Context.step c' d g r').plug v) = inorder ((c.step d g r).plug v) ∧
      Reshaped t t' ((Context.step c' d g r').plug v) := by
  have hturn : ∀ {t₁ : Tree α σ} {s q r'}, r = join d s q r' → Reshaped t t₁ ((c.step d g r).plug v) →
      BlackBelow t₁ m → t₁.clr m = .red → ∀ k, k = fuel + 2 ∨ k = fuel + 3 →
      ∃ t' c' r', Tree.deleteFixbb k t₁ m = some t' ∧
        inorder ((Context.step c' d g r').plug v) = inorder ((c.step d g r).plug v) ∧
        Reshaped t t' ((Context.step c' d g r').plug v) := by
    rintro t₁ s q r' rfl hre hb hm k hk
    obtain ⟨j, rfl⟩ : ∃ j, k = j + 2 := ⟨k - 2, by omega⟩
    obtain ⟨t', hfix, hre'⟩ := deleteFixbb_red hre.holds hv hb hm j
    have hin := Context.inorder_turn c d v s r' g q
    exact ⟨t', _, _, hfix, hin, hre.trans hre' (by rw [hin])⟩
  have hrefl := Reshaped.refl h
  have hmmem : m ∈ inorder ((c.step d g r).plug v) := by
    simp [Context.mem_inorder_plug, root_mem hv]
  have hgmem : g ∈ inorder ((c.step d g r).plug v) := by
    simp [Context.mem_inorder_plug, Context.cells]
  cases hm : t.clr m with
  | black =>
      rw [deleteFixbb_recolour h hv hb hm]
      split
      · rename_i hg
        cases hr : Lib.root r with
        | none =>
            rw [root_eq_none] at hr
            simp [hg, hr] at hok
        | some q =>
            obtain ⟨s, r', hr'⟩ := eq_join_of_root hr d
            exact hturn hr' (hrefl.setClr hmmem _) (hb.setClr h hv (.inl rfl) _) (by simp) _
              (.inl rfl)
      · exact ⟨_, _, _, rfl, rfl, (hrefl.setClr hmmem _).setClr hgmem _⟩
  | red =>
      cases hr : Lib.root r with
      | none =>
          rw [root_eq_none] at hr
          simp [hm, hr] at hok
      | some q =>
          obtain ⟨s, r', hr'⟩ := eq_join_of_root hr d
          exact hturn hr' hrefl hb hm _ (.inr rfl)

end Attached

section Detached

/--
`n` is out of the tree but its parent link still leads to `p`.  It is not the
right child of `p`, so `TREE_GET_SIBLING` finds the left child `q`.
-/
structure Detached (t : Tree α σ) (s : BinaryTree Nat) (n p q : Nat) : Prop where
  holds : Holds t s
  fresh : n ∉ inorder s
  mem : p ∈ inorder s
  parent : t.parent n = some p
  left : t.child .left p = some q

namespace Detached

theorem reads (h : Detached t s n p q) :
    t.root ≠ some n ∧ t.getSibling n = some q ∧ t.parent q = some p ∧
      t.dirChild q = some .left ∧ q ∈ inorder s ∧ q ≠ p := by
  refine ⟨?_, ?_, ?_⟩
  · intro hroot
    exact h.fresh (root_mem (h.holds.root ▸ hroot))
  · have hright : t.child .right p ≠ some n := fun hn => h.fresh (h.holds.child_mem h.mem hn)
    simp [Tree.getSibling, h.parent, Tree.sideUnder, hright, h.left]
  · obtain ⟨c, u, w, rfl⟩ := Context.exists_plug h.mem .left
    have hu : Lib.root u = some q := by rw [← h.holds.at_plug.2.1, h.left]
    obtain ⟨-, hp, -, hd⟩ := Holds.attached (c := c) (d := .left) (g := p) (r := w) h.holds hu
    exact ⟨hp, hd, h.holds.child_mem h.mem h.left,
      (h.holds.owner_ne (c := c.step .left p w) (v := u) rfl (root_mem hu)).symm⟩

theorem setClr (h : Detached t s n p q) (a : Nat) (k : Color) : Detached (t.setClr a k) s n p q :=
  ⟨by simpa using h.holds, h.fresh, h.mem, by simpa using h.parent, by simpa using h.left⟩

theorem fixbbRotate (h : Detached t s n p q) (hx : t.redChild e q = some x) :
    ∃ t', t.fixbbRotate p q x .left e = some t' := by
  obtain ⟨-, -, hqp, hdir, -, hne⟩ := h.reads
  obtain ⟨hxe, -⟩ := redChild_some hx
  have hside : t.sideUnder p q = .left := by simpa [Tree.dirChild, hqp] using hdir
  unfold Tree.fixbbRotate
  split
  · obtain ⟨t₁, hrot⟩ := rotate_exists (t := (t.setClr x (t.clr q)).setClr q (t.clr p))
      (d := .right) (p := p) (q := q) (by simpa [Side.other] using h.left)
    exact ⟨_, by rw [Side.other, hrot]; rfl⟩
  · rename_i he
    obtain rfl : e = .right := Side.eq_other_of_ne (Ne.symm he)
    obtain ⟨t₁, hrot, hchild, -⟩ := rotate_links (t := t.setClr x (t.clr p)) (d := .left)
      (p := q) (q := x) (by simpa [Side.other] using hxe) (by
        intro g hg
        obtain rfl : p = g := by simpa [hqp] using hg
        refine ⟨hne.symm, ?_⟩
        rintro rfl
        obtain ⟨c, u, w, rfl⟩ := Context.exists_plug h.mem .left
        have hu : Lib.root u = some q := by rw [← h.holds.at_plug.2.1, h.left]
        have := (Holds.child_ne (c := c.step .left p w) h.holds hu hxe).1
        exact h.holds.owner_ne (c := c.step .left p w) (v := u) rfl this rfl)
    have hslot : t₁.child .left p = some x := by
      rw [hchild, if_pos]
      simpa [Tree.sideUnder, hqp] using hside.symm
    obtain ⟨t₂, hrot'⟩ := rotate_exists (t := t₁) (d := .right) (p := p) (q := x) hslot
    exact ⟨_, by rw [hrot, Option.bind_some, Side.other, hrot']; rfl⟩

theorem black (h : Detached t s n p q) (hq : t.clr q = .black)
    (hok : ¬BlackBelow t q ∨ t.clr p = .red) (fuel : Nat) :
    ∃ t', Tree.deleteFixbb (fuel + 1) t n = some t' := by
  obtain ⟨hroot, hsib, -, hdir, -, hne⟩ := h.reads
  rw [Tree.deleteFixbb]
  simp only [hroot, h.parent, hsib, hq, hdir, if_false, reduceCtorEq, Option.bind_some]
  cases hl : t.redChild .left q with
  | some x => exact h.fixbbRotate hl
  | none =>
      cases hr : t.redChild .right q with
      | some x => exact h.fixbbRotate hr
      | none =>
          have hb : BlackBelow t q := by
            intro e y hy
            cases e with
            | left => exact redChild_none.mp hl y hy
            | right => exact redChild_none.mp hr y hy
          have hp : t.clr p = .red := hok.resolve_left fun hn => hn hb
          simp [hp, Ne.symm hne]

theorem red (h : Detached t s n p q) (hq : t.clr q = .red) (hright : t.child .right p = some x)
    (fuel : Nat) : ∃ t', Tree.deleteFixbb (fuel + 2) t n = some t' := by
  obtain ⟨hroot, hsib, hqp, hdir, hqmem, hne⟩ := h.reads
  have hdir' : ((t.setClr p .red).setClr q .black).dirChild q = some .left := by
    simpa [Tree.dirChild, Tree.sideUnder] using hdir
  have hd := (h.setClr p .red).setClr q .black
  have hpx : ∀ g, ((t.setClr p .red).setClr q .black).parent p = some g → g ≠ p ∧ g ≠ x := by
    intro g hg
    obtain ⟨c, u, w, rfl⟩ := Context.exists_plug hd.mem .right
    obtain ⟨hup, hd', -⟩ := hd.holds.at_plug
    have hu : Lib.root u = some x := by rw [← hd']; simpa using hright
    have howner : c.owner = some g := hup.symm.trans hg
    exact ⟨hd.holds.owner_ne howner (by simp [mem_inorder_join]),
      hd.holds.owner_ne howner (by simp [mem_inorder_join, root_mem hu])⟩
  obtain ⟨t₁, hrot, hchild, -, -, hclr, -⟩ := rotate_links (d := .left) (p := p) (q := x)
    (by simpa [Side.other] using hright) hpx
  have hre := (Rearranged.refl hd.holds).rotate hd.mem hrot
  obtain ⟨s₁, hs₁, hre⟩ := hre
  have hd₁ : Detached t₁ s₁ n p q := by
    refine ⟨hre.holds, by rw [hs₁]; exact h.fresh, by rw [hs₁]; exact h.mem, ?_, ?_⟩
    · rw [Tree.parent_of_node (hre.frame n (by rw [hs₁]; exact h.fresh))]
      exact hd.parent
    · have hxp : p ≠ x := by
        obtain ⟨c, u, w, rfl⟩ := Context.exists_plug h.mem .right
        have hu : Lib.root u = some x := by rw [← h.holds.at_plug.2.1]; exact hright
        exact h.holds.owner_ne (c := c.step .right p w) (v := u) rfl (root_mem hu)
      rw [hchild, if_neg (fun hg => (hpx p hg.1).1 rfl)]
      simpa [hxp, Side.other] using h.left
  obtain ⟨t', hfix⟩ := hd₁.black (by simp [hclr]) (.inr (by simp [hclr, Ne.symm hne])) fuel
  refine ⟨t', ?_⟩
  rw [Tree.deleteFixbb]
  simp [hroot, h.parent, hsib, hq, hdir', hrot, hfix]

end Detached

/-- What the repair at a node that its child has replaced needs. -/
theorem deleteFixbb_detached (h : Detached t s n p q)
    (hok : t.clr q = .black ∧ (¬BlackBelow t q ∨ t.clr p = .red) ∨ t.child .right p ≠ none)
    (fuel : Nat) : ∃ t', Tree.deleteFixbb (fuel + 3) t n = some t' := by
  obtain ⟨hroot, hsib, -, -, -, -⟩ := h.reads
  by_cases hblack : t.clr q = .black ∧ (¬BlackBelow t q ∨ t.clr p = .red)
  · exact h.black hblack.1 hblack.2 (fuel + 2)
  obtain ⟨x, hx⟩ := Option.ne_none_iff_exists'.mp (hok.resolve_left hblack)
  cases hq : t.clr q with
  | red => exact h.red hq hx (fuel + 1)
  | black =>
      simp only [hq, true_and, not_or, not_not] at hblack
      obtain ⟨hb, hp⟩ := hblack
      have hred : ∀ e, t.redChild e q = none := fun e => redChild_none.mpr (hb e)
      have hp' : t.clr p = .black := by
        cases hc : t.clr p with
        | black => rfl
        | red => exact absurd hc hp
      obtain ⟨t', hfix⟩ := (h.setClr q .red).red (x := x) (by simp) (by simpa using hx) fuel
      refine ⟨t', ?_⟩
      rw [Tree.deleteFixbb]
      by_cases hpq : p = q
      · exact absurd hpq.symm h.reads.2.2.2.2.2
      · simp [hroot, h.parent, hsib, hq, hred, hp', hpq, hfix]

end Detached

end UntitledOs.RbTree
