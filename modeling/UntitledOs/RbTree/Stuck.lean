import UntitledOs.RbTree.Delete

/-!
# Deletions that do not return

The repair follows a null pointer when the node on the other side, around which it
rotates, is missing.  A deletion returns exactly where `DeleteSafe` holds, and at the
root in any case.
-/

namespace UntitledOs.RbTree

open UntitledOs.Lib

variable {α σ : Type} {k : TreeKind α σ} {t : Tree α σ} {s v r : BinaryTree Nat} {c : Context Nat}
  {d e : Side} {m n p q g u : Nat}

theorem Tree.rotate_none (h : t.child d.other p = none) : t.rotate p d = none := by
  simp [Tree.rotate, h]

/-- A node without a sibling, unless it is black and its parent red. -/
theorem deleteFixbb_attached_none (h : Holds t ((c.step d g .nil).plug v))
    (hv : Lib.root v = some m) (hb : BlackBelow t m)
    (hstuck : ¬(t.clr m = .black ∧ t.clr g = .red)) (fuel : Nat) :
    Tree.deleteFixbb fuel t m = none := by
  have hred : ∀ {t₁ : Tree α σ}, Holds t₁ ((c.step d g .nil).plug v) → t₁.clr m = .red →
      ∀ fuel, Tree.deleteFixbb fuel t₁ m = none := by
    intro t₁ h₁ hm fuel
    cases fuel with
    | zero => rfl
    | succ fuel =>
        have hother : t₁.child d.other g = none := (Holds.at_plug (c := c) (u := v) h₁).2.2.1
        rw [deleteFixbb_turn h₁ hv hm, Tree.rotate_none (by simpa using hother), Option.bind_none]
  cases hm : t.clr m with
  | red => exact hred h hm fuel
  | black =>
      have hg : t.clr g = .black := by
        cases hc : t.clr g with
        | black => rfl
        | red => exact absurd ⟨hm, hc⟩ hstuck
      cases fuel with
      | zero => rfl
      | succ fuel =>
          rw [deleteFixbb_recolour h hv hb hm, if_pos hg]
          exact hred (by simpa using h) (by simp) fuel

/-- A node that was replaced by the left child `q` of its parent, which has no other child. -/
theorem deleteFixbb_detached_none (h : Detached t s n p q) (hq : t.clr q = .black)
    (hb : BlackBelow t q) (hp : t.clr p = .black) (hright : t.child .right p = none) (fuel : Nat) :
    Tree.deleteFixbb fuel t n = none := by
  obtain ⟨hroot, hsib, -, hdir, -, hne⟩ := h.reads
  have hred : ∀ e, t.redChild e q = none := fun e => redChild_none.mpr (hb e)
  cases fuel with
  | zero => rfl
  | succ fuel =>
      rw [Tree.deleteFixbb]
      simp only [hroot, h.parent, hsib, hq, hred, if_false, reduceCtorEq, Tree.clr_setClr,
        Ne.symm hne, hp, if_true]
      cases fuel with
      | zero => rfl
      | succ fuel =>
          obtain ⟨hroot', hsib', -, hdir', -, -⟩ := (h.setClr q .red).reads
          have hdir'' : (((t.setClr q .red).setClr p .red).setClr q .black).dirChild q =
              some .left := by
            simpa [Tree.dirChild, Tree.sideUnder] using hdir'
          rw [Tree.deleteFixbb]
          simp only [hroot', (h.setClr q .red).parent, hsib', Tree.clr_setClr, if_true, if_false,
            hdir'', Option.bind_some]
          rw [Tree.rotate_none (by simpa [Side.other] using hright), Option.bind_none]

theorem deleteLeaf_none (h : Holds t s) (hn : n ∈ inorder s) (hl : t.child .left n = none)
    (hr : t.child .right n = none) (hbad : ¬LeafSafe t n) (fuel : Nat) :
    t.deleteLeaf fuel n = none := by
  obtain ⟨c, u, v, rfl⟩ := Context.exists_plug hn .left
  obtain ⟨hp, hu, hv, -⟩ := h.at_plug
  obtain rfl : u = .nil := root_eq_none.mp (by rw [← hu, hl])
  obtain rfl : v = .nil := root_eq_none.mp (by rw [← hv]; exact hr)
  cases c with
  | top => exact absurd (by simp [LeafSafe, hp]) hbad
  | step c d p r =>
      obtain ⟨hroot, -, -, -⟩ := Holds.attached (v := join .left .nil n .nil) (m := n) h rfl
      have hrp : t.child d.other p = Lib.root r :=
        (Holds.at_plug (u := join .left .nil n .nil) h).2.2.1
      have hside : t.sideUnder p n = d := Holds.sideUnder (v := join .left .nil n .nil) h rfl
      simp only [LeafSafe, hp, Context.owner_step, hside, hrp, ne_eq, root_eq_none,
        not_or, not_not] at hbad
      obtain ⟨hclr, hpclr, rfl⟩ := hbad
      have hblack : t.clr n = .black := by
        cases hc : t.clr n with
        | black => rfl
        | red => exact absurd hc hclr
      have hb : BlackBelow t n := by
        intro e x hx
        cases e <;> simp_all
      have hfix := deleteFixbb_attached_none (v := join .left .nil n .nil) h rfl hb
        (fun hboth => hpclr hboth.2) fuel
      unfold Tree.deleteLeaf
      rw [if_neg hroot, if_pos hblack, hfix, Option.bind_none]

/-- The repair below the only child that replaced its black parent. -/
theorem splice_none (h : Holds t ((c.step d p r).plug (join e v n .nil)))
    (hv : Lib.root v = some u) (hu : t.clr u = .black) (hbad : ¬SpliceSafe t n u) (fuel : Nat) :
    Tree.deleteFixbb fuel ((t.setChild d p (some u)).setParent u (some p)) n = none := by
  have hspliced := h.splice hv
  obtain ⟨hp, hside, hgr, hroot, hnu, hpu, hfresh, hmem⟩ := h.onlyChild hv
  simp only [SpliceSafe, hp, hside] at hbad
  cases d with
  | left =>
      simp only [not_or, not_not] at hbad
      obtain ⟨hb, hpclr, hright⟩ := hbad
      have hblack : t.clr p = .black := by
        cases hc : t.clr p with
        | black => rfl
        | red => exact absurd hc hpclr
      have hdet : Detached ((t.setChild .left p (some u)).setParent u (some p)) _ n p u :=
        ⟨hspliced, hfresh, hmem, by simp [hnu, hp], by simp⟩
      refine deleteFixbb_detached_none hdet (by simpa using hu) ?_ (by simpa using hblack)
        (by simpa using hright) fuel
      intro e x hx
      simpa using hb e x (by simpa [Ne.symm hpu] using hx)
  | right =>
      simp only [not_or, not_not] at hbad
      obtain ⟨hl, hup⟩ := hbad
      have hsib : ((t.setChild .right p (some u)).setParent u (some p)).getSibling n = none := by
        simp [Tree.getSibling, Tree.sideUnder, hnu, hp, Ne.symm hnu, hl]
      obtain rfl : r = .nil := root_eq_none.mp (by rw [← hgr]; exact hl)
      have hparent : ((t.setChild .right p (some u)).setParent u (some p)).parent n = some p := by
        simp [hnu, hp]
      cases fuel with
      | zero => rfl
      | succ fuel =>
          rw [Tree.deleteFixbb]
          simp only [Tree.root_setParent, Tree.root_setChild, hroot, if_false, hparent, hsib]
          cases c with
          | top =>
              have hpp : t.parent p = none :=
                (Holds.at_plug (c := .top) (u := join e v n .nil) (v := .nil) h).1
              simp [hpp] at hup
          | step c f g r' =>
              have hpg : t.parent p = some g :=
                (Holds.at_plug (u := join e v n .nil) (p := p) (v := .nil) h).1
              have hsideg : t.sideUnder g p = f :=
                Holds.sideUnder (c := c) (v := join .right (join e v n .nil) p .nil) h rfl
              have hother : t.child f.other g = Lib.root r' :=
                (Holds.at_plug (c := c) (u := join .right (join e v n .nil) p .nil) h).2.2.1
              simp only [hpg, hsideg, hother, ne_eq, root_eq_none, not_or, not_not] at hup
              obtain ⟨hstuck, rfl⟩ := hup
              have hb : BlackBelow ((t.setChild .right p (some u)).setParent u (some p)) p := by
                intro e x hx
                cases e with
                | left => simp [hl] at hx
                | right =>
                    obtain rfl : u = x := by simpa using hx
                    simpa using hu
              exact deleteFixbb_attached_none (c := c) (d := f) (g := g)
                (v := join .right v p .nil) hspliced (root_join ..) hb (by simpa using hstuck) fuel

/-- What the deletion of a node with at most one child needs in order to return: at the root
what hangs below the child is cut off. -/
def DeleteEnds (t : Tree α σ) (n : Nat) : Prop :=
  match (t.child .left n).or (t.child .right n) with
  | none => LeafSafe t n
  | some u => t.root = some n ∨ t.clr u = .red ∨ t.clr n = .red ∨ SpliceSafe t n u

theorem deleteOneChild_none (h : Holds t s) (hn : n ∈ inorder s) (hu : t.child e n = some u)
    (ho : t.child e.other n = none) (hbad : ¬DeleteEnds t n) (fuel : Nat) :
    t.deleteOneChild k fuel n u = none := by
  obtain ⟨c, v, w, rfl⟩ := Context.exists_plug hn e
  obtain ⟨hp, hv, hw, -⟩ := h.at_plug
  obtain rfl : w = .nil := root_eq_none.mp (by rw [← hw, ho])
  have hv : Lib.root v = some u := by rw [← hv, hu]
  have hone : (t.child .left n).or (t.child .right n) = some u := by
    cases e with
    | left => simp [hu]
    | right => simp [hu, show t.child .left n = none from ho]
  simp only [DeleteEnds, hone, not_or] at hbad
  obtain ⟨hroot, hured, hnred, hsplice⟩ := hbad
  have hblack : t.clr u = .black ∧ t.clr n = .black := by
    cases hcu : t.clr u <;> cases hcn : t.clr n <;> simp_all
  cases c with
  | top => exact absurd (h.root_iff.mpr rfl) hroot
  | step c d p r =>
      obtain ⟨-, -, -, hdir⟩ := Holds.attached (m := n) h (root_join ..)
      unfold Tree.deleteOneChild
      rw [if_neg hroot, hp, hdir]
      simp only [Context.owner_step, Option.bind_some, hblack, and_self, if_true]
      rw [splice_none h hv hblack.1 hsplice fuel, Option.map_none]

theorem DeleteEnds.safe (h : DeleteEnds t n) (hroot : t.root ≠ some n) : DeleteSafe t n := by
  unfold DeleteEnds at h
  unfold DeleteSafe
  cases hu : (t.child .left n).or (t.child .right n) with
  | none => simpa only [hu] using h
  | some u => simpa only [hu, hroot, if_false, false_or] using h

/-- The deletion of a node with at most one child. -/
theorem delete_one_ends_iff (h : Holds t s) (hn : n ∈ inorder s)
    (hone : t.child .left n = none ∨ t.child .right n = none) :
    (∃ r, Returns (fun fuel => t.delete k fuel n) r) ↔ DeleteEnds t n := by
  constructor
  · rintro ⟨r, hr⟩
    by_contra hbad
    refine not_returns (fun fuel => ?_) r hr
    cases fuel with
    | zero => rfl
    | succ fuel =>
        unfold Tree.delete Tree.deleteReplacement
        cases hl : t.child .left n with
        | none =>
            cases hr : t.child .right n with
            | none =>
                have hleaf : ¬LeafSafe t n := by simpa [DeleteEnds, hl, hr] using hbad
                simp [deleteLeaf_none h hn hl hr hleaf]
            | some u =>
                simp [deleteOneChild_none (k := k) (e := .right) h hn hr hl hbad]
        | some u =>
            have hr : t.child .right n = none := by simpa [hl] using hone
            simp [hr, deleteOneChild_none (k := k) (e := .left) h hn hl hr hbad]
  · intro hends
    by_cases hroot : t.root = some n
    · -- nothing is repaired at the root
      have hdel : ∃ r, t.delete k 1 n = some r := by
        unfold Tree.delete Tree.deleteReplacement
        cases hl : t.child .left n with
        | none =>
            cases hr : t.child .right n with
            | none => simp [Tree.deleteLeaf, hroot]
            | some u => simp [Tree.deleteOneChild, hroot]
        | some u =>
            have hr : t.child .right n = none := by simpa [hl] using hone
            simp [hr, Tree.deleteOneChild, hroot]
      obtain ⟨r, hr⟩ := hdel
      exact ⟨r, (Tree.delete_steady k t n).returns 1 hr⟩
    · obtain ⟨t', f, hdel, -⟩ := delete_one (k := k) h hn hone (hends.safe hroot) 0
      exact ⟨_, (Tree.delete_steady k t n).returns 5 hdel⟩

/-- What a deletion needs in order to return. -/
def DeleteEndsAny (k : TreeKind α σ) (t : Tree α σ) (n : Nat) : Prop :=
  if t.child .left n = none ∨ t.child .right n = none then DeleteEnds t n
  else ∀ u, Returns (fun fuel => Tree.leftmost fuel t n) u → DeleteEnds (t.swapItems k n u) u

/-- A deletion returns exactly where no repair lacks a node to rotate around. -/
theorem delete_ends_iff (h : Holds t s) (hn : n ∈ inorder s) :
    (∃ r, Returns (fun fuel => t.delete k fuel n) r) ↔ DeleteEndsAny k t n := by
  by_cases hone : t.child .left n = none ∨ t.child .right n = none
  · rw [DeleteEndsAny, if_pos hone]
    exact delete_one_ends_iff h hn hone
  obtain ⟨u, hrep⟩ := h.exists_replaced k hn hone
  have hnext : ∀ r, Returns (fun fuel => t.delete k fuel n) r ↔
      Returns (fun fuel => (t.swapItems k n u).delete k fuel u) r := by
    intro r
    constructor
    · rintro ⟨f, hf⟩
      refine (Tree.delete_steady k _ u).returns (max f ((inorder s).length + 1)) ?_
      rw [← hrep.next _ (by omega)]
      exact hf _ (by omega)
    · rintro ⟨f, hf⟩
      refine (Tree.delete_steady k t n).returns (max f ((inorder s).length + 1) + 1) ?_
      rw [hrep.next _ (by omega)]
      exact hf _ (by omega)
  simp only [hnext]
  rw [DeleteEndsAny, if_neg hone, delete_one_ends_iff hrep.holds hrep.mem (.inl hrep.left)]
  refine ⟨fun hends u' hu' => hu'.unique hrep.leftmost ▸ hends, fun hends => hends u hrep.leftmost⟩

end UntitledOs.RbTree
