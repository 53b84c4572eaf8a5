import UntitledOs.RbTree.Code

/-!
# What the tree code leaves alone

Whatever the shape of the tree, inserting changes nothing outside it, and
deleting only does what goes with moving an item to another node.
-/

namespace UntitledOs.RbTree.Tree

open UntitledOs.Lib

variable {α σ : Type} {t t' : Tree α σ} {k : TreeKind α σ} {fuel n p g s c : Nat} {dir d e : Side}

/-- The trees differ in links, colours and the root only. -/
structure SameData (t t' : Tree α σ) : Prop where
  item : ∀ a, t'.item a = t.item a
  ext : t'.ext = t.ext

theorem SameData.refl (t : Tree α σ) : SameData t t := ⟨fun _ => rfl, rfl⟩

theorem SameData.trans {t₁ : Tree α σ} (h : SameData t t₁) (h' : SameData t₁ t') : SameData t t' :=
  ⟨fun a => (h'.item a).trans (h.item a), h'.ext.trans h.ext⟩

theorem sameData_rotate (h : t.rotate p dir = some t') : SameData t t' := by
  obtain ⟨s, -, rfl⟩ := Option.map_eq_some_iff.mp h
  exact ⟨by simp, by simp⟩

theorem sameData_insertOuter (h : t.insertOuter p g dir = some t') : SameData t t' := by
  obtain ⟨t₁, hrot, rfl⟩ := Option.map_eq_some_iff.mp h
  exact (sameData_rotate hrot).trans ⟨by simp, by simp⟩

theorem sameData_insertRotate (h : t.insertRotate n p g dir = some t') : SameData t t' := by
  unfold insertRotate at h
  split at h
  · obtain ⟨t₁, hrot, h⟩ := Option.bind_eq_some_iff.mp h
    obtain ⟨p', -, h⟩ := Option.bind_eq_some_iff.mp h
    exact (sameData_rotate hrot).trans (sameData_insertOuter h)
  · exact sameData_insertOuter h

theorem sameData_insertLoop (h : insertLoop fuel t n p = some t') : SameData t t' := by
  induction fuel generalizing t n p with
  | zero => cases h
  | succ fuel ih =>
      unfold insertLoop at h
      split at h
      · cases h
        exact .refl _
      split at h
      · cases h
        exact ⟨by simp, by simp⟩
      dsimp only at h
      split at h
      · exact sameData_insertRotate h
      split at h
      · exact sameData_insertRotate h
      split at h
      · cases h
        exact ⟨by simp, by simp⟩
      · exact SameData.trans ⟨by simp, by simp⟩ (ih h)

theorem sameData_insertp {q : Option Nat} (h : insertp fuel t n q dir = some t') :
    SameData t t' := by
  cases q with
  | none =>
      cases h
      exact ⟨by simp, by simp⟩
  | some q => exact SameData.trans ⟨by simp, by simp⟩ (sameData_insertLoop h)

theorem sameData_insertFrom {root : Nat} (h : insertFrom k fuel t n root = some t') :
    SameData t t' := by
  induction fuel generalizing root with
  | zero => cases h
  | succ fuel ih =>
      unfold insertFrom at h
      dsimp only at h
      split at h
      · exact SameData.trans ⟨by simp, by simp⟩ (sameData_insertp h)
      · exact ih h

theorem sameData_insert (h : t.insert k fuel n = some t') : SameData t t' := by
  unfold insert at h
  split at h
  · cases h
    exact ⟨by simp, by simp⟩
  · exact sameData_insertFrom h

theorem sameData_fixbbRotate (h : t.fixbbRotate p s c d e = some t') : SameData t t' := by
  unfold fixbbRotate at h
  split at h
  · obtain ⟨t₁, hrot, rfl⟩ := Option.map_eq_some_iff.mp h
    exact SameData.trans ⟨by simp, by simp⟩ ((sameData_rotate hrot).trans ⟨by simp, by simp⟩)
  · obtain ⟨t₁, hrot, h⟩ := Option.bind_eq_some_iff.mp h
    obtain ⟨t₂, hrot', rfl⟩ := Option.map_eq_some_iff.mp h
    refine SameData.trans ⟨by simp, by simp⟩ ((sameData_rotate hrot).trans ?_)
    exact (sameData_rotate hrot').trans ⟨by simp, by simp⟩

theorem sameData_deleteFixbb (h : deleteFixbb fuel t n = some t') : SameData t t' := by
  induction fuel generalizing t n with
  | zero => cases h
  | succ fuel ih =>
      unfold deleteFixbb at h
      split at h
      · cases h
        exact .refl _
      split at h
      · split at h <;> cases h
        exact .refl _
      split at h
      · exact ih h
      split at h
      · obtain ⟨d, -, h⟩ := Option.bind_eq_some_iff.mp h
        obtain ⟨t₁, hrot, h⟩ := Option.bind_eq_some_iff.mp h
        exact SameData.trans ⟨by simp, by simp⟩ ((sameData_rotate hrot).trans (ih h))
      split at h
      · obtain ⟨d, -, h⟩ := Option.bind_eq_some_iff.mp h
        exact sameData_fixbbRotate h
      · obtain ⟨d, -, h⟩ := Option.bind_eq_some_iff.mp h
        exact sameData_fixbbRotate h
      · dsimp only at h
        split at h
        · exact SameData.trans ⟨by simp, by simp⟩ (ih h)
        · cases h
          exact ⟨by simp, by simp⟩

theorem sameData_deleteLeaf (h : t.deleteLeaf fuel n = some t') : SameData t t' := by
  unfold deleteLeaf at h
  split at h
  · cases h
    exact ⟨by simp, by simp⟩
  obtain ⟨t₁, hfix, h⟩ := Option.bind_eq_some_iff.mp h
  obtain ⟨p, -, h⟩ := Option.bind_eq_some_iff.mp h
  obtain ⟨d, -, rfl⟩ := Option.map_eq_some_iff.mp h
  have hfixed : SameData t t₁ := by
    split at hfix
    · exact sameData_deleteFixbb hfix
    · obtain rfl := Option.some.inj hfix
      cases t.getSibling n <;> exact ⟨by simp, by simp⟩
  exact hfixed.trans ⟨by simp, by simp⟩

theorem deleteOneChild_below (hroot : t.root ≠ some n) {r : Tree α σ × Nat}
    (h : t.deleteOneChild k fuel n p = some r) :
    r.2 = n ∧ r.1.ext = t.ext ∧ ∀ a, r.1.item a = t.item a := by
  rw [deleteOneChild, if_neg hroot] at h
  obtain ⟨q, -, h⟩ := Option.bind_eq_some_iff.mp h
  obtain ⟨d, -, h⟩ := Option.bind_eq_some_iff.mp h
  obtain ⟨t₁, hfix, rfl⟩ := Option.map_eq_some_iff.mp h
  split at hfix
  · have hsame := sameData_deleteFixbb hfix
    exact ⟨rfl, hsame.ext.trans rfl, fun a => (hsame.item a).trans (by simp)⟩
  · cases hfix
    exact ⟨rfl, rfl, by simp⟩

/-- A node with one child that is not the root, or with none, is freed itself. -/
theorem delete_self (hone : t.child .left n = none ∨ t.child .right n = none)
    (hroot : t.root = some n → t.child .left n = none ∧ t.child .right n = none)
    {r : Tree α σ × Nat} (h : delete k fuel t n = some r) :
    r.2 = n ∧ r.1.ext = t.ext ∧ ∀ a, r.1.item a = t.item a := by
  cases fuel with
  | zero => cases h
  | succ fuel =>
      unfold delete at h
      obtain ⟨u, hu, h⟩ := Option.bind_eq_some_iff.mp h
      cases u with
      | none =>
          obtain ⟨t₁, hleaf, rfl⟩ := Option.map_eq_some_iff.mp h
          exact ⟨rfl, (sameData_deleteLeaf hleaf).ext, (sameData_deleteLeaf hleaf).item⟩
      | some u =>
          simp only [hone, if_true] at h
          refine deleteOneChild_below (fun hr => ?_) h
          obtain ⟨hl, hr⟩ := hroot hr
          simp [deleteReplacement, hl, hr] at hu

section Moved

variable {P : σ → Prop} {r : Tree α σ × Nat}

theorem ext_deleteOneChild (hmoved : ∀ i a x, P x → P (k.moved i a x))
    (h : t.deleteOneChild k fuel n p = some r) (ht : P t.ext) : P r.1.ext := by
  unfold deleteOneChild at h
  split at h
  · cases h
    exact hmoved _ _ _ ht
  obtain ⟨q, -, h⟩ := Option.bind_eq_some_iff.mp h
  obtain ⟨d, -, h⟩ := Option.bind_eq_some_iff.mp h
  obtain ⟨t₁, hfix, rfl⟩ := Option.map_eq_some_iff.mp h
  split at hfix
  · rw [(sameData_deleteFixbb hfix).ext]
    exact ht
  · cases hfix
    exact ht

theorem ext_delete (hmoved : ∀ i a x, P x → P (k.moved i a x))
    (h : delete k fuel t n = some r) (ht : P t.ext) : P r.1.ext := by
  induction fuel generalizing t n with
  | zero => cases h
  | succ fuel ih =>
      unfold delete at h
      obtain ⟨u, -, h⟩ := Option.bind_eq_some_iff.mp h
      cases u with
      | none =>
          obtain ⟨t₁, hleaf, rfl⟩ := Option.map_eq_some_iff.mp h
          exact (sameData_deleteLeaf hleaf).ext ▸ ht
      | some u =>
          dsimp only at h
          split at h
          · exact ext_deleteOneChild hmoved h ht
          · exact ih h (hmoved _ _ _ (hmoved _ _ _ ht))

end Moved

end UntitledOs.RbTree.Tree
