import UntitledOs.RbTree.Fixbb

/-!
# Deletion

`DeleteSafe` says of the tree before `delete` which pointers and colours must be
there for it to return without losing a subtree.  Under it the tree afterwards
holds the items of the old one without the deleted item.
-/

namespace UntitledOs.RbTree

open UntitledOs.Lib

variable {α σ : Type} {k : TreeKind α σ} {t t' t₁ : Tree α σ} {s v w r : BinaryTree Nat}
  {cells : List Nat} {c : Context Nat} {d e : Side} {a f n p q g u x : Nat} {fuel : Nat}

/-- What the deletion of a node without children needs. -/
def LeafSafe (t : Tree α σ) (n : Nat) : Prop :=
  t.clr n = .red ∨
    match t.parent n with
    | none => True
    | some p => t.clr p = .red ∨ t.child (t.sideUnder p n).other p ≠ none

/-- What the repair needs once the black child `u` has replaced the black node `n`. -/
def SpliceSafe (t : Tree α σ) (n u : Nat) : Prop :=
  match t.parent n with
  | none => True
  | some p =>
      match t.sideUnder p n with
      | .left => ¬BlackBelow t u ∨ t.clr p = .red ∨ t.child .right p ≠ none
      | .right => t.child .left p ≠ none ∨
          match t.parent p with
          | none => True
          | some g => t.clr p = .black ∧ t.clr g = .red ∨ t.child (t.sideUnder g p).other g ≠ none

/--
What the deletion of a node with at most one child needs.  At the root, the
child must not have children of its own: they would be cut off.
-/
def DeleteSafe (t : Tree α σ) (n : Nat) : Prop :=
  match (t.child .left n).or (t.child .right n) with
  | none => LeafSafe t n
  | some u =>
      if t.root = some n then ∀ e, t.child e u = none
      else t.clr u = .red ∨ t.clr n = .red ∨ SpliceSafe t n u

instance : Decidable (LeafSafe t n) :=
  match hp : t.parent n with
  | none => isTrue (by simp [LeafSafe, hp])
  | some p =>
      decidable_of_iff (t.clr n = .red ∨ t.clr p = .red ∨
          t.child (t.sideUnder p n).other p ≠ none)
        (by simp [LeafSafe, hp])

instance : Decidable (SpliceSafe t n u) :=
  match hp : t.parent n with
  | none => isTrue (by simp [SpliceSafe, hp])
  | some p =>
      match hd : t.sideUnder p n with
      | .left =>
          decidable_of_iff (¬BlackBelow t u ∨ t.clr p = .red ∨ t.child .right p ≠ none)
            (by simp [SpliceSafe, hp, hd])
      | .right =>
          match hg : t.parent p with
          | none => isTrue (by simp [SpliceSafe, hp, hd, hg])
          | some g =>
              decidable_of_iff (t.child .left p ≠ none ∨ t.clr p = .black ∧ t.clr g = .red ∨
                  t.child (t.sideUnder g p).other g ≠ none)
                (by simp [SpliceSafe, hp, hd, hg])

instance : Decidable (DeleteSafe t n) :=
  match hu : (t.child .left n).or (t.child .right n) with
  | none => decidable_of_iff (LeafSafe t n) (by simp only [DeleteSafe, hu])
  | some u =>
      decidable_of_iff (if t.root = some n then t.child .left u = none ∧ t.child .right u = none
          else t.clr u = .red ∨ t.clr n = .red ∨ SpliceSafe t n u) (by
        simp only [DeleteSafe, hu]
        split
        · exact ⟨fun h e => by cases e <;> simp [h.1, h.2], fun h => ⟨h .left, h .right⟩⟩
        · rfl)

/--
`t'` is `t` after the item of `n` was deleted; the node `f` is free.
-/
structure Deleted (k : TreeKind α σ) (t t' : Tree α σ) (cells : List Nat) (n f : Nat) : Prop where
  holds : HoldsCells t' (cells.erase f)
  freed : f ∈ cells
  item : ((cells.erase f).map t'.item).Perm ((cells.erase n).map t.item)
  frame : ∀ a ∉ cells, t'.node a = t.node a
  ext : ∀ P : σ → Prop, (∀ i a x, P x → P (k.moved i a x)) → P t.ext → P t'.ext
  /-- Outside a subtree that holds `n` no item moves. -/
  inside : ∀ (c : Context Nat) (v : BinaryTree Nat), Holds t (c.plug v) → n ∈ inorder v →
    f ∈ inorder v ∧ ∀ x ∉ inorder v, t'.item x = t.item x

/-- The remaining items are still in their old order. -/
def KeepsOrder (t t' : Tree α σ) (cells : List Nat) (n f : Nat) : Prop :=
  (cells.erase f).map t'.item = (cells.erase n).map t.item

theorem Context.inorder_erase (h : (inorder (c.plug (join d v n .nil))).Nodup) :
    (inorder (c.plug (join d v n .nil))).erase n = inorder (c.plug v) := by
  rw [Context.nodup_plug] at h
  have hn : n ∉ inorder v ++ c.cells := by
    rw [((inorder_join_perm d v n .nil).append_right _).nodup_iff] at h
    simpa using (List.nodup_cons.mp h).1
  rw [List.mem_append, not_or] at hn
  have hb : n ∉ c.before := fun hb => hn.2 (c.cells_perm.mem_iff.mp (by simp [hb]))
  rw [Context.inorder_plug, Context.inorder_plug, List.erase_append_right _ hb]
  cases d with
  | left => simp [join, List.erase_append_right _ hn.1]
  | right => simp [join]

theorem Deleted.of_reshaped (hn : n ∈ inorder s)
    (hs : (inorder s).erase n = inorder v) (hholds : Holds t' v)
    (hitem : ∀ a, t'.item a = t.item a) (hframe : ∀ a ∉ inorder s, t'.node a = t.node a)
    (hext : t'.ext = t.ext) :
    Deleted k t t' (inorder s) n n ∧ KeepsOrder t t' (inorder s) n n := by
  have hmap : ((inorder s).erase n).map t'.item = ((inorder s).erase n).map t.item :=
    List.map_congr_left fun a _ => hitem a
  exact ⟨⟨⟨v, hs.symm, hholds⟩, hn, by rw [hmap], hframe, fun P _ hP => by rwa [hext],
    fun _ _ _ hv => ⟨hv, fun x _ => hitem x⟩⟩, hmap⟩

theorem Holds.prune (h : Holds t ((c.step d p r).plug (.node n .nil .nil))) :
    Holds (t.setChild d p none) ((c.step d p r).plug .nil) := by
  have hnd := List.nodup_append.mp (Context.nodup_plug.mp h.nodup)
  refine ⟨?_, ?_, ?_⟩
  · rw [Tree.root_setChild, h.root, Context.plug_step, Context.plug_step]
    exact c.root_plug (by simp)
  · rw [linked_plug]
    refine ⟨(linked_plug.mp h.linked).1.refill hnd.2.1 ?_ ?_ ?_, trivial⟩
    · intro e x hx
      obtain ⟨rfl, rfl⟩ : d = e ∧ p = x := by simpa using hx
      simp
    · intro x _ e hne
      have hne' : ¬(x = p ∧ e = d) := by
        rintro ⟨rfl, rfl⟩
        exact hne rfl
      simp [hne']
    · intro x _
      simp
  · rw [Context.nodup_plug]
    simpa using hnd.2.1

theorem Holds.splice (h : Holds t ((c.step d p r).plug (join e v n .nil)))
    (hv : Lib.root v = some u) :
    Holds ((t.setChild d p (some u)).setParent u (some p)) ((c.step d p r).plug v) := by
  have hnd := List.nodup_append.mp (Context.nodup_plug.mp h.nodup)
  obtain ⟨hc, hlinked⟩ := linked_plug.mp h.linked
  obtain ⟨-, -, -, hlv, -⟩ := linked_join.mp hlinked
  have hvmem : ∀ x ∈ inorder v, x ∈ inorder (join e v n .nil) :=
    fun x hx => by simp [mem_inorder_join, hx]
  have hcells : ∀ x ∈ (c.step d p r).cells, x ≠ u := by
    rintro x hx rfl
    exact h.disjoint (hvmem x (root_mem hv)) hx
  have hp : p ∉ inorder v :=
    fun hp => h.disjoint (hvmem p hp) (by simp [Context.cells])
  have hndv : (inorder v).Nodup := by
    have := (inorder_join_perm e v n .nil).nodup_iff.mp hnd.1
    simpa using (List.nodup_cons.mp this).2
  refine ⟨?_, ?_, ?_⟩
  · rw [Tree.root_setParent, Tree.root_setChild, h.root, Context.plug_step, Context.plug_step]
    exact c.root_plug (by simp)
  · rw [linked_plug]
    refine ⟨hc.refill hnd.2.1 ?_ ?_ ?_, hlv.edit hndv ?_ ?_ ?_⟩
    · intro e x hx
      obtain ⟨rfl, rfl⟩ : d = e ∧ p = x := by simpa using hx
      simp [hv]
    · intro x _ e hne
      have hne' : ¬(x = p ∧ e = d) := by
        rintro ⟨rfl, rfl⟩
        exact hne rfl
      simp [hne']
    · intro x hx
      simp [hcells x hx]
    · intro x hx e
      have hne' : ¬(x = p ∧ e = d) := by
        rintro ⟨rfl, -⟩
        exact hp hx
      simp [hne']
    · intro x hx
      obtain rfl : u = x := by simpa [hv] using hx
      simp
    · intro x hx hne
      have hxu : x ≠ u := by rintro rfl; exact hne hv
      simp [hxu]
  · rw [Context.nodup_plug, List.nodup_append]
    exact ⟨hndv, hnd.2.1, fun x hx y hy => hnd.2.2 x (hvmem x hx) y hy⟩

theorem deleteLeaf_spec (h : Holds t s) (hn : n ∈ inorder s) (hl : t.child .left n = none)
    (hr : t.child .right n = none) (hsafe : LeafSafe t n) (fuel : Nat) :
    ∃ t', t.deleteLeaf (fuel + 3) n = some t' ∧
      Deleted k t t' (inorder s) n n ∧ KeepsOrder t t' (inorder s) n n := by
  obtain ⟨c, u, v, rfl⟩ := Context.exists_plug hn .left
  obtain ⟨hp, hu, hv, -⟩ := h.at_plug
  obtain rfl : u = .nil := root_eq_none.mp (by rw [← hu, hl])
  obtain rfl : v = .nil := root_eq_none.mp (by rw [← hv]; exact hr)
  have herase : (inorder (c.plug (join .left .nil n .nil))).erase n = inorder (c.plug .nil) :=
    Context.inorder_erase h.nodup
  unfold Tree.deleteLeaf
  cases c with
  | top =>
      rw [if_pos (h.root_iff.mpr rfl)]
      refine ⟨_, rfl, Deleted.of_reshaped hn herase ⟨rfl, trivial, by simp⟩ ?_ ?_ rfl⟩
      · simp
      · simp
  | step c d p r =>
      obtain ⟨hroot, -, hsib, hdir⟩ := Holds.attached (v := join .left .nil n .nil) (m := n) h rfl
      -- the place of `n` after the repair, or after its recolouring
      have hprune : ∀ {t₁ c' r'}, inorder ((Context.step c' d p r').plug (.node n .nil .nil)) =
            inorder ((c.step d p r).plug (join .left .nil n .nil)) →
          Reshaped t t₁ ((Context.step c' d p r').plug (.node n .nil .nil)) →
          t₁.dirChild n = some d ∧
            Deleted k t (t₁.setChild d p none) (inorder ((c.step d p r).plug (join .left .nil n .nil)))
              n n ∧
            KeepsOrder t (t₁.setChild d p none)
              (inorder ((c.step d p r).plug (join .left .nil n .nil))) n n := by
        intro t₁ c' r' hin hre
        have hpmem : p ∈ inorder ((Context.step c' d p r').plug (.node n .nil .nil)) := by
          simp [Context.mem_inorder_plug, Context.cells]
        refine ⟨(hre.holds.attached rfl).2.2.2, Deleted.of_reshaped hn ?_ hre.holds.prune ?_ ?_ ?_⟩
        · rw [← hin]
          exact Context.inorder_erase (d := .left) (v := .nil) hre.holds.nodup
        · intro a
          simp [hre.item]
        · intro a ha
          rw [← hin] at ha
          rw [Tree.node_setChild_of_ne _ _ _ _ _ (by rintro rfl; exact ha hpmem), hre.frame a ha]
        · simp [hre.ext]
      rw [if_neg hroot, hp]
      simp only [Context.owner_step, Option.bind_some]
      cases hclr : t.clr n with
      | red =>
          obtain ⟨hdir', hdel⟩ := hprune rfl ((Reshaped.refl h).setClr hn .red)
          refine ⟨_, ?_, hdel⟩
          simp only [reduceCtorEq, if_false, hsib, Option.map_some, Option.getD_some,
            Option.bind_some]
          rw [hdir']
          rfl
      | black =>
          have hok : t.clr n = .black ∧ t.clr p = .red ∨ r ≠ .nil := by
            have hrp : t.child d.other p = Lib.root r :=
              (Holds.at_plug (u := join .left .nil n .nil) h).2.2.1
            have hside : t.sideUnder p n = d :=
              Holds.sideUnder (v := join .left .nil n .nil) h rfl
            simp only [LeafSafe, hclr, hp, Context.owner_step, hside, hrp, reduceCtorEq,
              false_or, Ne, root_eq_none] at hsafe
            simpa [hclr] using hsafe
          have hb : BlackBelow t n := by
            intro e x hx
            cases e <;> simp_all
          obtain ⟨t₁, c', r', hfix, hin, hre⟩ :=
            deleteFixbb_attached (v := join .left .nil n .nil) h rfl hb hok fuel
          obtain ⟨hdir', hdel⟩ := hprune hin hre
          refine ⟨_, ?_, hdel⟩
          simp only [if_true, hfix, Option.bind_some]
          rw [hdir']
          rfl

/-- The nodes around a node `n` with the only child `u`. -/
structure OnlyChild (t : Tree α σ) (c : Context Nat) (d : Side) (p : Nat) (r v : BinaryTree Nat)
    (n u : Nat) : Prop where
  parent : t.parent n = some p
  side : t.sideUnder p n = d
  other : t.child d.other p = Lib.root r
  root : t.root ≠ some n
  ne : n ≠ u
  parent_ne : p ≠ u
  fresh : n ∉ inorder ((c.step d p r).plug v)
  mem : p ∈ inorder ((c.step d p r).plug v)

theorem Holds.onlyChild (h : Holds t ((c.step d p r).plug (join e v n .nil)))
    (hv : Lib.root v = some u) : OnlyChild t c d p r v n u := by
  have hnd := List.nodup_append.mp (Context.nodup_plug.mp h.nodup)
  have hnv : n ∉ inorder v := by
    have := (inorder_join_perm e v n .nil).nodup_iff.mp hnd.1
    simpa using (List.nodup_cons.mp this).1
  refine ⟨(Holds.at_plug (c := c.step d p r) h).1, h.sideUnder (root_join ..),
    (Holds.at_plug (u := join e v n .nil) h).2.2.1, (h.attached (root_join ..)).1, ?_, ?_, ?_, ?_⟩
  · rintro rfl
    exact hnv (root_mem hv)
  · rintro rfl
    exact h.disjoint (a := p) (by simp [mem_inorder_join, root_mem hv]) (by simp [Context.cells])
  · rw [Context.mem_inorder_plug, not_or]
    exact ⟨hnv, h.disjoint (by simp [mem_inorder_join])⟩
  · simp [Context.mem_inorder_plug, Context.cells]

/-- The repair below the only child that replaced its black parent returns. -/
theorem splice_returns (h : Holds t ((c.step d p r).plug (join e v n .nil)))
    (hv : Lib.root v = some u) (hu : t.clr u = .black) (hsafe : SpliceSafe t n u) (fuel : Nat) :
    ∃ t', Tree.deleteFixbb (fuel + 4) ((t.setChild d p (some u)).setParent u (some p)) n =
      some t' := by
  have hspliced := h.splice hv
  obtain ⟨hp, hside, hgr, hroot, hnu, hpu, hfresh, hmem⟩ := h.onlyChild hv
  have hchild : ∀ x, t.child d.other p = some x →
      ((t.setChild d p (some u)).setParent u (some p)).child d.other p = some x := by
    intro x hx
    simpa using hx
  simp only [SpliceSafe, hp, hside] at hsafe
  cases d with
  | left =>
      have hdet : Detached ((t.setChild .left p (some u)).setParent u (some p)) _ n p u :=
        ⟨hspliced, hfresh, hmem, by simp [hnu, hp], by simp⟩
      refine deleteFixbb_detached hdet ?_ (fuel + 1)
      simp only [Tree.clr_setParent, Tree.clr_setChild, hu, true_and]
      rcases hsafe with hb | hred | hright
      · refine .inl (.inl fun hb' => hb ?_)
        intro e x hx
        simpa using hb' e x (by simpa [Ne.symm hpu] using hx)
      · exact .inl (.inr hred)
      · obtain ⟨x, hx⟩ := Option.ne_none_iff_exists'.mp hright
        exact .inr (by rw [← Side.other, hchild x hx]; simp)
  | right =>
      cases hl : t.child .left p with
      | some q =>
          have hdet : Detached ((t.setChild .right p (some u)).setParent u (some p)) _ n p q :=
            ⟨hspliced, hfresh, hmem, by simp [hnu, hp], by simpa using hl⟩
          exact deleteFixbb_detached hdet (.inr (by simp)) (fuel + 1)
      | none =>
          have hsib : ((t.setChild .right p (some u)).setParent u (some p)).getSibling n = none := by
            simp [Tree.getSibling, Tree.sideUnder, hnu, hp, Ne.symm hnu, hl]
          obtain rfl : r = .nil := root_eq_none.mp (by rw [← hgr]; exact hl)
          have hup : ((t.setChild .right p (some u)).setParent u (some p)).parent n = some p := by
            simp [hnu, hp]
          rw [Tree.deleteFixbb]
          simp only [Tree.root_setParent, Tree.root_setChild, hroot, if_false, hup, hsib]
          cases c with
          | top =>
              have hrp : t.root = some p := by rw [h.root]; rfl
              rw [Tree.deleteFixbb]
              simp [hrp]
          | step c f g r' =>
              have hpg : t.parent p = some g :=
                (Holds.at_plug (u := join e v n .nil) (p := p) (v := .nil) h).1
              have hsideg : t.sideUnder g p = f :=
                Holds.sideUnder (c := c) (v := join .right (join e v n .nil) p .nil) h rfl
              have hother : t.child f.other g = Lib.root r' :=
                (Holds.at_plug (c := c) (u := join .right (join e v n .nil) p .nil) h).2.2.1
              simp only [hl, ne_eq, not_true_eq_false, false_or, hpg, hsideg, hother,
                root_eq_none] at hsafe
              have hgu : g ≠ u := by
                rintro rfl
                exact h.disjoint (a := g) (by simp [mem_inorder_join, root_mem hv])
                  (by simp [Context.cells])
              have hb : BlackBelow ((t.setChild .right p (some u)).setParent u (some p)) p := by
                intro e x hx
                cases e with
                | left => simp [hl] at hx
                | right =>
                    obtain rfl : u = x := by simpa using hx
                    simpa using hu
              obtain ⟨t', -, -, hfix, -⟩ := deleteFixbb_attached (c := c) (d := f) (g := g) (r := r')
                (v := join .right v p .nil) hspliced (root_join ..) hb (by simpa using hsafe) fuel
              exact ⟨t', hfix⟩

theorem deleteOneChild_spec (h : Holds t s) (hn : n ∈ inorder s) (hu : t.child e n = some u)
    (ho : t.child e.other n = none) (hsafe : DeleteSafe t n) (fuel : Nat) :
    ∃ t' f, t.deleteOneChild k (fuel + 4) n u = some (t', f) ∧
      Deleted k t t' (inorder s) n f ∧ KeepsOrder t t' (inorder s) n f := by
  obtain ⟨c, v, w, rfl⟩ := Context.exists_plug hn e
  obtain ⟨hp, hv, hw, -⟩ := h.at_plug
  obtain rfl : w = .nil := root_eq_none.mp (by rw [← hw, ho])
  have hv : Lib.root v = some u := by rw [← hv, hu]
  have hone : (t.child .left n).or (t.child .right n) = some u := by
    cases e with
    | left => simp [hu]
    | right => simp [hu, show t.child .left n = none from ho]
  rw [DeleteSafe, hone] at hsafe
  have hnv : n ∉ inorder v := by
    have hnd := List.nodup_append.mp (Context.nodup_plug.mp h.nodup)
    have := (inorder_join_perm e v n .nil).nodup_iff.mp hnd.1
    simpa using (List.nodup_cons.mp this).1
  have hnu : n ≠ u := by rintro rfl; exact hnv (root_mem hv)
  unfold Tree.deleteOneChild
  cases c with
  | top =>
      have hroot : t.root = some n := h.root_iff.mpr rfl
      simp only [hroot, if_true] at hsafe ⊢
      -- the child is a leaf, so nothing hangs below it
      obtain rfl : v = .node u .nil .nil := by
        obtain ⟨y, z, rfl⟩ := eq_join_of_root hv .left
        have hl := (linked_join.mp (linked_join.mp h.linked).2.2.2.1).2
        obtain rfl : y = .nil := root_eq_none.mp (hl.1.symm.trans (hsafe _))
        obtain rfl : z = .nil := root_eq_none.mp (hl.2.1.symm.trans (hsafe _))
        rfl
      have hcells : (inorder (join e (.node u .nil .nil) n .nil)).erase u = [n] ∧
          (inorder (join e (.node u .nil .nil) n .nil)).erase n = [u] := by
        cases e <;> simp [join, hnu, Ne.symm hnu]
      have hmem : ∀ x, x ∈ inorder (join e (.node u .nil .nil) n .nil) ↔ x = n ∨ x = u := by
        intro x
        simp [mem_inorder_join]
      refine ⟨_, u, rfl, ⟨⟨.node n .nil .nil, ?_, ?_⟩, ?_, ?_, ?_, ?_, ?_⟩, ?_⟩
      · simp [hcells.1]
      · refine ⟨?_, ⟨?_, ?_, ?_, trivial, trivial⟩, by simp⟩
        · simpa using hroot
        · simpa using hp
        · simp
        · simp
      · exact (hmem u).mpr (.inr rfl)
      · simp [hcells]
      · intro a ha
        simp only [Context.plug_top, hmem, not_or] at ha
        simp [ha.1]
      · intro P hstep hP
        exact hstep _ _ _ hP
      · intro c' v' h' hn'
        refine ⟨(linked_plug.mp h'.linked).2.child_mem hn' hu, fun x hx => ?_⟩
        have hxn : x ≠ n := by rintro rfl; exact hx hn'
        simp [hxn]
      · simp [KeepsOrder, hcells]
  | step c d p r =>
      obtain ⟨hroot, -, -, hdir⟩ := Holds.attached (m := n) h (root_join ..)
      simp only [hroot, if_false] at hsafe ⊢
      rw [hp, hdir]
      simp only [Context.owner_step, Option.bind_some]
      have hspliced := h.splice hv
      have herase := Context.inorder_erase h.nodup
      have hres : ∀ t', Rearranged (inorder ((c.step d p r).plug v))
            ((t.setChild d p (some u)).setParent u (some p)) t' →
          Deleted k t t' (inorder ((c.step d p r).plug (join e v n .nil))) n n ∧
            KeepsOrder t t' (inorder ((c.step d p r).plug (join e v n .nil))) n n := by
        rintro t' ⟨s', hs', hre⟩
        refine Deleted.of_reshaped hn (herase.trans hs'.symm) hre.holds ?_ ?_ ?_
        · intro a
          simp [hre.item]
        · intro a ha
          have ha' := ha
          rw [Context.mem_inorder_plug, mem_inorder_join, not_or, not_or, not_or] at ha
          have hau : a ≠ u := by rintro rfl; exact ha.1.2.1 (root_mem hv)
          have hap : a ≠ p := by rintro rfl; exact ha.2 (by simp [Context.cells])
          rw [hre.frame a (by rw [hs', Context.mem_inorder_plug, not_or]; exact ⟨ha.1.2.1, ha.2⟩)]
          simp [hau, hap]
        · simp [hre.ext]
      have humem : u ∈ inorder ((c.step d p r).plug v) :=
        Context.mem_inorder_plug.mpr (.inl (root_mem hv))
      split
      · rename_i hblack
        have hsp : SpliceSafe t n u := by
          rcases hsafe with hs | hs | hs
          · simp [hblack.1] at hs
          · simp [hblack.2] at hs
          · exact hs
        obtain ⟨t', hfix⟩ := splice_returns h hv hblack.1 hsp fuel
        refine ⟨t', n, by rw [hfix]; rfl, hres t' (deleteFixbb_rearranged hspliced ?_ hfix)⟩
        intro q hq
        obtain rfl : p = q := by simpa [hnu, hp] using hq
        simp [Context.mem_inorder_plug, Context.cells]
      · exact ⟨_, n, rfl, hres _ ((Rearranged.refl hspliced).setClr humem _)⟩

theorem delete_one (h : Holds t s) (hn : n ∈ inorder s)
    (hone : t.child .left n = none ∨ t.child .right n = none) (hsafe : DeleteSafe t n)
    (fuel : Nat) :
    ∃ t' f, t.delete k (fuel + 5) n = some (t', f) ∧
      Deleted k t t' (inorder s) n f ∧ KeepsOrder t t' (inorder s) n f := by
  unfold Tree.delete Tree.deleteReplacement
  cases hl : t.child .left n with
  | none =>
      cases hr : t.child .right n with
      | none =>
          have hleaf : LeafSafe t n := by simpa [DeleteSafe, hl, hr] using hsafe
          obtain ⟨t', hdel, hres⟩ := deleteLeaf_spec (k := k) h hn hl hr hleaf (fuel + 1)
          exact ⟨t', n, by simp [hdel], hres⟩
      | some u =>
          obtain ⟨t', f, hdel, hres⟩ :=
            deleteOneChild_spec (k := k) (e := .right) h hn hr hl hsafe fuel
          exact ⟨t', f, by simp [hdel], hres⟩
  | some u =>
      have hr : t.child .right n = none := by simpa [hl] using hone
      obtain ⟨t', f, hdel, hres⟩ :=
        deleteOneChild_spec (k := k) (e := .left) h hn hl hr hsafe fuel
      exact ⟨t', f, by simp [hr, hdel], hres⟩

/-- The walk to the left ends at the first node in order. -/
theorem leftmost_spec (fuel : Nat) (h : Holds t (c.plug v)) (hv : Lib.root v = some n)
    (hfuel : (inorder v).length < fuel) : Tree.leftmost fuel t n = (inorder v).head? := by
  induction v generalizing c n fuel with
  | nil => simp at hv
  | node a l r ihl _ =>
      obtain rfl : a = n := by simpa using hv
      obtain ⟨fuel, rfl⟩ : ∃ j, fuel = j + 1 := ⟨fuel - 1, by omega⟩
      have hleft : t.child .left a = Lib.root l := (Holds.at_plug (d := .left) (v := r) h).2.1
      rw [Tree.leftmost, hleft]
      cases l with
      | nil => rfl
      | node b l' r' =>
          simp only [root_node]
          rw [ihl (c := c.step .left a r) fuel h rfl (by
            simp only [inorder_node, List.length_append, List.length_cons] at hfuel ⊢; omega)]
          cases hl : inorder l' <;> simp [hl]

theorem leftmost_left (h : Tree.leftmost fuel t n = some u) : t.child .left u = none := by
  induction fuel generalizing n with
  | zero => simp [Tree.leftmost] at h
  | succ fuel ih =>
      rw [Tree.leftmost] at h
      cases hl : t.child .left n with
      | none =>
          obtain rfl : n = u := by simpa [hl] using h
          exact hl
      | some l => exact ih (by simpa [hl] using h)

theorem leftmost_mem {up : Option Nat} (h : Linked t.links up v) (hn : n ∈ inorder v)
    (hu : Tree.leftmost fuel t n = some u) : u ∈ inorder v := by
  induction fuel generalizing n with
  | zero => simp [Tree.leftmost] at hu
  | succ fuel ih =>
      rw [Tree.leftmost] at hu
      cases hl : t.child .left n with
      | none =>
          obtain rfl : n = u := by simpa [hl] using hu
          exact hn
      | some l => exact ih (h.child_mem (d := .left) hn hl) (by simpa [hl] using hu)

/--
What a deletion needs: a node with two children first changes its item with the
leftmost node below it, which is then deleted.
-/
def DeleteSafeAny (k : TreeKind α σ) (t : Tree α σ) (n : Nat) : Prop :=
  if t.child .left n = none ∨ t.child .right n = none then DeleteSafe t n
  else ∀ u, Returns (fun fuel => Tree.leftmost fuel t n) u → DeleteSafe (t.swapItems k n u) u

/-- `DeleteSafeAny`, read off the tree. -/
def deleteSafeCheck (k : TreeKind α σ) (fuel : Nat) (t : Tree α σ) (n : Nat) : Bool :=
  if t.child .left n = none ∨ t.child .right n = none then decide (DeleteSafe t n)
  else (t.leftmost fuel n).any fun u => decide (DeleteSafe (t.swapItems k n u) u)

theorem deleteSafeAny_of_check (h : deleteSafeCheck k fuel t n = true) : DeleteSafeAny k t n := by
  unfold deleteSafeCheck at h
  unfold DeleteSafeAny
  split at h
  · rename_i hone
    rw [if_pos hone]
    exact of_decide_eq_true h
  · rename_i htwo
    rw [if_neg htwo]
    intro u hu
    obtain ⟨u', hleft, hsafe⟩ := (Option.any_eq_true _ _).mp h
    obtain rfl := hu.unique ((Tree.leftmost_steady _ _).returns fuel hleft)
    exact of_decide_eq_true hsafe

/-- The items but the last one after a swap are the items but the first one before. -/
theorem swap_perm (hn : n ∈ cells) (hu : u ∈ cells) (hne : n ≠ u) (hnd : cells.Nodup) :
    ((cells.erase u).map (t.swapItems k n u).item).Perm ((cells.erase n).map t.item) := by
  have hcells := List.perm_cons_erase hn
  have hu' : u ∈ cells.erase n := (List.mem_erase_of_ne hne.symm).mpr hu
  have hrest := List.perm_cons_erase hu'
  have hn' : n ∈ cells.erase u := (List.mem_erase_of_ne hne).mpr hn
  have hrest' := List.perm_cons_erase hn'
  rw [List.erase_comm] at hrest'
  refine (hrest'.map _).trans (.trans ?_ (hrest.map _).symm)
  have hsame : ((cells.erase n).erase u).map (t.swapItems k n u).item =
      ((cells.erase n).erase u).map t.item := by
    refine List.map_congr_left fun a ha => ?_
    have hau : a ≠ u := fun hau => (hnd.erase n).not_mem_erase (hau ▸ ha)
    have han : a ≠ n := fun han => hnd.not_mem_erase (han ▸ List.mem_of_mem_erase ha)
    simp [hau, han]
  simp [hne, hsame]

/-- The replacement of a node with two children. -/
structure Replaced (k : TreeKind α σ) (t : Tree α σ) (s : BinaryTree Nat) (n u : Nat) : Prop where
  leftmost : Returns (fun fuel => t.leftmost fuel n) u
  holds : Holds (t.swapItems k n u) s
  mem : u ∈ inorder s
  ne : n ≠ u
  left : (t.swapItems k n u).child .left u = none
  next : ∀ fuel > (inorder s).length, t.delete k (fuel + 1) n = (t.swapItems k n u).delete k fuel u

theorem Holds.replaced (h : Holds t (c.plug (.node n v w))) (hv : v ≠ .nil) (hw : w ≠ .nil)
    (hu : (inorder v).head? = some u) : Replaced k t (c.plug (.node n v w)) n u := by
  obtain ⟨-, hl, hr, -⟩ := Holds.at_plug (d := .left) h
  rw [Side.other] at hr
  obtain ⟨l, hroot⟩ := Option.ne_none_iff_exists'.mp fun hn => hv (root_eq_none.mp hn)
  obtain ⟨r, hrootr⟩ := Option.ne_none_iff_exists'.mp fun hn => hw (root_eq_none.mp hn)
  rw [hroot] at hl
  rw [hrootr] at hr
  have humem : u ∈ inorder v := List.mem_of_head? hu
  have hlen := c.depth_lt (.node n v w)
  have hleft : ∀ fuel > (inorder (c.plug (.node n v w))).length, t.leftmost fuel n = some u := by
    intro fuel hfuel
    rw [leftmost_spec fuel h (root_node ..) (by omega), inorder_node, List.head?_append, hu]
    rfl
  have hnd := (List.nodup_append.mp (Context.nodup_plug.mp h.nodup)).1
  have hne : n ≠ u := by
    rw [inorder_node, List.nodup_append] at hnd
    rintro rfl
    exact hnd.2.2 n humem n (by simp) rfl
  refine ⟨⟨_, fun fuel hfuel => hleft fuel hfuel⟩, h.congr (by simp) (by simp) (by simp), ?_, hne,
    ?_, fun fuel hfuel => ?_⟩
  · simp [Context.mem_inorder_plug, humem]
  · rw [Tree.child_swapItems]
    exact leftmost_left (hleft _ (Nat.lt_succ_self _))
  · rw [Tree.delete, Tree.deleteReplacement, hl, hr]
    simp [hleft fuel hfuel]

theorem Holds.exists_replaced (k : TreeKind α σ) (h : Holds t s) (hn : n ∈ inorder s)
    (hone : ¬(t.child .left n = none ∨ t.child .right n = none)) : ∃ u, Replaced k t s n u := by
  obtain ⟨c, v, w, rfl⟩ := Context.exists_plug hn .left
  obtain ⟨-, hl, hr, -⟩ := h.at_plug
  have hv : v ≠ .nil := by
    rintro rfl
    exact hone (.inl hl)
  have hw : w ≠ .nil := by
    rintro rfl
    exact hone (.inr hr)
  obtain ⟨u, hu⟩ : ∃ u, (inorder v).head? = some u := by
    cases hi : inorder v with
    | nil =>
        obtain ⟨l, hl⟩ := Option.ne_none_iff_exists'.mp fun hn => hv (root_eq_none.mp hn)
        have hmem := root_mem hl
        simp [hi] at hmem
    | cons a _ => exact ⟨a, rfl⟩
  exact ⟨u, h.replaced hv hw hu⟩

theorem delete_spec (h : Holds t s) (hn : n ∈ inorder s) (hsafe : DeleteSafeAny k t n)
    (hfuel : (inorder s).length + 6 < fuel) :
    ∃ t' f, t.delete k fuel n = some (t', f) ∧ Deleted k t t' (inorder s) n f := by
  obtain ⟨fuel, rfl⟩ : ∃ j, fuel = j + 6 := ⟨fuel - 6, by omega⟩
  by_cases hone : t.child .left n = none ∨ t.child .right n = none
  · rw [DeleteSafeAny, if_pos hone] at hsafe
    obtain ⟨t', f, hdel, hres, -⟩ := delete_one (k := k) h hn hone hsafe (fuel + 1)
    exact ⟨t', f, hdel, hres⟩
  rw [DeleteSafeAny, if_neg hone] at hsafe
  obtain ⟨u, hrep⟩ := h.exists_replaced k hn hone
  obtain ⟨t', f, hdel, hres, -⟩ :=
    delete_one (k := k) hrep.holds hrep.mem (.inl hrep.left) (hsafe u hrep.leftmost) fuel
  refine ⟨t', f, ?_, hres.holds, hres.freed, ?_, ?_, ?_, ?_⟩
  · rw [hrep.next (fuel + 5) (by omega), hdel]
  · exact hres.item.trans (swap_perm hn hrep.mem hrep.ne h.nodup)
  · intro a ha
    have han : a ≠ n := by rintro rfl; exact ha hn
    have hau : a ≠ u := by rintro rfl; exact ha hrep.mem
    rw [hres.frame a ha, Tree.node_swapItems_of_ne _ _ _ _ _ han hau]
  · intro P hstep hP
    exact hres.ext P hstep (hstep _ _ _ (hstep _ _ _ hP))
  · intro c' v' h' hn'
    obtain ⟨m, hm⟩ := hrep.leftmost
    have hu' := leftmost_mem (linked_plug.mp h'.linked).2 hn' (hm m le_rfl)
    have hswap' : Holds (t.swapItems k n u) (c'.plug v') := h'.congr (by simp) (by simp) (by simp)
    obtain ⟨hf, hsame⟩ := hres.inside c' v' hswap' hu'
    refine ⟨hf, fun x hx => ?_⟩
    have hxn : x ≠ n := by rintro rfl; exact hx hn'
    have hxu : x ≠ u := by rintro rfl; exact hx hu'
    simp [hsame x hx, hxn, hxu]

theorem HoldsCells.delete (h : HoldsCells t cells) (hn : n ∈ cells) (hsafe : DeleteSafeAny k t n) :
    ∃ t' f, Returns (fun fuel => t.delete k fuel n) (t', f) ∧ Deleted k t t' cells n f := by
  obtain ⟨s, rfl, h⟩ := h
  obtain ⟨t', f, hdel, hres⟩ := delete_spec (k := k) h hn hsafe
    (show (inorder s).length + 6 < (inorder s).length + 7 by omega)
  exact ⟨t', f, (Tree.delete_steady _ _ _).returns _ hdel, hres⟩

end UntitledOs.RbTree
