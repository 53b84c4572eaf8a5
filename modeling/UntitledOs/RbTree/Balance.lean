import UntitledOs.Lib.RedBlack
import UntitledOs.RbTree.Insert
import UntitledOs.RbTree.Delete

/-!
# Colours

What the tree code does to the colours.  Insertion keeps a red-black tree as long
as the recolouring on the way up stops below the root, and `delete` does as long
as it has nothing to repair: at a red leaf, at a node with one child, or at a
root without children.
-/

namespace UntitledOs.RbTree

open UntitledOs.Lib

variable {α σ : Type} {t t' : Tree α σ} {s v r : BinaryTree Nat} {c : Context Nat}
  {d e f : Side} {a n p q g u : Nat} {h k fuel : Nat}

def Tree.Red (t : Tree α σ) (a : Nat) : Prop := t.clr a = .red

theorem Tree.not_red : ¬ t.Red a ↔ t.clr a = .black := by
  unfold Tree.Red
  cases t.clr a <;> simp

@[simp] theorem Tree.red_setClr_of_ne (x : Color) (hne : a ≠ n) :
    (t.setClr n x).Red a ↔ t.Red a := by
  simp [Tree.Red, hne]

/-- The nodes are a red-black tree with a black root. -/
def Balanced (t : Tree α σ) : Prop := ∃ s, Holds t s ∧ Sound t.Red s

theorem join_other (d : Side) (v s : BinaryTree Nat) (a : Nat) :
    join d.other v a s = join d s a v := by
  cases d <;> rfl

theorem Holds.nodup_two (hh : Holds t (c.plug (join f (join e v p s) g r))) :
    (g :: p :: (inorder v ++ inorder s ++ inorder r ++ c.cells)).Nodup := by
  refine (List.Perm.nodup_iff ?_).mp (Context.nodup_plug.mp hh.nodup)
  refine ((inorder_join_perm f _ g r).append_right _).trans ?_
  exact ((((inorder_join_perm e v p s).append_right _).append_right _).cons g)

/-- What stands in the hole of `c` after a rotation: a red-black tree with a black root. -/
def Turned (t t' : Tree α σ) (c : Context Nat) (k : Nat) : Prop :=
  ∃ w, Holds t' (c.plug w) ∧ RootBlack t'.Red w ∧ RedBlack t'.Red w k ∧
    ∀ x ∈ c.cells, t'.Red x ↔ t.Red x

theorem Turned.balanced (h : Turned t t' c k) (hc : c.Fits t.Red k) : Balanced t' := by
  obtain ⟨w, hholds, hroot, hw, hkeep⟩ := h
  exact ⟨_, hholds, Context.sound_plug.mpr ⟨k, hw, fun _ => hroot, hc.congr hkeep⟩⟩

/-- Case 6 leaves `p` black over its outer child and the red `g`. -/
theorem insertOuter_turned (hh : Holds t (c.plug (join f (join f v p s) g r)))
    (hv : RedBlack t.Red v k) (hs : RedBlack t.Red s k) (hsb : RootBlack t.Red s)
    (hr : RedBlack t.Red r k) (hrb : RootBlack t.Red r) :
    ∃ t', t.insertOuter p g f = some t' ∧ Turned t t' c (k + 1) := by
  have hnd := hh.nodup_two
  simp only [List.nodup_cons, List.mem_cons, List.mem_append, not_or] at hnd
  obtain ⟨⟨hgp, ⟨⟨hgv, hgs⟩, hgr⟩, hgc⟩, ⟨⟨⟨hpv, hps⟩, hpr⟩, hpc⟩, -⟩ := hnd
  have hturned : Holds t (c.plug (join f.other r g (join f.other s p v))) := by
    simpa only [join_other] using hh
  obtain ⟨t₁, hrot, hclr, hre⟩ := rotate_spec hturned
  have hred : ∀ (l : List Nat), p ∉ l → g ∉ l →
      ∀ x ∈ l, ((t₁.setClr p .black).setClr g .red).Red x ↔ t.Red x := by
    intro l hpl hgl x hx
    have hxp : x ≠ p := by rintro rfl; exact hpl hx
    have hxg : x ≠ g := by rintro rfl; exact hgl hx
    simp [Tree.Red, hxp, hxg, hclr]
  have hp : ¬ ((t₁.setClr p .black).setClr g .red).Red p := by simp [Tree.Red, Ne.symm hgp]
  have hg : ((t₁.setClr p .black).setClr g .red).Red g := by simp [Tree.Red]
  have hs' := hred _ hps hgs
  have hr' := hred _ hpr hgr
  refine ⟨(t₁.setClr p .black).setClr g .red,
    by simp only [Tree.insertOuter, hrot, Option.map_some], _,
    Holds.setClr_iff.mpr (Holds.setClr_iff.mpr hre.holds), rootBlack_join.mpr hp, ?_, hred _ hpc hgc⟩
  refine redBlack_join.mpr (.inr ⟨hp, k, rfl, redBlack_join.mpr (.inl ⟨hg,
    hrb.congr hr', hsb.congr hs', hr.congr hr', hs.congr hs'⟩), ?_⟩)
  exact hv.congr (hred _ hpv hgv)

theorem insertRotate_turned (hh : Holds t (((c.step f g r).step d p s).plug v))
    (hroot : Lib.root v = some n) (hn : t.Red n) (hp : t.Red p)
    (hv : RedBlack t.Red v k) (hs : RedBlack t.Red s k) (hsb : RootBlack t.Red s)
    (hr : RedBlack t.Red r k) (hrb : RootBlack t.Red r) :
    ∃ t', t.insertRotate n p g f = some t' ∧ Turned t t' c (k + 1) := by
  obtain ⟨-, hd, ho, -⟩ := Holds.at_plug (u := v) hh
  unfold Tree.insertRotate
  rcases Side.eq_or_other f d with rfl | rfl
  · -- `n` is an outer grandchild
    have hne : t.child d.other p ≠ some n := by
      rw [ho]
      intro hsn
      refine hh.disjoint (root_mem hroot) ?_
      simp [Context.cells, root_mem hsn]
    rw [if_neg hne]
    exact insertOuter_turned hh hv hs hsb hr hrb
  · -- the first rotation makes `p` the outer child of `n`
    rw [if_pos (hd.trans hroot)]
    obtain ⟨x, y, rfl⟩ := eq_join_of_root hroot f
    have hturned : Holds t ((c.step f g r).plug (join f s p (join f x n y))) := by
      rw [← join_other]
      exact hh
    obtain ⟨t₁, hrot, hclr, hre⟩ := rotate_spec hturned
    have hred : t₁.Red = t.Red := funext fun x => by rw [Tree.Red, hclr, Tree.Red]
    have hslot : t₁.child f g = some n := by
      rw [hre.holds.slot_child rfl, root_join]
    rw [hrot, Option.bind_some, hslot, Option.bind_some]
    rcases redBlack_join.mp hv with ⟨-, hbx, hby, hhx, hhy⟩ | ⟨hn', -⟩
    · rw [← hred] at hp hs hsb hr hrb hbx hby hhx hhy
      have hps : RedBlack t₁.Red (join f s p x) k :=
        redBlack_join.mpr (.inl ⟨hp, hsb, hbx, hs, hhx⟩)
      obtain ⟨t', houter, hturned'⟩ :
          ∃ t', t₁.insertOuter n g f = some t' ∧ Turned t₁ t' c (k + 1) :=
        insertOuter_turned hre.holds hps hhy hby hr hrb
      rw [Turned, hred] at hturned'
      exact ⟨t', houter, hturned'⟩
    · exact absurd hn hn'

/-- Case 2: `p` and the uncle `u` turn black, `g` red. -/
theorem recolor_redBlack (hh : Holds t (c.plug (join f (join d v p s) g r)))
    (hu : Lib.root r = some u) (hur : t.Red u)
    (hv : RedBlack t.Red v k) (hs : RedBlack t.Red s k) (hr : RedBlack t.Red r k) :
    let t₁ := ((t.setClr p .black).setClr u .black).setClr g .red
    t₁.Red g ∧ RedBlack t₁.Red (join f (join d v p s) g r) (k + 1) ∧
      ∀ x ∈ c.cells, t₁.Red x ↔ t.Red x := by
  intro t₁
  obtain ⟨x, y, rfl⟩ := eq_join_of_root hu f
  have hnd : (g :: p :: u :: (inorder v ++ inorder s ++ (inorder x ++ inorder y) ++ c.cells)).Nodup := by
    refine (List.Perm.nodup_iff ?_).mp hh.nodup_two
    exact (((((inorder_join_perm f x u y).append_left _).trans List.perm_middle).append_right
      _).cons p).cons g
  simp only [List.nodup_cons, List.mem_cons, List.mem_append, not_or] at hnd
  obtain ⟨⟨hgp, hgu, ⟨⟨hgv, hgs⟩, hgx, hgy⟩, hgc⟩, ⟨hpu, ⟨⟨hpv, hps⟩, hpx, hpy⟩, hpc⟩,
    ⟨⟨⟨huv, hus⟩, hux, huy⟩, huc⟩, -⟩ := hnd
  have hred : ∀ (l : List Nat), p ∉ l → g ∉ l → u ∉ l → ∀ x ∈ l, t₁.Red x ↔ t.Red x := by
    intro l hpl hgl hul x hx
    have hxp : x ≠ p := by rintro rfl; exact hpl hx
    have hxg : x ≠ g := by rintro rfl; exact hgl hx
    have hxu : x ≠ u := by rintro rfl; exact hul hx
    simp [t₁, Tree.Red, hxp, hxg, hxu]
  have hp₁ : ¬ t₁.Red p := by simp [t₁, Tree.Red, Ne.symm hgp, hpu]
  have hu₁ : ¬ t₁.Red u := by simp [t₁, Tree.Red, Ne.symm hgu]
  have hg₁ : t₁.Red g := by simp [t₁, Tree.Red]
  refine ⟨hg₁, redBlack_join.mpr (.inl ⟨hg₁, ?_, ?_, ?_, ?_⟩), hred _ hpc hgc huc⟩
  · simpa using hp₁
  · simpa using hu₁
  · exact redBlack_join.mpr (.inr ⟨hp₁, k, rfl, hv.congr (hred _ hpv hgv huv),
      hs.congr (hred _ hps hgs hus)⟩)
  · exact hr.blacken hur hu₁ (hred _ hpx hgx hux) (hred _ hpy hgy huy)

/-- The loop from a red node on whose way up the recolouring stops below the root. -/
theorem insertLoop_balanced (hh : Holds t ((c.step d p s).plug v)) (hroot : Lib.root v = some n)
    (hn : t.Red n) (hv : RedBlack t.Red v k) (hc : (c.step d p s).Fits t.Red k)
    (hspared : (c.step d p s).Spared t.Red) (hfuel : c.depth < fuel) :
    ∃ t', Tree.insertLoop fuel t n p = some t' ∧ Balanced t' := by
  induction fuel using Nat.strong_induction_on generalizing t c d p s v n k with
  | _ fuel ih =>
      obtain ⟨fuel, rfl⟩ : ∃ j, fuel = j + 1 := ⟨fuel - 1, by omega⟩
      obtain ⟨hs, ⟨hp, hsb, hneeds, hfits⟩ | ⟨hp, hfits⟩⟩ := hc
      · cases c with
        | top => exact absurd trivial hneeds
        | step c f g r =>
            obtain ⟨hr, ⟨hg, -⟩ | ⟨hg, hfits⟩⟩ := hfits
            · exact absurd hg hneeds
            obtain ⟨hrb, hturn⟩ | ⟨u, t₁, rfl, hu, hur, hholds, hturn⟩ :=
              insertLoop_turn (n := n) fuel hh fun hb => Tree.not_red.mpr hb hp
            · rw [hturn]
              obtain ⟨t', hrot, hturned⟩ := insertRotate_turned hh hroot hn hp hv hs hsb hr
                fun a ha => Tree.not_red.mpr (hrb a ha)
              exact ⟨t', hrot, hturned.balanced hfits⟩
            have hred : t.Red u := not_not.mp fun hub => hur (Tree.not_red.mp hub)
            have hspared' : c.Spared t.Red := by
              rcases hspared with hp' | hrb | hspared
              · exact absurd hp hp'
              · exact absurd hred (hrb u hu)
              · exact hspared
            obtain ⟨hg₁, hv₁, hkeep⟩ := recolor_redBlack (c := c) hh hu hred hv hs hr
            rw [hturn]
            cases c with
            | top => exact hspared'.elim
            | step c e y z =>
                exact ih fuel (by omega) hholds (root_join ..) hg₁ hv₁ (hfits.congr hkeep)
                  (hspared'.congr hkeep) (by simp only [Context.depth] at hfuel; omega)
      · rw [Tree.insertLoop, if_pos (Tree.not_red.mp hp)]
        exact ⟨t, rfl, _, hh, Context.sound_plug.mpr
          ⟨k, hv, fun hneeds => absurd hneeds hp, hs, .inr ⟨hp, hfits⟩⟩⟩

/-- The recolouring from where the descent puts `n` stops below the root. -/
def InsertSpares (k : TreeKind α σ) (t : Tree α σ) (n : Nat) : Prop :=
  ∀ c, c ≠ .top → Holds t (c.plug .nil) →
    Follows (fun a => k.less t.ext (t.item n) (t.item a)) c → c.Spared t.Red

/-- The new node is a red leaf where `insertp` has put it, and every other cell keeps its colour. -/
theorem grafted_red {t₁ : Tree α σ} (ht₁ : t₁ = (((((t.setChild d p (some n)).clearChildren n).setClr n
      .red).clearChildren n).setParent n (some p)).setChild d p (some n))
    (hn : n ∉ inorder ((c.step d p s).plug .nil)) :
    t₁.Red n ∧ RedBlack t₁.Red (.node n .nil .nil) 0 ∧
      ∀ x ∈ (c.step d p s).cells, t₁.Red x ↔ t.Red x := by
  have hred : t₁.Red n := by simp [ht₁, Tree.Red]
  refine ⟨hred, .inl ⟨hred, rootBlack_nil, rootBlack_nil, rfl, rfl⟩, ?_⟩
  intro x hx
  have hxn : x ≠ n := by
    rintro rfl
    exact hn (Context.mem_inorder_plug.mpr (.inr hx))
  simp [ht₁, Tree.Red, hxn]

theorem insertp_balanced (fuel : Nat) (hh : Holds t ((c.step d p s).plug .nil))
    (hn : n ∉ inorder ((c.step d p s).plug .nil)) (hsound : Sound t.Red ((c.step d p s).plug .nil))
    (hspared : (c.step d p s).Spared t.Red) (hfuel : c.depth < fuel) :
    ∃ t', Tree.insertp fuel ((t.setChild d p (some n)).clearChildren n) n (some p) d = some t' ∧
      Balanced t' := by
  obtain ⟨h, hnil, -, hfits⟩ := Context.sound_plug.mp hsound
  obtain rfl : h = 0 := redBlack_nil.mp hnil
  obtain ⟨hred, hleaf, hkeep⟩ := grafted_red (c := c) rfl hn
  exact insertLoop_balanced (hh.grafted hn) (root_node ..) hred hleaf (hfits.congr hkeep)
    (hspared.congr hkeep) hfuel

theorem Holds.first_balanced :
    Balanced ((((t.setClr n .black).clearChildren n).setParent n none).setRoot (some n)) := by
  refine ⟨.node n .nil .nil, Holds.first, ?_, 1, ?_⟩
  · intro a ha
    obtain rfl : n = a := by simpa using ha
    simp [Tree.Red]
  · exact .inr ⟨by simp [Tree.Red], 0, rfl, rfl, rfl⟩

theorem insert_balanced (k : TreeKind α σ) (hh : Holds t s) (hn : n ∉ inorder s)
    (hsound : Sound t.Red s) (hspares : InsertSpares k t n)
    (hfuel : 2 * (inorder s).length < fuel) :
    ∃ t', Tree.insert k fuel t n = some t' ∧ Balanced t' := by
  cases s with
  | nil => exact ⟨_, by simp only [Tree.insert, hh.root]; rfl, Holds.first_balanced⟩
  | node a l r =>
      obtain ⟨c, d, p, u, rest, pre, post, hinsert, hd⟩ := Tree.insert_descends (n := n) k hh hfuel
      rw [← Context.plug_top (.node a l r), ← hd.hole] at hh hn hsound
      rw [hinsert, hd.inserts]
      exact insertp_balanced rest hh hn hsound (hspares _ (by simp) hh hd.follows) hd.deep

/-! ## Deletion -/

/-- `n` has at most one child, and if it has none, it is the root or red. -/
def DeletePlain (t : Tree α σ) (n : Nat) : Prop :=
  (t.child .left n = none ∨ t.child .right n = none) ∧
    (t.child .left n = none → t.child .right n = none → t.root = some n ∨ t.clr n = .red)

theorem Holds.one_child (hh : Holds t s) (hn : n ∈ inorder s)
    (hone : t.child .left n = none ∨ t.child .right n = none) :
    ∃ (c : Context Nat) (d : Side) (v : BinaryTree Nat), s = c.plug (join d v n .nil) ∧
      t.child d n = Lib.root v ∧ t.child d.other n = none := by
  obtain ⟨c, l, r, rfl⟩ := Context.exists_plug hn .left
  obtain ⟨-, hl, hr, -⟩ := hh.at_plug
  rcases hone with hnone | hnone
  · obtain rfl : l = .nil := root_eq_none.mp (hl.symm.trans hnone)
    exact ⟨c, .right, r, rfl, hr, hnone⟩
  · obtain rfl : r = .nil := root_eq_none.mp (hr.symm.trans hnone)
    exact ⟨c, .left, l, rfl, hl, hnone⟩

theorem join_nil_nil (d : Side) (n : Nat) : join d .nil n .nil = .node n .nil .nil := by
  cases d <;> rfl

theorem DeletePlain.cases (hh : Holds t s) (hn : n ∈ inorder s) (hplain : DeletePlain t n) :
    ∃ (c : Context Nat) (d : Side) (v : BinaryTree Nat), s = c.plug (join d v n .nil) ∧ t.child d n = Lib.root v ∧ t.child d.other n = none ∧
      (v = .nil → c = .top ∨ t.Red n) := by
  obtain ⟨c, d, v, rfl, hv, ho⟩ := hh.one_child hn hplain.1
  refine ⟨c, d, v, rfl, hv, ho, ?_⟩
  rintro rfl
  have hroot : t.root = some n ↔ c = .top := hh.root_iff
  rw [← hroot]
  cases d with
  | left => exact hplain.2 hv ho
  | right => exact hplain.2 ho hv

theorem leafSafe_of_redBlack (hh : Holds t (c.plug (.node n .nil .nil)))
    (hb : RedBlack t.Red (c.plug (.node n .nil .nil)) h) : LeafSafe t n := by
  have hp := (Holds.at_plug (d := .left) (u := .nil) (v := .nil) hh).1
  cases c with
  | top => exact .inr (by rw [hp]; trivial)
  | step c d p r =>
      by_cases hn : t.clr n = .red
      · exact .inl hn
      have hside : t.sideUnder p n = d := hh.sideUnder (root_node ..)
      have hr : t.child d.other p = Lib.root r :=
        (Holds.at_plug (c := c) (u := .node n .nil .nil) hh).2.2.1
      refine .inr ?_
      rw [hp]
      refine .inr ?_
      rw [hside, hr, Ne, root_eq_none]
      rintro rfl
      -- no black node on the other side of `p`
      obtain ⟨k, hb⟩ := Context.redBlack_of_plug (t := join d (.node n .nil .nil) p .nil) hb
      obtain ⟨-, -, b, hleaf, hred⟩ := hb.only_child (by simp)
      obtain rfl : n = b := by cases hleaf; rfl
      exact hn hred

/-- A node with at most one child can be deleted from a red-black tree. -/
theorem deleteSafe_of_redBlack (hh : Holds t s) (hb : RedBlack t.Red s h) (hn : n ∈ inorder s)
    (hone : t.child .left n = none ∨ t.child .right n = none) : DeleteSafe t n := by
  obtain ⟨c, d, v, rfl, hv, ho⟩ := hh.one_child hn hone
  have hor : (t.child .left n).or (t.child .right n) = Lib.root v := by
    cases d with
    | left =>
        simp only [Side.other] at ho
        rw [hv, ho, Option.or_none]
    | right =>
        simp only [Side.other] at ho
        rw [hv, ho, Option.none_or]
  unfold DeleteSafe
  rw [hor]
  cases v with
  | nil =>
      rw [join_nil_nil] at hh hb
      exact leafSafe_of_redBlack hh hb
  | node u l r =>
      obtain ⟨k, hb⟩ := Context.redBlack_of_plug hb
      obtain ⟨-, -, b, hleaf, hred⟩ := hb.only_child (by simp)
      cases hleaf
      rw [root_node]
      simp only
      split
      · obtain ⟨-, hx, hy, -⟩ := Holds.at_plug (c := c.step d n .nil) (d := .left) (p := u)
          (u := .nil) (v := .nil) hh
        intro e
        rcases Side.eq_or_other .left e with rfl | rfl
        · exact hx
        · exact hy
      · exact .inl hred

theorem deleteLeaf_balanced (hh : Holds t (c.plug (.node n .nil .nil)))
    (hsound : Sound t.Red (c.plug (.node n .nil .nil))) (hleaf : c = .top ∨ t.Red n)
    (fuel : Nat) : ∃ t', t.deleteLeaf fuel n = some t' ∧ Balanced t' := by
  have hp := (Holds.at_plug (d := .left) (u := .nil) (v := .nil) hh).1
  have hroot : t.root = some n ↔ c = .top :=
    Holds.root_iff (d := .left) (u := .nil) (v := .nil) hh
  unfold Tree.deleteLeaf
  cases c with
  | top =>
      rw [if_pos (hroot.mpr rfl)]
      exact ⟨_, rfl, .nil, ⟨rfl, trivial, List.nodup_nil⟩, rootBlack_nil, 0, rfl⟩
  | step c d p r =>
      have hn : t.Red n := hleaf.resolve_left (by simp)
      have hsib : t.getSibling n = some n := hh.getSibling (root_node ..)
      rw [if_neg (by simp [hroot]), if_neg (fun hb => Tree.not_red.mpr hb hn), hsib]
      have hh₁ : Holds (t.setClr n .red) ((c.step d p r).plug (.node n .nil .nil)) :=
        Holds.setClr_iff.mpr hh
      have hside : (t.setClr n .red).sideUnder p n = d := hh₁.sideUnder (root_node ..)
      refine ⟨(t.setClr n .red).setChild d p none, ?_, _, hh₁.prune, ?_⟩
      · simp [hp, Tree.dirChild, hside]
      · have hred : ((t.setClr n .red).setChild d p none).Red = t.Red := by
          funext x
          by_cases hx : x = n
          · subst hx
            simpa [Tree.Red] using hn
          · simp [Tree.Red, hx]
        obtain ⟨h, hb, -, hfits⟩ := Context.sound_plug.mp hsound
        rw [hred]
        rcases hb with ⟨-, -, -, hnil, -⟩ | ⟨hn', -⟩
        · exact Context.sound_plug.mpr ⟨h, hnil, fun _ => rootBlack_nil, hfits⟩
        · exact absurd hn hn'

theorem deleteOneChild_balanced (k : TreeKind α σ) (hstored : k.stored .black = .black)
    (hh : Holds t (c.plug (join e v n .nil))) (hv : Lib.root v = some u)
    (hsound : Sound t.Red (c.plug (join e v n .nil))) (fuel : Nat) :
    ∃ t' f, t.deleteOneChild k fuel n u = some (t', f) ∧ Balanced t' := by
  have hp := hh.at_plug.1
  have hroot : t.root = some n ↔ c = .top := hh.root_iff
  obtain ⟨h, hb, -, hfits⟩ := Context.sound_plug.mp hsound
  obtain ⟨hn, rfl, b, rfl, hu⟩ := hb.only_child (by rintro rfl; simp at hv)
  obtain rfl : b = u := by simpa using hv
  unfold Tree.deleteOneChild
  cases c with
  | top =>
      rw [if_pos (hroot.mpr rfl)]
      refine ⟨_, _, rfl, .node n .nil .nil, ⟨?_, ?_, ?_⟩, ?_, 1, ?_⟩
      · simpa using hh.root
      · have hpn : t.parent n = none := hp
        refine ⟨?_, ?_, ?_, trivial, trivial⟩ <;> simp [hpn]
      · simp
      · intro a ha
        obtain rfl : n = a := by simpa using ha
        simp [Tree.Red, Tree.not_red.mp hn, hstored]
      · exact .inr ⟨by simp [Tree.Red, Tree.not_red.mp hn, hstored], 0, rfl, rfl, rfl⟩
  | step c d p r =>
      have hside : t.sideUnder p n = d := hh.sideUnder (root_join ..)
      have hpn : t.parent n = some p := hp
      have hspliced := hh.splice hv
      have hub : b ∉ (c.step d p r).cells := hspliced.disjoint (by simp)
      rw [if_neg (by simp [hroot])]
      have hclr : t.clr b = .red := hu
      refine ⟨(((t.setChild d p (some b)).setParent b (some p)).setClr b .black), n, ?_, _,
        Holds.setClr_iff.mpr hspliced, ?_⟩
      · simp [hpn, Tree.dirChild, hside, hclr]
      · have hred : ∀ x ∈ (c.step d p r).cells,
            (((t.setChild d p (some b)).setParent b (some p)).setClr b .black).Red x ↔ t.Red x := by
          intro x hx
          have hxb : x ≠ b := by rintro rfl; exact hub hx
          simp [Tree.Red, hxb]
        have hblack : ¬ (((t.setChild d p (some b)).setParent b (some p)).setClr b .black).Red b := by
          simp [Tree.Red]
        refine Context.sound_plug.mpr ⟨1, .inr ⟨hblack, 0, rfl, rfl, rfl⟩, fun _ a ha => ?_,
          hfits.congr hred⟩
        obtain rfl : b = a := by simpa using ha
        exact hblack

theorem delete_balanced (k : TreeKind α σ) (hstored : k.stored .black = .black) (hh : Holds t s)
    (hn : n ∈ inorder s) (hsound : Sound t.Red s) (hplain : DeletePlain t n) (fuel : Nat) :
    ∃ t' f, t.delete k (fuel + 1) n = some (t', f) ∧ Balanced t' := by
  obtain ⟨c, d, v, rfl, hv, ho, hleaf⟩ := hplain.cases hh hn
  unfold Tree.delete Tree.deleteReplacement
  cases v with
  | nil =>
      have hnone : ∀ e, t.child e n = none := by
        intro e
        rcases Side.eq_or_other d e with rfl | rfl
        · exact hv
        · exact ho
      rw [join_nil_nil] at hh hsound
      obtain ⟨t', hdel, hbal⟩ := deleteLeaf_balanced hh hsound (hleaf rfl) fuel
      exact ⟨t', n, by simp [hnone, hdel], hbal⟩
  | node u l r =>
      obtain ⟨t', f, hdel, hbal⟩ := deleteOneChild_balanced k hstored hh (root_node u l r) hsound fuel
      refine ⟨t', f, ?_, hbal⟩
      rw [root_node] at hv
      cases d with
      | left =>
          simp only [Side.other] at ho
          simp [hv, ho, hdel]
      | right =>
          simp only [Side.other] at ho
          simp [hv, ho, hdel]

end UntitledOs.RbTree
