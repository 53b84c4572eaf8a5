import UntitledOs.Lib.NearRedBlack
import UntitledOs.RbTree.Balance

/-!
# Insertion and the red root

Recolouring can turn the root red, and a red node below a red root is left alone.
Every insertion keeps the nodes a red-black tree but for this.
-/

namespace UntitledOs.RbTree

open UntitledOs.Lib

variable {α σ : Type} {t t' : Tree α σ} {s v r : BinaryTree Nat} {c : Context Nat}
  {d e f : Side} {a b n p q g u : Nat} {h k fuel : Nat} {ns : List Nat}

/-- The nodes are a red-black tree whose root may be red over red children. -/
def NearBalanced (t : Tree α σ) : Prop := ∃ s, Holds t s ∧ ∃ h, NearRedBlack t.Red s h

theorem nearBalanced_plug (hh : Holds t (c.plug v)) (hv : RedBlack t.Red v k)
    (hroot : c.NeedsBlackBelow t.Red → RootBlack t.Red v) (hc : c.FitsNear t.Red k) :
    NearBalanced t := by
  cases c with
  | top => exact ⟨v, hh, k, hv.near⟩
  | step c d p s => exact ⟨_, hh, Context.near_plug.mpr ⟨k, hv, hroot, hc⟩⟩

theorem Holds.red_root (hh : Holds t s) (hnear : NearRedBlack t.Red s h) (ha : a ∈ inorder s)
    (hchild : t.child d a = some b) (hra : t.Red a) (hrb : t.Red b) : t.root = some a := by
  obtain ⟨c, u, v, rfl⟩ := Context.exists_plug ha d
  have hroot : Lib.root u = some b := hh.at_plug.2.1.symm.trans hchild
  cases c with
  | top => rw [hh.root, Context.plug_top, root_join]
  | step c e p r =>
      obtain ⟨-, -, hblack, -⟩ :=
        (Context.near_plug (c := (c.step e p r)) (d := d) (p := a) (s := v)).mp ⟨h, hnear⟩
      exact absurd hrb (hblack hra b hroot)

theorem Turned.nearBalanced (h : Turned t t' c k) (hc : c.FitsNear t.Red k) : NearBalanced t' := by
  obtain ⟨w, hholds, hroot, hw, hkeep⟩ := h
  exact nearBalanced_plug hholds hw (fun _ => hroot) (hc.congr hkeep)

theorem insertLoop_near (hh : Holds t ((c.step d p s).plug v)) (hroot : Lib.root v = some n)
    (hn : t.Red n) (hv : RedBlack t.Red v k) (hc : (c.step d p s).FitsNear t.Red k)
    (hfuel : c.depth < fuel) :
    ∃ t', Tree.insertLoop fuel t n p = some t' ∧ NearBalanced t' := by
  induction fuel using Nat.strong_induction_on generalizing t c d p s v n k with
  | _ fuel ih =>
      obtain ⟨fuel, rfl⟩ : ∃ j, fuel = j + 1 := ⟨fuel - 1, by omega⟩
      have hparent : t.parent p = c.owner := hh.at_plug.1
      by_cases hblack : t.clr p = .black
      · -- case 1
        rw [Tree.insertLoop, if_pos hblack]
        refine ⟨t, rfl, nearBalanced_plug hh hv (fun hneeds => ?_) hc⟩
        cases c with
        | top => exact hneeds.elim
        | step c e q r => exact absurd hneeds (Tree.not_red.mpr hblack)
      have hp : t.Red p := not_not.mp fun h => hblack (Tree.not_red.mp h)
      cases c with
      | top =>
          -- case 4: the root stays red, over a red child
          rw [Tree.insertLoop, if_neg hblack, hparent]
          have hsame : (t.setClr p .red).Red = t.Red := by
            funext x
            by_cases hx : x = p
            · subst hx
              simpa [Tree.Red] using hp
            · simp [Tree.Red, hx]
          refine ⟨_, rfl, nearBalanced_plug (c := .step .top d p s) (Holds.setClr_iff.mpr hh)
            (k := k) ?_ (fun hneeds => hneeds.elim) ?_⟩
          · rwa [hsame]
          · rwa [hsame]
      | step c f g r =>
          obtain ⟨hs, ⟨-, hsb, hneeds, hfits⟩ | ⟨hp', -⟩⟩ := hc
          swap
          · exact absurd hp hp'
          -- the sibling of `p`, and what the tree above `g` asks for
          have hrest : RedBlack t.Red r k ∧ c.FitsNear t.Red (k + 1) := by
            cases c with
            | top => exact ⟨hfits, trivial⟩
            | step c e y z =>
                obtain ⟨hr, ⟨hg, -⟩ | ⟨-, hfits⟩⟩ := hfits
                · exact absurd hg hneeds
                · exact ⟨hr, hfits⟩
          obtain ⟨hr, hfits'⟩ := hrest
          obtain ⟨hrb, hturn⟩ | ⟨u, t₁, rfl, hu, hur, hholds, hturn⟩ :=
            insertLoop_turn (n := n) fuel hh hblack
          · rw [hturn]
            obtain ⟨t', hrot, hturned⟩ := insertRotate_turned hh hroot hn hp hv hs hsb hr
              fun a ha => Tree.not_red.mpr (hrb a ha)
            exact ⟨t', hrot, hturned.nearBalanced hfits'⟩
          obtain ⟨hg₁, hv₁, hkeep⟩ := recolor_redBlack (c := c) hh hu
            (not_not.mp fun hub => hur (Tree.not_red.mp hub)) hv hs hr
          rw [hturn]
          cases c with
          | top => exact ⟨_, rfl, nearBalanced_plug hholds hv₁ (fun h => h.elim) trivial⟩
          | step c e y z =>
              exact ih fuel (by omega) hholds (root_join ..) hg₁ hv₁ (hfits'.congr hkeep)
                (by simp only [Context.depth] at hfuel; omega)

theorem insertp_near (fuel : Nat) (hh : Holds t ((c.step d p s).plug .nil))
    (hn : n ∉ inorder ((c.step d p s).plug .nil))
    (hnear : ∃ h, NearRedBlack t.Red ((c.step d p s).plug .nil) h) (hfuel : c.depth < fuel) :
    ∃ t', Tree.insertp fuel ((t.setChild d p (some n)).clearChildren n) n (some p) d = some t' ∧
      NearBalanced t' := by
  obtain ⟨h, hnil, -, hfits⟩ := Context.near_plug.mp hnear
  obtain rfl : h = 0 := redBlack_nil.mp hnil
  obtain ⟨hred, hleaf, hkeep⟩ := grafted_red (c := c) rfl hn
  exact insertLoop_near (hh.grafted hn) (root_node ..) hred hleaf (hfits.congr hkeep) hfuel

theorem insert_near (k : TreeKind α σ) (hh : Holds t s) (hn : n ∉ inorder s)
    (hnear : ∃ h, NearRedBlack t.Red s h) (hfuel : 2 * (inorder s).length < fuel) :
    ∃ t', Tree.insert k fuel t n = some t' ∧ NearBalanced t' := by
  cases s with
  | nil =>
      refine ⟨_, by simp only [Tree.insert, hh.root]; rfl, .node n .nil .nil, Holds.first,
        1, 0, rfl, rfl, .inr ⟨?_, rfl⟩⟩
      simp [Tree.Red]
  | node a l r =>
      obtain ⟨c, d, p, u, rest, pre, post, hinsert, hd⟩ := Tree.insert_descends (n := n) k hh hfuel
      rw [← Context.plug_top (.node a l r), ← hd.hole] at hh hn hnear
      rw [hinsert, hd.inserts]
      exact insertp_near rest hh hn hnear hd.deep

end UntitledOs.RbTree
