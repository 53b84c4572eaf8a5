import UntitledOs.Lib.BinaryTree

/-!
# Red-black trees

The colours of the cells are a predicate `red`.  `RedBlack red t h` says that no
red cell of `t` has a red child and that every way down meets `h` black cells.
For a tree with a hole, `Fits red c h` says what is left of this around a
subtree of black height `h`, and `NeedsBlack` when its root has to be black.
-/

namespace UntitledOs.Lib

variable {α : Type*} {red red' : α → Prop} {s t u v r : BinaryTree α} {c : Context α}
  {d : Side} {a p g : α} {h k : Nat}

def RootBlack (red : α → Prop) (t : BinaryTree α) : Prop := ∀ a, root t = some a → ¬ red a

def RedBlack (red : α → Prop) : BinaryTree α → Nat → Prop
  | .nil, h => h = 0
  | .node a l r, h =>
      (red a ∧ RootBlack red l ∧ RootBlack red r ∧ RedBlack red l h ∧ RedBlack red r h) ∨
        (¬ red a ∧ ∃ k, h = k + 1 ∧ RedBlack red l k ∧ RedBlack red r k)

/-- A red-black tree with a black root. -/
def Sound (red : α → Prop) (t : BinaryTree α) : Prop :=
  RootBlack red t ∧ ∃ h, RedBlack red t h

@[simp] theorem rootBlack_nil : RootBlack red .nil := by simp [RootBlack]

@[simp] theorem rootBlack_join : RootBlack red (join d u a v) ↔ ¬ red a := by simp [RootBlack]

@[simp] theorem redBlack_nil : RedBlack red .nil h ↔ h = 0 := Iff.rfl

theorem redBlack_join :
    RedBlack red (join d u a v) h ↔
      (red a ∧ RootBlack red u ∧ RootBlack red v ∧ RedBlack red u h ∧ RedBlack red v h) ∨
        (¬ red a ∧ ∃ k, h = k + 1 ∧ RedBlack red u k ∧ RedBlack red v k) := by
  cases d with
  | left => rfl
  | right => simp only [join, RedBlack]; tauto

theorem RootBlack.congr (h : RootBlack red t) (hred : ∀ a ∈ inorder t, red' a ↔ red a) :
    RootBlack red' t :=
  fun a ha hra => h a ha ((hred a (root_mem ha)).mp hra)

theorem RedBlack.congr (hb : RedBlack red t h) (hred : ∀ a ∈ inorder t, red' a ↔ red a) :
    RedBlack red' t h := by
  induction t generalizing h with
  | nil => exact hb
  | node a l r ihl ihr =>
      have hl : ∀ x ∈ inorder l, red' x ↔ red x := fun x hx => hred x (by simp [hx])
      have hr : ∀ x ∈ inorder r, red' x ↔ red x := fun x hx => hred x (by simp [hx])
      have ha := hred a (by simp)
      rcases hb with ⟨hra, hbl, hbr, hhl, hhr⟩ | ⟨hra, k, hk, hhl, hhr⟩
      · exact .inl ⟨ha.mpr hra, hbl.congr hl, hbr.congr hr, ihl hhl hl, ihr hhr hr⟩
      · exact .inr ⟨fun h => hra (ha.mp h), k, hk, ihl hhl hl, ihr hhr hr⟩

/-- Below a black root of height one less a tree has no cell at all. -/
theorem RedBlack.eq_nil (hb : RedBlack red t 0) (hroot : RootBlack red t) : t = .nil := by
  cases t with
  | nil => rfl
  | node a l r =>
      rcases hb with ⟨hra, -⟩ | ⟨-, k, hk, -⟩
      · exact absurd hra (hroot a rfl)
      · omega

/-- The only child of a cell is a red leaf. -/
theorem RedBlack.only_child (hb : RedBlack red (join d u a .nil) h) (hu : u ≠ .nil) :
    ¬ red a ∧ h = 1 ∧ ∃ b, u = .node b .nil .nil ∧ red b := by
  rcases redBlack_join.mp hb with ⟨-, hroot, -, hbu, rfl⟩ | ⟨ha, k, rfl, hbu, rfl⟩
  · exact absurd (hbu.eq_nil hroot) hu
  · refine ⟨ha, rfl, ?_⟩
    cases u with
    | nil => exact absurd rfl hu
    | node b l r =>
        rcases hbu with ⟨hrb, hbl, hbr, hhl, hhr⟩ | ⟨-, k, hk, -⟩
        · exact ⟨b, by rw [hhl.eq_nil hbl, hhr.eq_nil hbr], hrb⟩
        · omega

/-- A red root that turns black adds to the black height. -/
theorem RedBlack.blacken (hb : RedBlack red (join d u a v) h) (ha : red a) (ha' : ¬ red' a)
    (hu : ∀ x ∈ inorder u, red' x ↔ red x) (hv : ∀ x ∈ inorder v, red' x ↔ red x) :
    RedBlack red' (join d u a v) (h + 1) := by
  rcases redBlack_join.mp hb with ⟨-, -, -, hbu, hbv⟩ | ⟨hra, -⟩
  · exact redBlack_join.mpr (.inr ⟨ha', h, rfl, hbu.congr hu, hbv.congr hv⟩)
  · exact absurd ha hra

namespace Context

/-- The root of what is put into the hole must be black. -/
def NeedsBlack (red : α → Prop) : Context α → Prop
  | top => True
  | step _ _ p _ => red p

def Fits (red : α → Prop) : Context α → Nat → Prop
  | top, _ => True
  | step c _ p s, h =>
      RedBlack red s h ∧
        ((red p ∧ RootBlack red s ∧ ¬ NeedsBlack red c ∧ Fits red c h) ∨
          (¬ red p ∧ Fits red c (h + 1)))

/-- A red cell in the hole does not turn the root red on its way up. -/
def Spared (red : α → Prop) : Context α → Prop
  | top => False
  | step top _ p _ => ¬ red p
  | step (step c _ _ r) _ p _ => ¬ red p ∨ RootBlack red r ∨ Spared red c

/-- A subtree of a red-black tree is one. -/
theorem redBlack_of_plug (hb : RedBlack red (c.plug t) h) : ∃ k, RedBlack red t k := by
  induction c generalizing t with
  | top => exact ⟨h, hb⟩
  | step c d p s ih =>
      rw [plug_step] at hb
      obtain ⟨k, hb⟩ := ih hb
      rcases redBlack_join.mp hb with ⟨-, -, -, ht, -⟩ | ⟨-, j, -, ht, -⟩
      · exact ⟨k, ht⟩
      · exact ⟨j, ht⟩

/-- A subtree below `p`, where `needs` and `fits` are what is asked of the tree at `p`. -/
theorem redBlack_below {needs : Prop} {fits : Nat → Prop} :
    (∃ h, RedBlack red (join d t p s) h ∧ (needs → RootBlack red (join d t p s)) ∧ fits h) ↔
      ∃ h, RedBlack red t h ∧ (red p → RootBlack red t) ∧ RedBlack red s h ∧
        ((red p ∧ RootBlack red s ∧ ¬ needs ∧ fits h) ∨ (¬ red p ∧ fits (h + 1))) := by
  constructor
  · rintro ⟨h, hb, hroot, hfits⟩
    rw [rootBlack_join] at hroot
    rcases redBlack_join.mp hb with ⟨hp, hbt, hbs, hht, hhs⟩ | ⟨hp, k, rfl, hht, hhs⟩
    · exact ⟨h, hht, fun _ => hbt, hhs, .inl ⟨hp, hbs, fun hneeds => hroot hneeds hp, hfits⟩⟩
    · exact ⟨k, hht, fun hred => absurd hred hp, hhs, .inr ⟨hp, hfits⟩⟩
  · rintro ⟨h, hht, hbt, hhs, ⟨hp, hbs, hneeds, hfits⟩ | ⟨hp, hfits⟩⟩
    · exact ⟨h, redBlack_join.mpr (.inl ⟨hp, hbt hp, hbs, hht, hhs⟩),
        fun hneeds' => absurd hneeds' hneeds, hfits⟩
    · exact ⟨h + 1, redBlack_join.mpr (.inr ⟨hp, h, rfl, hht, hhs⟩),
        fun _ => rootBlack_join.mpr hp, hfits⟩

theorem below_congr {needs needs' : Prop} {fits fits' : Nat → Prop} (hp : red' p ↔ red p)
    (hs : ∀ a ∈ inorder s, red' a ↔ red a) (hneeds : needs' ↔ needs)
    (hfits : ∀ k, fits k → fits' k)
    (hb : RedBlack red s h ∧
      ((red p ∧ RootBlack red s ∧ ¬ needs ∧ fits h) ∨ (¬ red p ∧ fits (h + 1)))) :
    RedBlack red' s h ∧
      ((red' p ∧ RootBlack red' s ∧ ¬ needs' ∧ fits' h) ∨ (¬ red' p ∧ fits' (h + 1))) := by
  refine ⟨hb.1.congr hs, ?_⟩
  rcases hb.2 with ⟨hred, hbs, hnot, hrest⟩ | ⟨hred, hrest⟩
  · exact .inl ⟨hp.mpr hred, hbs.congr hs, fun h => hnot (hneeds.mp h), hfits _ hrest⟩
  · exact .inr ⟨fun h => hred (hp.mp h), hfits _ hrest⟩

theorem sound_plug :
    Sound red (c.plug t) ↔
      ∃ h, RedBlack red t h ∧ (NeedsBlack red c → RootBlack red t) ∧ Fits red c h := by
  induction c generalizing t with
  | top =>
      constructor
      · rintro ⟨hroot, h, hb⟩
        exact ⟨h, hb, fun _ => hroot, trivial⟩
      · rintro ⟨h, hb, hroot, -⟩
        exact ⟨hroot trivial, h, hb⟩
  | step c d p s ih =>
      rw [plug_step, ih]
      exact redBlack_below

theorem needsBlack_congr (hred : ∀ a ∈ c.cells, red' a ↔ red a) :
    NeedsBlack red' c ↔ NeedsBlack red c := by
  cases c with
  | top => exact Iff.rfl
  | step c d p s => exact hred p (by simp [cells])

theorem Fits.congr (hf : Fits red c h) (hred : ∀ a ∈ c.cells, red' a ↔ red a) :
    Fits red' c h := by
  induction c generalizing h with
  | top => trivial
  | step c d p s ih =>
      have hp := hred p (by simp [cells])
      have hs : ∀ x ∈ inorder s, red' x ↔ red x := fun x hx => hred x (by simp [cells, hx])
      have hc : ∀ x ∈ c.cells, red' x ↔ red x := fun x hx => hred x (by simp [cells, hx])
      exact below_congr hp hs (needsBlack_congr hc) (fun k hfits => ih hfits hc) hf

theorem Spared.congr (hs : Spared red c) (hred : ∀ a ∈ c.cells, red' a ↔ red a) :
    Spared red' c := by
  induction c using Spared.induct with
  | case1 => exact hs
  | case2 d p s => exact fun h => hs ((hred p (by simp [cells])).mp h)
  | case3 c e g r d p s ih =>
      rcases hs with hp | hr | hs
      · exact .inl fun h => hp ((hred p (by simp [cells])).mp h)
      · exact .inr (.inl (hr.congr fun x hx => hred x (by simp [cells, hx])))
      · exact .inr (.inr (ih hs fun x hx => hred x (by simp [cells, hx])))

end Context

end UntitledOs.Lib
