import Mathlib.Data.Nat.Log
import Mathlib.Tactic.Ring
import UntitledOs.Lib.RedBlack

/-!
# Red-black trees with a red root

`NearRedBlack` also lets the root be red, over children of any colour.  Every way
down still meets the same number of black cells, so the tree is hardly deeper.
-/

namespace UntitledOs.Lib

variable {α : Type*} {red red' : α → Prop} {s t u v : BinaryTree α} {c : Context α}
  {d : Side} {a p : α} {h k : Nat}

def NearRedBlack (red : α → Prop) : BinaryTree α → Nat → Prop
  | .nil, h => h = 0
  | .node a l r, h =>
      ∃ k, RedBlack red l k ∧ RedBlack red r k ∧ (red a ∧ h = k ∨ ¬ red a ∧ h = k + 1)

theorem RedBlack.near (hb : RedBlack red t h) : NearRedBlack red t h := by
  cases t with
  | nil => exact hb
  | node a l r =>
      rcases hb with ⟨ha, -, -, hl, hr⟩ | ⟨ha, k, rfl, hl, hr⟩
      · exact ⟨h, hl, hr, .inl ⟨ha, rfl⟩⟩
      · exact ⟨k, hl, hr, .inr ⟨ha, rfl⟩⟩

theorem nearRedBlack_join :
    NearRedBlack red (join d u a v) h ↔
      ∃ k, RedBlack red u k ∧ RedBlack red v k ∧ (red a ∧ h = k ∨ ¬ red a ∧ h = k + 1) := by
  cases d with
  | left => exact Iff.rfl
  | right =>
      constructor
      · rintro ⟨k, hl, hr, hroot⟩
        exact ⟨k, hr, hl, hroot⟩
      · rintro ⟨k, hl, hr, hroot⟩
        exact ⟨k, hr, hl, hroot⟩

section Paths

/-- The ways from the root down to where a child is missing. -/
def downPaths : BinaryTree α → List (List α)
  | .nil => [[]]
  | .node a l r => (downPaths l ++ downPaths r).map (a :: ·)

theorem mem_downPaths_node {l r : BinaryTree α} {path : List α} :
    path ∈ downPaths (.node a l r) ↔
      ∃ rest, (rest ∈ downPaths l ∨ rest ∈ downPaths r) ∧ path = a :: rest := by
  simp only [downPaths, List.mem_map, List.mem_append]
  constructor
  · rintro ⟨rest, hrest, rfl⟩
    exact ⟨rest, hrest, rfl⟩
  · rintro ⟨rest, hrest, rfl⟩
    exact ⟨rest, hrest, rfl⟩

variable [DecidablePred red]

/-- Every way down meets `h` black cells. -/
theorem RedBlack.countP_black (hb : RedBlack red t h) :
    ∀ path ∈ downPaths t, path.countP (fun a => ¬ red a) = h := by
  induction t generalizing h with
  | nil =>
      intro path hpath
      obtain rfl := List.mem_singleton.mp hpath
      exact hb.symm
  | node a l r ihl ihr =>
      intro path hpath
      obtain ⟨rest, hrest, rfl⟩ := mem_downPaths_node.mp hpath
      rcases hb with ⟨ha, -, -, hl, hr⟩ | ⟨ha, k, rfl, hl, hr⟩
      · rw [List.countP_cons_of_neg (by simpa using ha)]
        exact hrest.elim (ihl hl rest) (ihr hr rest)
      · rw [List.countP_cons_of_pos (by simpa using ha)]
        exact congrArg (· + 1) (hrest.elim (ihl hl rest) (ihr hr rest))

omit [DecidablePred red] in
/-- A way down is at most twice as long, up to a red root. -/
theorem RedBlack.length_le (hb : RedBlack red t h) :
    ∀ path ∈ downPaths t, path.length ≤ 2 * h + 1 ∧ (RootBlack red t → path.length ≤ 2 * h) := by
  induction t generalizing h with
  | nil =>
      intro path hpath
      obtain rfl := List.mem_singleton.mp hpath
      exact ⟨Nat.zero_le _, fun _ => Nat.zero_le _⟩
  | node a l r ihl ihr =>
      intro path hpath
      obtain ⟨rest, hrest, rfl⟩ := mem_downPaths_node.mp hpath
      rw [List.length_cons]
      rcases hb with ⟨ha, hbl, hbr, hl, hr⟩ | ⟨ha, k, rfl, hl, hr⟩
      · have hlen : rest.length ≤ 2 * h :=
          hrest.elim (fun hx => (ihl hl rest hx).2 hbl) fun hx => (ihr hr rest hx).2 hbr
        exact ⟨by omega, fun hroot => absurd ha (hroot a rfl)⟩
      · have hlen : rest.length ≤ 2 * k + 1 :=
          hrest.elim (fun hx => (ihl hl rest hx).1) fun hx => (ihr hr rest hx).1
        exact ⟨by omega, fun _ => by omega⟩

omit [DecidablePred red] in
theorem RedBlack.two_pow_le (hb : RedBlack red t h) : 2 ^ h ≤ (inorder t).length + 1 := by
  induction t generalizing h with
  | nil =>
      obtain rfl := redBlack_nil.mp hb
      exact le_rfl
  | node a l r ihl ihr =>
      simp only [inorder_node, List.length_append, List.length_cons]
      rcases hb with ⟨-, -, -, hl, hr⟩ | ⟨-, k, rfl, hl, hr⟩
      · have := ihl hl
        omega
      · have := ihl hl
        have := ihr hr
        rw [Nat.pow_succ]
        omega

theorem NearRedBlack.countP_black (hb : NearRedBlack red t h) :
    ∀ path ∈ downPaths t, path.countP (fun a => ¬ red a) = h := by
  cases t with
  | nil => exact RedBlack.countP_black (t := .nil) hb
  | node a l r =>
      intro path hpath
      obtain ⟨rest, hrest, rfl⟩ := mem_downPaths_node.mp hpath
      obtain ⟨k, hl, hr, ⟨ha, rfl⟩ | ⟨ha, rfl⟩⟩ := hb
      · rw [List.countP_cons_of_neg (by simpa using ha)]
        exact hrest.elim (hl.countP_black rest) (hr.countP_black rest)
      · rw [List.countP_cons_of_pos (by simpa using ha)]
        exact congrArg (· + 1) (hrest.elim (hl.countP_black rest) (hr.countP_black rest))

omit [DecidablePred red] in
/-- With `n` cells no way down has more than `2 * log₂ (n + 1) + 2` of them. -/
theorem NearRedBlack.length_le (hb : NearRedBlack red t h) :
    ∀ path ∈ downPaths t, path.length ≤ 2 * Nat.log 2 ((inorder t).length + 1) + 2 := by
  cases t with
  | nil =>
      intro path hpath
      obtain rfl := List.mem_singleton.mp hpath
      exact Nat.zero_le _
  | node a l r =>
      intro path hpath
      obtain ⟨rest, hrest, rfl⟩ := mem_downPaths_node.mp hpath
      obtain ⟨k, hl, hr, -⟩ := hb
      have hlen : rest.length ≤ 2 * k + 1 :=
        hrest.elim (fun hx => (hl.length_le rest hx).1) fun hx => (hr.length_le rest hx).1
      have hlog : k ≤ Nat.log 2 ((inorder (.node a l r)).length + 1) := by
        refine (Nat.le_log_iff_pow_le (by decide) (Nat.succ_ne_zero _)).mpr ?_
        have := hl.two_pow_le
        simp only [inorder_node, List.length_append, List.length_cons]
        omega
      rw [List.length_cons]
      omega

end Paths

namespace Context

/-- The cell above the hole is red and not the root. -/
def NeedsBlackBelow (red : α → Prop) : Context α → Prop
  | step (step _ _ _ _) _ p _ => red p
  | _ => False

/-- What is left of `NearRedBlack` around a subtree of black height `h`. -/
def FitsNear (red : α → Prop) : Context α → Nat → Prop
  | top, _ => True
  | step top _ _ s, h => RedBlack red s h
  | step c _ p s, h =>
      RedBlack red s h ∧
        ((red p ∧ RootBlack red s ∧ ¬ NeedsBlackBelow red c ∧ FitsNear red c h) ∨
          (¬ red p ∧ FitsNear red c (h + 1)))

/-- A tree in a hole below the root. -/
theorem near_plug :
    (∃ h, NearRedBlack red ((c.step d p s).plug t) h) ↔
      ∃ h, RedBlack red t h ∧ (NeedsBlackBelow red (c.step d p s) → RootBlack red t) ∧
        FitsNear red (c.step d p s) h := by
  induction c generalizing d p s t with
  | top =>
      rw [plug_step, plug_top]
      constructor
      · rintro ⟨h, hb⟩
        obtain ⟨k, hbt, hbs, -⟩ := nearRedBlack_join.mp hb
        exact ⟨k, hbt, fun hneeds => hneeds.elim, hbs⟩
      · rintro ⟨k, hbt, -, hbs⟩
        by_cases hp : red p
        · exact ⟨k, nearRedBlack_join.mpr ⟨k, hbt, hbs, .inl ⟨hp, rfl⟩⟩⟩
        · exact ⟨k + 1, nearRedBlack_join.mpr ⟨k, hbt, hbs, .inr ⟨hp, rfl⟩⟩⟩
  | step c e q r ih =>
      rw [plug_step, ih]
      exact redBlack_below

theorem needsBlackBelow_congr (hred : ∀ a ∈ c.cells, red' a ↔ red a) :
    NeedsBlackBelow red' c ↔ NeedsBlackBelow red c := by
  cases c with
  | top => exact Iff.rfl
  | step c d p s =>
      cases c with
      | top => exact Iff.rfl
      | step c e q r => exact hred p (by simp [cells])

theorem FitsNear.congr (hf : FitsNear red c h) (hred : ∀ a ∈ c.cells, red' a ↔ red a) :
    FitsNear red' c h := by
  induction c generalizing h with
  | top => trivial
  | step c d p s ih =>
      have hp := hred p (by simp [cells])
      have hs : ∀ x ∈ inorder s, red' x ↔ red x := fun x hx => hred x (by simp [cells, hx])
      have hc : ∀ x ∈ c.cells, red' x ↔ red x := fun x hx => hred x (by simp [cells, hx])
      cases c with
      | top => exact RedBlack.congr hf hs
      | step c e q r =>
          exact below_congr hp hs (needsBlackBelow_congr hc) (fun k hfits => ih hfits hc) hf

end Context

end UntitledOs.Lib
