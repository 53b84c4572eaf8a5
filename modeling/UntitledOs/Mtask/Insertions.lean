import UntitledOs.Mtask.RunQueue
import UntitledOs.RbTree.NearBalance

/-!
# Runs of insertions

Threads go into an empty tree one after the other.  They stand in order of their
`vruntime`, equal ones as they came, and no way down the tree is long.
-/

namespace UntitledOs.Mtask

open UntitledOs.Lib UntitledOs.RbTree

variable {t t₁ t₂ : Tree Nat Threads} {cells ns : List Nat} {n a b : Nat}

/-- `thread_tree_insert` of one node after the other. -/
def insertAll (fuel : Nat) (s : Sched) (cpu : Nat) (ns : List Nat) : Option Sched :=
  ns.foldlM (fun s n => threadTreeInsert fuel s cpu n) s

/-- Of threads with the same `vruntime`, the later one in `ths` is the later one in `items`. -/
def TiesAs (ts : Threads) (items ths : List Nat) : Prop :=
  ∀ x, items.filter (fun th => (ts th).vruntime = x) = ths.filter fun th => (ts th).vruntime = x

/-- A thread goes in behind the last one with its `vruntime`. -/
theorem TiesAs.insert {pre post : List Nat} {ths : List Nat}
    (h : TiesAs t.ext (cells.map t.item) ths) (hsorted : SortedBy t.ext (cells.map t.item))
    (hsplit : SplitsAt (fun a => threadTreeKind.less t.ext (t.item n) (t.item a)) cells pre post) :
    TiesAs t.ext ((pre ++ n :: post).map t.item) (ths ++ [t.item n]) := by
  obtain ⟨-, hpost⟩ := hsorted.splits hsplit
  intro x
  have hx := h x
  rw [hsplit.1, List.map_append, List.filter_append] at hx
  rw [List.map_append, List.map_cons, List.filter_append, List.filter_append, ← hx]
  by_cases hn : (t.ext (t.item n)).vruntime = x
  · have hnone : (post.map t.item).filter (fun th => (t.ext th).vruntime = x) = [] := by
      rw [List.filter_eq_nil_iff]
      intro th hth
      obtain ⟨a, ha, rfl⟩ := List.mem_map.mp hth
      have := hpost a ha
      simp only [decide_eq_true_eq]
      omega
    simp [hn, hnone]
  · simp [hn]

/-- The nodes put into the tree so far, and what they have left alone. -/
structure Filled (t : Tree Nat Threads) (ns : List Nat) (t' : Tree Nat Threads) : Prop where
  cells : ∃ cells, HoldsCells t' cells ∧ cells.Perm ns ∧
    SortedBy t.ext (cells.map t.item) ∧ TiesAs t.ext (cells.map t.item) (ns.map t.item)
  near : NearBalanced t'
  item : ∀ a, t'.item a = t.item a
  ext : t'.ext = t.ext

theorem Filled.empty (hroot : t.root = none) : Filled t [] t where
  cells := ⟨[], ⟨.nil, rfl, hroot, trivial, by simp⟩, .refl _, by simp [SortedBy], fun _ => rfl⟩
  near := ⟨.nil, ⟨hroot, trivial, by simp⟩, 0, rfl⟩
  item _ := rfl
  ext := rfl

theorem Filled.insert (h : Filled t ns t₁) (hn : n ∉ ns) :
    ∃ t₂, Returns (fun fuel => t₁.insert threadTreeKind fuel n) t₂ ∧ Filled t (ns ++ [n]) t₂ := by
  obtain ⟨⟨cells, hcells, hperm, hsorted, hties⟩, ⟨shape, hshape, height, hnear⟩, hitem, hext⟩ := h
  obtain rfl := hcells.unique ⟨shape, rfl, hshape⟩
  have hnc : n ∉ inorder shape := fun hx => hn (hperm.mem_iff.mp hx)
  have hsame : t₁.item = t.item := funext hitem
  obtain ⟨pre, post, t₂, hins, hsplit, hholds, hperm₂, hitem₂, hext₂⟩ :=
    hcells.insert threadTreeKind hnc
  obtain ⟨t₃, hins₃, hbalanced⟩ := insert_near threadTreeKind hshape hnc ⟨height, hnear⟩
    (Nat.lt_succ_self _)
  obtain rfl := hins.unique ((Tree.insert_steady _ _ _).returns _ hins₃)
  rw [hext, hsame] at hsplit
  refine ⟨t₂, hins, ⟨pre ++ n :: post, hholds, ?_, hsorted.insert hsplit, ?_⟩, hbalanced,
    fun a => (hitem₂ a).trans (hitem a), hext₂.trans hext⟩
  · exact hperm₂.trans ((hperm.cons n).trans (List.perm_append_singleton n ns).symm)
  · have hties₂ := hties.insert hsorted hsplit
    rwa [← List.map_singleton, ← List.map_append] at hties₂

theorem insertAll_fills {s : Sched} {cpu : Nat} {done : List Nat}
    (h : Filled t done (s.tree cpu)) (hnodup : (done ++ ns).Nodup) :
    ∃ s', Returns (fun fuel => insertAll fuel s cpu ns) s' ∧ Filled t (done ++ ns) (s'.tree cpu) := by
  induction ns generalizing s done with
  | nil => exact ⟨s, .const s, by rwa [List.append_nil]⟩
  | cons n ns ih =>
      have hn : n ∉ done := fun hx => (List.nodup_append.mp hnodup).2.2 n hx n (by simp) rfl
      obtain ⟨t₂, hins, hfilled⟩ := h.insert hn
      have hstep : Returns (fun fuel => threadTreeInsert fuel s cpu n) (s.putTree cpu t₂) :=
        hins.map (s.putTree cpu)
      rw [← Sched.tree_putTree s cpu t₂] at hfilled
      rw [List.append_cons] at hnodup ⊢
      obtain ⟨s', hrest, hall⟩ := ih hfilled hnodup
      exact ⟨s', hstep.bind hrest, hall⟩

/-- Inserting into an empty tree sorts stably, and the tree stays balanced up to its root. -/
theorem insertions_keep_order_and_balance (s : Sched) (cpu : Nat) (ns : List Nat)
    (hempty : (s.cpuTrees cpu).root = none) (hnodup : ns.Nodup) :
    ∃ s' shape, Returns (fun fuel => insertAll fuel s cpu ns) s' ∧
      Holds (s'.tree cpu) shape ∧ (inorder shape).Perm ns ∧
      ((inorder shape).map (s'.tree cpu).item).Perm (ns.map (s.tree cpu).item) ∧
      s'.thread = s.thread ∧
      SortedBy s.thread ((inorder shape).map (s'.tree cpu).item) ∧
      TiesAs s.thread ((inorder shape).map (s'.tree cpu).item) (ns.map (s.tree cpu).item) ∧
      (∃ height, ∀ path ∈ downPaths shape,
        path.countP (fun a => (s'.tree cpu).clr a = .black) = height) ∧
      (∀ a ∈ inorder shape, ∀ d b, (s'.tree cpu).child d a = some b →
        (s'.tree cpu).clr a = .red → (s'.tree cpu).clr b = .red →
        (s'.cpuTrees cpu).root = some a) ∧
      ∀ path ∈ downPaths shape, path.length ≤ 2 * Nat.log 2 (ns.length + 1) + 2 := by
  obtain ⟨s', hins, ⟨⟨cells, hcells, hperm, hsorted, hties⟩, ⟨shape, hshape, height, hnear⟩, hitem,
    hext⟩⟩ := insertAll_fills (Filled.empty (t := s.tree cpu) hempty) hnodup
  rw [List.nil_append] at hperm hties
  obtain rfl := hcells.unique ⟨shape, rfl, hshape⟩
  have hsame : (s'.tree cpu).item = (s.tree cpu).item := funext hitem
  refine ⟨s', shape, hins, hshape, hperm, ?_, hext, ?_, ?_, ⟨height, fun path hpath => ?_⟩, ?_, ?_⟩
  · rw [hsame]
    exact hperm.map _
  · rw [hsame]
    exact hsorted
  · rw [hsame]
    exact hties
  · have hblack : ∀ a, ¬ (s'.tree cpu).Red a ↔ (s'.tree cpu).clr a = .black := fun a =>
      Tree.not_red
    classical
    simpa only [hblack] using hnear.countP_black path hpath
  · intro a ha d b hchild hra hrb
    exact hshape.red_root hnear ha hchild hra hrb
  · rw [← hperm.length_eq]
    exact hnear.length_le

/-- An empty tree, and threads of three different `vruntime`s. -/
def threeKeys : Sched :=
  { blankSched with
    thread := fun th => ⟨th % 3, defaultWeight, 0, 0, 0, 0⟩
    node := fun a => ⟨a, .black, fun _ => none, none⟩ }

theorem insertions_keep_order_and_balance_five :
    ∃ s' shape, Returns (fun fuel => insertAll fuel threeKeys 0 [5, 4, 3, 2, 1]) s' ∧
      Holds (s'.tree 0) shape ∧ (inorder shape).Perm [5, 4, 3, 2, 1] ∧
      SortedBy threeKeys.thread ((inorder shape).map (s'.tree 0).item) ∧
      ∀ path ∈ downPaths shape, path.length ≤ 6 := by
  obtain ⟨s', shape, hins, hshape, hperm, -, -, hsorted, -, -, -, hlength⟩ :=
    insertions_keep_order_and_balance threeKeys 0 [5, 4, 3, 2, 1] rfl (by decide)
  exact ⟨s', shape, hins, hshape, hperm, hsorted, hlength⟩

example : (insertAll 20 threeKeys 0 [5, 4, 3, 2, 1]).map
    (fun s => (s.tree 0).walk 6 (s.cpuTrees 0).root) = some [3, 4, 1, 5, 2] := by
  decide +kernel

end UntitledOs.Mtask
