import UntitledOs.RbTree.Balance
import UntitledOs.Vmemory.Allocator

/-!
# Calls on the allocator's tree

Any sequence of `alloc_tree_insert`, `alloc_tree_delete` and `TREE_SET_SIZE`.  The
tree stays a red-black search tree as long as no call gets to the repair code:
insertions that recolour below the root, deletions of a red leaf, of a node with
one child or of a root without children, new sizes for black nodes.
-/

namespace UntitledOs.Vmemory

open UntitledOs.Lib UntitledOs.RbTree

/-- A red-black tree with a black root over these regions, in the order of their addresses. -/
def RbSearchTree (t : Tree Region Unit) (regions : List Region) : Prop :=
  ∃ s, Holds t s ∧ Sound t.Red s ∧
    ((inorder s).map t.item).Pairwise (fun r r' => r.addr < r'.addr) ∧
    ((inorder s).map t.item).Perm regions

/-- A call on the tree; `insert` is given a node with its fields set. -/
inductive TreeCall
  | insert (n : Nat) (r : Region)
  | delete (n : Nat)
  | setSize (n sz : Nat)

namespace TreeCall

def exec (fuel : Nat) (t : Tree Region Unit) : TreeCall → Option (Tree Region Unit)
  | insert n r => allocTreeInsert fuel (t.setItem n r) n
  | delete n => allocTreeDelete fuel t n
  | setSize n sz => some (treeSetSize t n sz)

/-- New nodes and their addresses are not in the tree, the others are. -/
def Valid (t : Tree Region Unit) (regions : List Region) : TreeCall → Prop
  | insert n r => (∀ cells, HoldsCells t cells → n ∉ cells) ∧ ∀ r' ∈ regions, r'.addr ≠ r.addr
  | delete n => ∀ cells, HoldsCells t cells → n ∈ cells
  | setSize n _ => ∀ cells, HoldsCells t cells → n ∈ cells

/-- The regions there should be afterwards. -/
def expected (t : Tree Region Unit) (regions : List Region) : TreeCall → List Region
  | insert _ r => r :: regions
  | delete n => regions.erase (t.item n)
  | setSize n sz => { t.item n with size := sz % 2 ^ 63 } :: regions.erase (t.item n)

/-- The call leaves nothing to repair. -/
def Plain (t : Tree Region Unit) : TreeCall → Prop
  | insert n r => InsertSpares allocTreeKind (t.setItem n r) n
  | delete n => DeletePlain t n
  | setSize n _ => t.clr n = .black

end TreeCall

/-- Runs of calls of which `ok` holds. -/
inductive TreeRun (ok : Tree Region Unit → TreeCall → Prop) (t₀ : Tree Region Unit)
    (regions₀ : List Region) : Tree Region Unit → List Region → Prop
  | start : TreeRun ok t₀ regions₀ t₀ regions₀
  | step {t t' : Tree Region Unit} {regions : List Region} {call : TreeCall}
      (run : TreeRun ok t₀ regions₀ t regions) (valid : call.Valid t regions) (isOk : ok t call)
      (returns : Returns (fun fuel => call.exec fuel t) t') :
      TreeRun ok t₀ regions₀ t' (call.expected t regions)

/-- The tree of one black node. -/
structure SingleBlack (t : Tree Region Unit) (n : Nat) : Prop where
  root : t.root = some n
  child : ∀ d, t.child d n = none
  parent : t.parent n = none
  clr : t.clr n = .black

section Steps

variable {t t' : Tree Region Unit} {regions : List Region} {s : BinaryTree Nat} {n sz : Nat}
  {r : Region} {cells pre post : List Nat}

theorem SingleBlack.rbSearchTree (h : SingleBlack t n) : RbSearchTree t [t.item n] := by
  have hblack : ¬ t.Red n := Tree.not_red.mpr h.clr
  refine ⟨.node n .nil .nil, ⟨h.root, ?_, by simp⟩, ⟨?_, 1, ?_⟩, by simp, by simp⟩
  · exact ⟨h.parent, h.child .left, h.child .right, trivial, trivial⟩
  · intro a ha
    obtain rfl : n = a := by simpa using ha
    exact hblack
  · exact .inr ⟨hblack, 0, rfl, rfl, rfl⟩

theorem rbSearchTree_of_balanced (hb : Balanced t) (hcells : HoldsCells t cells)
    (hsorted : (cells.map t.item).Pairwise fun r r' => r.addr < r'.addr)
    (hperm : (cells.map t.item).Perm regions) : RbSearchTree t regions := by
  obtain ⟨s, hh, hsound⟩ := hb
  obtain rfl := hcells.unique ⟨s, rfl, hh⟩
  exact ⟨s, hh, hsound, hsorted, hperm⟩

theorem perm_erase (hn : n ∈ cells) (hperm : (cells.map t.item).Perm regions) :
    ((cells.erase n).map t.item).Perm (regions.erase (t.item n)) := by
  have hcons := ((List.perm_cons_erase hn).map t.item).symm.trans hperm
  exact (List.cons_perm_iff_perm_erase.mp hcons).2

theorem sorted_insert (hsorted : ((pre ++ post).map t.item).Pairwise fun r r' => r.addr < r'.addr)
    (hpre : ∀ a ∈ pre, (t.item a).addr < (t.item n).addr)
    (hpost : ∀ a ∈ post, (t.item n).addr < (t.item a).addr) :
    ((pre ++ n :: post).map t.item).Pairwise fun r r' => r.addr < r'.addr := by
  rw [List.pairwise_map, List.pairwise_append] at hsorted ⊢
  obtain ⟨hleft, hright, hcross⟩ := hsorted
  refine ⟨hleft, List.Pairwise.cons hpost hright, fun a ha b hb => ?_⟩
  rcases List.mem_cons.mp hb with rfl | hb
  · exact hpre a ha
  · exact hcross a ha b hb

theorem RbSearchTree.insert (h : RbSearchTree t regions)
    (hvalid : (TreeCall.insert n r).Valid t regions)
    (hspares : InsertSpares allocTreeKind (t.setItem n r) n) :
    ∃ t', Returns (fun fuel => allocTreeInsert fuel (t.setItem n r) n) t' ∧
      RbSearchTree t' (r :: regions) := by
  obtain ⟨s, hh, hsound, hsorted, hperm⟩ := h
  have hn : n ∉ inorder s := hvalid.1 _ ⟨s, rfl, hh⟩
  set t₁ := t.setItem n r with ht₁
  have hitem : (inorder s).map t₁.item = (inorder s).map t.item := by
    refine List.map_congr_left fun a ha => ?_
    have han : a ≠ n := by rintro rfl; exact hn ha
    simp [ht₁, han]
  have hself : t₁.item n = r := by simp [ht₁]
  have hh₁ : Holds t₁ s := hh.congr rfl (by simp [ht₁]) (by simp [ht₁])
  have hred : t₁.Red = t.Red := by
    funext a
    simp [ht₁, Tree.Red]
  rw [← hitem] at hsorted hperm
  rw [← hred] at hsound
  obtain ⟨t₂, hins, hbal⟩ := insert_balanced allocTreeKind hh₁ hn hsound hspares
    (show 2 * (inorder s).length < 2 * (inorder s).length + 1 by omega)
  obtain ⟨pre, post, t', hret, hsplit, hcells, hcons, hkeep, -⟩ :=
    HoldsCells.insert allocTreeKind ⟨s, rfl, hh₁⟩ hn
  obtain rfl : t' = t₂ := hret.unique ((Tree.insert_steady _ _ _).returns _ hins)
  have hkeep' : t'.item = t₁.item := funext hkeep
  refine ⟨t', hret, rbSearchTree_of_balanced hbal hcells ?_ ?_⟩
  · have hlt : ∀ a, allocTreeKind.less t₁.ext (t₁.item n) (t₁.item a) =
        decide (r.addr < (t₁.item a).addr) := fun a => by rw [hself]; rfl
    obtain ⟨heq, hcut⟩ := hsplit
    have hmono : (inorder s).Pairwise fun a b =>
        allocTreeKind.less t₁.ext (t₁.item n) (t₁.item a) →
          allocTreeKind.less t₁.ext (t₁.item n) (t₁.item b) := by
      refine (List.pairwise_map.mp hsorted).imp fun {a b} hab => ?_
      rw [hlt, hlt]
      simp only [decide_eq_true_eq]
      omega
    obtain ⟨hpre, hpost⟩ := hcut hmono
    have hne : ∀ a ∈ inorder s, (t₁.item a).addr ≠ r.addr := fun a ha =>
      hvalid.2 _ (hperm.mem_iff.mp (List.mem_map_of_mem ha))
    rw [heq] at hsorted hne
    rw [hkeep']
    refine sorted_insert hsorted (fun a ha => ?_) fun a ha => ?_
    · have hle : allocTreeKind.less t₁.ext (t₁.item n) (t₁.item a) = false := hpre a ha
      have hneq := hne a (List.mem_append_left _ ha)
      rw [hlt, decide_eq_false_iff_not] at hle
      rw [hself]
      omega
    · have hgt : allocTreeKind.less t₁.ext (t₁.item n) (t₁.item a) = true := hpost a ha
      rw [hlt, decide_eq_true_eq] at hgt
      rwa [hself]
  · rw [hkeep']
    refine (hcons.map t₁.item).trans ?_
    rw [List.map_cons, hself]
    exact hperm.cons r

theorem RbSearchTree.delete (h : RbSearchTree t regions)
    (hvalid : (TreeCall.delete n).Valid t regions) (hplain : DeletePlain t n) :
    ∃ t', Returns (fun fuel => allocTreeDelete fuel t n) t' ∧
      RbSearchTree t' (regions.erase (t.item n)) := by
  obtain ⟨s, hh, hsound, hsorted, hperm⟩ := h
  have hn : n ∈ inorder s := hvalid _ ⟨s, rfl, hh⟩
  obtain ⟨t', f, hdel, hdeleted, hkeeps⟩ :=
    delete_one (k := allocTreeKind) hh hn hplain.1 (deleteSafe_of_redBlack hh hsound.2.choose_spec hn hplain.1) 0
  obtain ⟨t₂, f₂, hdel₂, hbal⟩ := delete_balanced allocTreeKind rfl hh hn hsound hplain 4
  have heq := Option.some.inj (hdel.symm.trans hdel₂)
  simp only [Prod.mk.injEq] at heq
  obtain ⟨rfl, rfl⟩ := heq
  unfold KeepsOrder at hkeeps
  refine ⟨t', ((Tree.delete_steady allocTreeKind t n).returns _ hdel).map Prod.fst,
    rbSearchTree_of_balanced hbal hdeleted.holds ?_ ?_⟩
  · rw [hkeeps]
    exact hsorted.sublist (List.Sublist.map _ List.erase_sublist)
  · rw [hkeeps]
    exact perm_erase hn hperm

theorem RbSearchTree.setSize (h : RbSearchTree t regions)
    (hvalid : (TreeCall.setSize n sz).Valid t regions) (hblack : t.clr n = .black) :
    RbSearchTree (treeSetSize t n sz)
      ({ t.item n with size := sz % 2 ^ 63 } :: regions.erase (t.item n)) := by
  obtain ⟨s, hh, hsound, hsorted, hperm⟩ := h
  have hn : n ∈ inorder s := hvalid _ ⟨s, rfl, hh⟩
  set t₁ := treeSetSize t n sz with ht₁
  have hitem : ∀ a, t₁.item a = if a = n then { t.item n with size := sz % 2 ^ 63 } else t.item a := by
    intro a
    simp [ht₁, treeSetSize]
  have hred : t₁.Red = t.Red := by
    funext a
    by_cases ha : a = n
    · subst ha
      simp [ht₁, treeSetSize, Tree.Red, hblack]
    · simp [ht₁, treeSetSize, Tree.Red, ha]
  have haddr : ∀ a, (t₁.item a).addr = (t.item a).addr := by
    intro a
    rw [hitem]
    split
    · subst a
      rfl
    · rfl
  refine ⟨s, hh.congr rfl ?_ ?_, hred ▸ hsound, ?_, ?_⟩
  · simp [ht₁, treeSetSize]
  · simp [ht₁, treeSetSize]
  · rw [List.pairwise_map] at hsorted ⊢
    simpa only [haddr] using hsorted
  · refine ((List.perm_cons_erase hn).map t₁.item).trans ?_
    have hrest : ((inorder s).erase n).map t₁.item = ((inorder s).erase n).map t.item := by
      refine List.map_congr_left fun a ha => ?_
      rw [hitem, if_neg (hh.nodup.mem_erase_iff.mp ha).1]
    rw [List.map_cons, hrest, hitem, if_pos rfl]
    exact (perm_erase hn hperm).cons _

theorem RbSearchTree.step {call : TreeCall} (h : RbSearchTree t regions)
    (hvalid : call.Valid t regions) (hplain : call.Plain t) :
    ∃ t', Returns (fun fuel => call.exec fuel t) t' ∧ RbSearchTree t' (call.expected t regions) := by
  cases call with
  | insert n r => exact h.insert hvalid hplain
  | delete n => exact h.delete hvalid hplain
  | setSize n sz => exact ⟨_, Returns.const _, h.setSize hvalid hplain⟩

end Steps

/-- The tree in every run of plain calls, and the next such call returns. -/
theorem treeRun_rbSearchTree {t₀ t : Tree Region Unit} {n₀ : Nat} {regions : List Region}
    (hstart : SingleBlack t₀ n₀)
    (hrun : TreeRun (fun t call => call.Plain t) t₀ [t₀.item n₀] t regions) :
    RbSearchTree t regions ∧
      ∀ call : TreeCall, call.Valid t regions → call.Plain t →
        ∃ t', Returns (fun fuel => call.exec fuel t) t' := by
  have htree : RbSearchTree t regions := by
    induction hrun with
    | start => exact hstart.rbSearchTree
    | step run valid isOk returns ih =>
        obtain ⟨t', hret, htree⟩ := ih.step valid isOk
        obtain rfl := returns.unique hret
        exact htree
  refine ⟨htree, fun call hvalid hplain => ?_⟩
  obtain ⟨t', hret, -⟩ := htree.step hvalid hplain
  exact ⟨t', hret⟩

/-- The node 0 alone, with the region at 1000. -/
def oneRegion : Tree Region Unit :=
  ⟨fun _ => ⟨⟨1000, 10⟩, .black, fun _ => none, none⟩, some 0, ()⟩

theorem oneRegion_singleBlack : SingleBlack oneRegion 0 := ⟨rfl, fun _ => rfl, rfl, rfl⟩

theorem not_mem_cells {t : Tree Region Unit} {n : Nat} {cells : List Nat} (h : HoldsCells t cells)
    (hparent : t.parent n = none) (hroot : t.root ≠ some n) : n ∉ cells := by
  obtain ⟨s, rfl, hh⟩ := h
  intro hn
  obtain ⟨c, u, v, rfl⟩ := Context.exists_plug hn .left
  cases c with
  | top => exact hroot (hh.root_iff.mpr rfl)
  | step c d p r =>
      have hp := hh.at_plug.1
      rw [hparent] at hp
      cases hp

theorem oneRegion_valid :
    (TreeCall.insert 1 ⟨500, 10⟩).Valid oneRegion [oneRegion.item 0] :=
  ⟨fun _ hcells => not_mem_cells hcells rfl (by decide), by simp [oneRegion, Tree.item]⟩

theorem oneRegion_spares :
    InsertSpares allocTreeKind (oneRegion.setItem 1 ⟨500, 10⟩) 1 := by
  intro c htop hh _
  cases c with
  | top => exact absurd rfl htop
  | step c d p s =>
      have hmem : p ∈ inorder ((c.step d p s).plug .nil) := by
        simp [Context.mem_inorder_plug, Context.cells]
      have hp : p = 0 := by
        by_contra hne
        exact not_mem_cells ⟨_, rfl, hh⟩ (by rw [Tree.parent_setItem]; rfl)
          (by simpa [oneRegion, eq_comm] using hne) hmem
      subst hp
      have hblack : ¬ (oneRegion.setItem 1 ⟨500, 10⟩).Red 0 :=
        Tree.not_red.mpr (by decide)
      cases c with
      | top => exact hblack
      | step c e g r => exact .inl hblack

/-- The node 1 to the left of it. -/
def twoRegions : Tree Region Unit :=
  ((TreeCall.insert 1 ⟨500, 10⟩).exec 9 oneRegion).get (by decide)

theorem insert_oneRegion :
    Returns (fun fuel => (TreeCall.insert 1 ⟨500, 10⟩).exec fuel oneRegion) twoRegions :=
  (Tree.insert_steady allocTreeKind (oneRegion.setItem 1 ⟨500, 10⟩) 1).returns 9
    (Option.some_get _).symm

theorem root_valid {t : Tree Region Unit} (hroot : t.root = some n) {cells : List Nat}
    (h : HoldsCells t cells) : n ∈ cells := by
  obtain ⟨s, rfl, hh⟩ := h
  exact root_mem (hh.root.symm.trans hroot)

/-- A region is put in to the left of the root, the root gets a new size and is then deleted. -/
theorem treeRun_rbSearchTree_oneRegion :
    ∃ t', Returns (fun fuel => (TreeCall.delete 0).exec fuel (treeSetSize twoRegions 0 20)) t' ∧
      RbSearchTree (treeSetSize twoRegions 0 20) [⟨1000, 20⟩, ⟨500, 10⟩] ∧
      RbSearchTree t' [⟨500, 10⟩] := by
  have hinserted : TreeRun (fun t call => call.Plain t) oneRegion [oneRegion.item 0] twoRegions
      [⟨500, 10⟩, ⟨1000, 10⟩] :=
    .step .start oneRegion_valid oneRegion_spares insert_oneRegion
  have hsized : TreeRun (fun t call => call.Plain t) oneRegion [oneRegion.item 0]
      (treeSetSize twoRegions 0 20) [⟨1000, 20⟩, ⟨500, 10⟩] :=
    @TreeRun.step _ _ _ _ _ _ (.setSize 0 20) hinserted (fun _ => root_valid (by decide))
      (show twoRegions.clr 0 = .black by decide) (Returns.const _)
  have hvalid : (TreeCall.delete 0).Valid (treeSetSize twoRegions 0 20) [⟨1000, 20⟩, ⟨500, 10⟩] :=
    fun _ => root_valid (by decide)
  have hplain : (TreeCall.delete 0).Plain (treeSetSize twoRegions 0 20) :=
    ⟨.inr (by decide), fun hleft => absurd hleft (by decide)⟩
  obtain ⟨htree, hreturns⟩ := treeRun_rbSearchTree oneRegion_singleBlack hsized
  obtain ⟨t', hret⟩ := hreturns _ hvalid hplain
  exact ⟨t', hret, htree,
    (treeRun_rbSearchTree oneRegion_singleBlack (hsized.step hvalid hplain hret)).1⟩

/-- A new size for the red node 1 turns it black. -/
theorem treeRun_colour_lost :
    ¬ ∀ (t₀ t : Tree Region Unit) (n₀ : Nat) (regions : List Region), SingleBlack t₀ n₀ →
      TreeRun (fun _ _ => True) t₀ [t₀.item n₀] t regions → RbSearchTree t regions := by
  intro hall
  have hrun₁ : TreeRun (fun _ _ => True) oneRegion [oneRegion.item 0] twoRegions _ :=
    .step .start oneRegion_valid trivial insert_oneRegion
  have hroot : twoRegions.root = some 0 := by decide
  have hleft : twoRegions.child .left 0 = some 1 := by decide
  have hright : twoRegions.child .right 0 = none := by decide
  have hvalid : (TreeCall.setSize 1 20).Valid twoRegions [⟨500, 10⟩, ⟨1000, 10⟩] := by
    rintro _ ⟨s, rfl, hh⟩
    exact hh.child_mem (root_mem (hh.root.symm.trans hroot)) hleft
  generalize twoRegions = t₁ at *
  have hset : Returns (fun fuel => (TreeCall.setSize 1 20).exec fuel t₁) (treeSetSize t₁ 1 20) :=
    Returns.const _
  obtain ⟨s, hh, ⟨-, h, hb⟩, -⟩ := hall _ _ 0 _ oneRegion_singleBlack
    (hrun₁.step hvalid trivial hset)
  -- the only child of a node has to be red
  obtain ⟨l, r, rfl⟩ := eq_join_of_root (hh.root.symm.trans hroot) .left
  obtain ⟨-, hl, hr, -⟩ := Holds.at_plug (c := .top) hh
  have hright' : (treeSetSize t₁ 1 20).child .right 0 = none := by simpa [treeSetSize] using hright
  obtain rfl : r = .nil := root_eq_none.mp (hr.symm.trans hright')
  have hl' : Lib.root l = some 1 := hl.symm.trans (by simpa [treeSetSize] using hleft)
  obtain ⟨-, -, b, rfl, hred⟩ := hb.only_child (by rintro rfl; simp at hl')
  obtain rfl : b = 1 := by simpa using hl'
  simp [Tree.Red, treeSetSize] at hred

end UntitledOs.Vmemory
