import UntitledOs.Vmemory.Partition
import UntitledOs.Vmemory.TreeRuns

/-!
# The search for a region that contains a range

`alloc_tree_find_containing` goes down by the address alone.  In a tree of disjoint
regions the subtree it leaves out holds no hit, so the one path finds the hit of the
whole tree.  The end of a region is computed in 64 bits, so a region that ends at the
top of the address space is never a hit.
-/

namespace UntitledOs.Vmemory

open UntitledOs.Lib UntitledOs.RbTree

variable {t : Tree Region Unit} {v : BinaryTree Nat} {c : Context Nat} {cells : List Nat}
  {addr size : Nat}

/-- A descent that turns away from a subtree only when no hit is in it. -/
theorem descend_find (hit goLeft : Region → Bool) (fuel : Nat) (h : Holds t (c.plug v))
    (hfuel : (inorder v).length < fuel) (hstay : ∀ r, hit r = true → goLeft r = false)
    (hturn : (inorder v).Pairwise fun a b =>
      (goLeft (t.item a) = true → hit (t.item b) = false) ∧
      (goLeft (t.item b) = false → hit (t.item a) = false)) :
    descend t hit goLeft fuel (Lib.root v) = some ((inorder v).find? fun a => hit (t.item a)) := by
  induction v generalizing c fuel with
  | nil =>
      obtain ⟨fuel, rfl⟩ : ∃ k, fuel = k + 1 := ⟨fuel - 1, by omega⟩
      rfl
  | node a l r ihl ihr =>
      obtain ⟨fuel, rfl⟩ : ∃ k, fuel = k + 1 := ⟨fuel - 1, by omega⟩
      obtain ⟨-, hl, hr, -⟩ := Holds.at_plug (d := .left) (u := l) (v := r) h
      rw [Side.other] at hr
      rw [inorder_node, List.pairwise_append, List.pairwise_cons] at hturn
      obtain ⟨hleft, ⟨hafter, hright⟩, hcross⟩ := hturn
      simp only [inorder_node, List.length_append, List.length_cons] at hfuel
      have hbefore : goLeft (t.item a) = false →
          (inorder l).find? (fun b => hit (t.item b)) = none := by
        intro hgo
        rw [List.find?_eq_none]
        intro b hb
        simp [(hcross b hb a (by simp)).2 hgo]
      rw [root_node, descend, inorder_node, List.find?_append, List.find?_cons]
      by_cases hhit : hit (t.item a) = true
      · simp [hhit, hbefore (hstay _ hhit)]
      · simp only [hhit, Bool.false_eq_true, if_false]
        cases hgo : goLeft (t.item a) with
        | true =>
            have hnone : (inorder r).find? (fun b => hit (t.item b)) = none := by
              rw [List.find?_eq_none]
              intro b hb
              simp [(hafter b hb).1 hgo]
            have hrun := ihl (c := c.step .left a r) fuel h (by omega) hleft
            rw [← hl] at hrun
            simp [hrun, hnone]
        | false =>
            have hrun := ihr (c := c.step .right a l) fuel h (by omega) hright
            rw [← hr] at hrun
            simp [hrun, hbefore hgo]

/-- The nodes of a search tree of disjoint free regions, by address. -/
structure RegionTree (t : Tree Region Unit) (cells : List Nat) : Prop where
  holds : HoldsCells t cells
  ordered : cells.Pairwise fun a b => (t.item a).addr < (t.item b).addr
  disjoint : cells.Pairwise fun a b => (t.item a).Disjoint (t.item b)
  pos : ∀ a ∈ cells, 0 < (t.item a).size
  addr_lt : ∀ a ∈ cells, (t.item a).addr < 2 ^ 64
  size_lt : ∀ a ∈ cells, (t.item a).size < 2 ^ 63

/-- The bytes from `addr` on, `size` many, are bytes of the region. -/
def Region.Covers (r : Region) (addr size : Nat) : Prop :=
  r.addr ≤ addr ∧ addr + size ≤ r.addr + r.size

instance (r : Region) (addr size : Nat) : Decidable (r.Covers addr size) :=
  inferInstanceAs (Decidable (_ ∧ _))

theorem RegionTree.apart (h : RegionTree t cells) :
    cells.Pairwise fun a b =>
      (t.item a).addr + (t.item a).size ≤ (t.item b).addr ∧ 0 < (t.item a).size := by
  have hboth := h.ordered.and h.disjoint
  refine hboth.imp_of_mem fun {a b} ha hb hab => ?_
  obtain ⟨hlt, hdis⟩ := hab
  have hpos := h.pos a ha
  have hpos' := h.pos b hb
  unfold Region.Disjoint at hdis
  omega

/-- A region whose end wraps starts behind its end. -/
theorem containing_iff {r : Region} (haddr : r.addr < 2 ^ 64) (hrsize : r.size < 2 ^ 63)
    (hsize : 0 < size) (hwrap : addr + size < 2 ^ 64) :
    containing addr size r = true ↔ r.Covers addr size ∧ r.addr + r.size < 2 ^ 64 := by
  simp only [containing, ge_iff_le, Bool.and_eq_true, decide_eq_true_eq, u64_of_lt hwrap,
    Region.Covers]
  by_cases hend : r.addr + r.size < 2 ^ 64
  · rw [u64_of_lt hend]
    tauto
  · have hu : u64 (r.addr + r.size) = r.addr + r.size - 2 ^ 64 := by
      unfold u64
      omega
    omega

theorem RegionTree.search (h : RegionTree t cells) (hsize : 0 < size) (hwrap : addr + size < 2 ^ 64) :
    Returns (fun fuel => allocTreeFindContaining fuel t addr size)
      (cells.find? fun a => containing addr size (t.item a)) := by
  obtain ⟨s, rfl, hs⟩ := h.holds
  have hrun := descend_find (c := .top) (v := s) (containing addr size) (fun r => addr < r.addr)
    ((inorder s).length + 1) hs (by omega)
    (fun r hr => by
      simp only [containing, Bool.and_eq_true, decide_eq_true_eq] at hr
      simpa using hr.1)
    (h.apart.imp_of_mem fun {a b} ha hb hab => ⟨fun hgo => by
      -- `b` lies behind `a`, and `a` behind `addr`
      simp only [decide_eq_true_eq] at hgo
      simp only [containing, Bool.and_eq_false_iff, decide_eq_false_iff_not]
      omega, fun hgo => by
      -- `a` ends where `b` begins, at or before `addr`
      have hcov := containing_iff (h.addr_lt a ha) (h.size_lt a ha) hsize hwrap
      simp only [decide_eq_false_iff_not, not_lt] at hgo
      unfold Region.Covers at hcov
      rw [← Bool.not_eq_true, hcov]
      omega⟩)
  rw [← hs.root] at hrun
  exact (descend_steady _ _ _ _).returns _ hrun

theorem RegionTree.disjoint_of_ne (h : RegionTree t cells) {a b : Nat} (ha : a ∈ cells)
    (hb : b ∈ cells) (hne : a ≠ b) : (t.item a).Disjoint (t.item b) := by
  have : Std.Symm fun a b => (t.item a).Disjoint (t.item b) := ⟨fun _ _ hd => hd.symm⟩
  exact h.disjoint.forall ha hb hne

theorem RegionTree.covers_unique (h : RegionTree t cells) (hsize : 0 < size) {a b : Nat}
    (ha : a ∈ cells) (hb : b ∈ cells) (hcov : (t.item a).Covers addr size)
    (hcov' : (t.item b).Covers addr size) : a = b := by
  by_contra hne
  have hd := h.disjoint_of_ne ha hb hne
  unfold Region.Disjoint at hd
  unfold Region.Covers at hcov hcov'
  omega

/-- The search gives the one region that contains the range, if its end does not wrap. -/
theorem findContaining_covers (h : RegionTree t cells) (hsize : 0 < size)
    (hwrap : addr + size < 2 ^ 64) :
    ∃ found, Returns (fun fuel => allocTreeFindContaining fuel t addr size) found ∧
      (∀ n, found = some n ↔ n ∈ cells ∧ (t.item n).Covers addr size ∧
        (t.item n).addr + (t.item n).size < 2 ^ 64) ∧
      (found = none ↔ ∀ n ∈ cells, (t.item n).Covers addr size →
        2 ^ 64 ≤ (t.item n).addr + (t.item n).size) ∧
      ∀ a ∈ cells, ∀ b ∈ cells, (t.item a).Covers addr size → (t.item b).Covers addr size →
        a = b := by
  have hhit : ∀ n ∈ cells, containing addr size (t.item n) = true ↔
      (t.item n).Covers addr size ∧ (t.item n).addr + (t.item n).size < 2 ^ 64 :=
    fun n hn => containing_iff (h.addr_lt n hn) (h.size_lt n hn) hsize hwrap
  refine ⟨_, h.search hsize hwrap, fun n => ⟨fun hfound => ?_, fun hn => ?_⟩, ?_,
    fun a ha b hb => h.covers_unique hsize ha hb⟩
  · have hmem := List.mem_of_find?_eq_some hfound
    exact ⟨hmem, (hhit n hmem).mp
      (List.find?_some (p := fun a => containing addr size (t.item a)) hfound)⟩
  · obtain ⟨hmem, hcov⟩ := hn
    cases hfound : cells.find? fun a => containing addr size (t.item a) with
    | none =>
        rw [List.find?_eq_none] at hfound
        exact absurd ((hhit n hmem).mpr hcov) (hfound n hmem)
    | some a =>
        have ha := List.mem_of_find?_eq_some hfound
        have hcov' := (hhit a ha).mp
          (List.find?_some (p := fun a => containing addr size (t.item a)) hfound)
        rw [h.covers_unique hsize ha hmem hcov'.1 hcov.1]
  · rw [List.find?_eq_none]
    constructor
    · intro hnone n hn hcov
      by_contra hlt
      exact hnone n hn ((hhit n hn).mpr ⟨hcov, by omega⟩)
    · intro hall n hn hcon
      have hcov := (hhit n hn).mp hcon
      have hle := hall n hn hcov.1
      omega

theorem RegionTree.single {n : Nat} (h : SingleBlack t n) (hpos : 0 < (t.item n).size)
    (haddr : (t.item n).addr < 2 ^ 64) (hlt : (t.item n).size < 2 ^ 63) : RegionTree t [n] where
  holds := ⟨.node n .nil .nil, rfl, h.root,
    ⟨h.parent, h.child .left, h.child .right, trivial, trivial⟩, by simp⟩
  ordered := List.pairwise_singleton _ n
  disjoint := List.pairwise_singleton _ n
  pos := by simpa using hpos
  addr_lt := by simpa using haddr
  size_lt := by simpa using hlt

/-- Four regions in three levels: the root 0 with the children 1 and 2, and 3 to the right of 1. -/
def fourRegions : Tree Region Unit where
  node
    | 0 => ⟨⟨0x4000, 0x1000⟩, .black, fun d => some (if d = .left then 1 else 2), none⟩
    | 1 => ⟨⟨0x1000, 0x1000⟩, .black, fun d => if d = .left then none else some 3, some 0⟩
    | 2 => ⟨⟨0x8000, 0x1000⟩, .black, fun _ => none, some 0⟩
    | _ => ⟨⟨0x3000, 0x800⟩, .red, fun _ => none, some 1⟩
  root := some 0
  ext := ()

instance (r r' : Region) : Decidable (r.Disjoint r') := inferInstanceAs (Decidable (_ ∨ _))

theorem regionTree_fourRegions : RegionTree fourRegions [1, 3, 0, 2] where
  holds := .of_readCells (show fourRegions.readCells 5 = some [1, 3, 0, 2] by decide +kernel)
  ordered := by decide +kernel
  disjoint := by decide +kernel
  pos := by decide +kernel
  addr_lt := by decide +kernel
  size_lt := by decide +kernel

/-- A range in the region 3, which is two steps below the root, and one that begins in it and
ends behind it. -/
theorem findContaining_covers_fourRegions :
    Returns (fun fuel => allocTreeFindContaining fuel fourRegions 0x3400 0x400) (some 3) ∧
      Returns (fun fuel => allocTreeFindContaining fuel fourRegions 0x3400 0x401) none := by
  obtain ⟨hit, hret, hsome, -⟩ := @findContaining_covers _ _ 0x3400 0x400 regionTree_fourRegions
    (by decide) (by decide)
  obtain ⟨miss, hret', -, hnone, -⟩ := @findContaining_covers _ _ 0x3400 0x401
    regionTree_fourRegions (by decide) (by decide)
  obtain rfl := (hsome 3).mpr (by decide +kernel)
  obtain rfl := hnone.mpr (by decide +kernel)
  exact ⟨hret, hret'⟩

/-- One region, up to the last byte of the address space. -/
def lastRegion : Tree Region Unit :=
  ⟨fun _ => ⟨⟨2 ^ 64 - 4096, 4096⟩, .black, fun _ => none, none⟩, some 0, ()⟩

theorem lastRegion_missed :
    RegionTree lastRegion [0] ∧ (lastRegion.item 0).Covers (2 ^ 64 - 4096) 2048 ∧
      2 ^ 64 - 4096 + 2048 < 2 ^ 64 ∧
      Returns (fun fuel => allocTreeFindContaining fuel lastRegion (2 ^ 64 - 4096) 2048) none :=
  ⟨.single ⟨rfl, fun _ => rfl, rfl, rfl⟩ (by decide) (by decide) (by decide),
    ⟨by decide, by decide⟩, by decide, (descend_steady _ _ _ _).returns 2 (by decide +kernel)⟩

end UntitledOs.Vmemory
