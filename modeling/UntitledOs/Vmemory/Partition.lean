import UntitledOs.Vmemory.Allocator

/-!
# Free and allocated memory

The regions in the tree and the allocated blocks partition the memory.  Both are
lists of regions; `cover` counts in how many of them a byte lies, and the
partition says that it is one below the limit and none above.
-/

namespace UntitledOs.Vmemory

open UntitledOs.Lib UntitledOs.RbTree

section Cover

variable {rs rs' live : List Region} {r r' : Region} {b limit : Nat}

/-- Whether the byte `b` lies in `r`, as a number. -/
def Region.at (r : Region) (b : Nat) : Nat :=
  if r.addr ≤ b ∧ b < r.addr + r.size then 1 else 0

/-- In how many regions the byte `b` lies. -/
def cover (rs : List Region) (b : Nat) : Nat := (rs.map fun r => r.at b).sum

@[simp] theorem cover_nil : cover [] b = 0 := rfl

@[simp] theorem cover_cons : cover (r :: rs) b = r.at b + cover rs b := by
  simp [cover]

@[simp] theorem cover_append : cover (rs ++ rs') b = cover rs b + cover rs' b := by
  simp [cover]

theorem cover_perm (h : rs.Perm rs') (b : Nat) : cover rs b = cover rs' b :=
  (h.map _).sum_eq

/-- Two regions side by side cover what the region of both does. -/
theorem at_split (addr size₁ size₂ b : Nat) :
    (⟨addr, size₁ + size₂⟩ : Region).at b =
      (⟨addr, size₁⟩ : Region).at b + (⟨addr + size₁, size₂⟩ : Region).at b := by
  simp only [Region.at]
  split <;> split <;> split <;> omega

theorem at_empty (addr b : Nat) : (⟨addr, 0⟩ : Region).at b = 0 := by
  simp only [Region.at]
  split <;> omega

def Region.Disjoint (r r' : Region) : Prop :=
  r.addr + r.size ≤ r'.addr ∨ r'.addr + r'.size ≤ r.addr

theorem at_le_cover (h : r ∈ rs) : r.at b ≤ cover rs b :=
  List.single_le_sum (by simp) _ (List.mem_map_of_mem h)

theorem pairwise_disjoint_of_cover (hpos : ∀ r ∈ rs, 0 < r.size) (h : ∀ b, cover rs b ≤ 1) :
    rs.Pairwise Region.Disjoint := by
  induction rs with
  | nil => simp
  | cons r rs ih =>
      rw [List.pairwise_cons]
      refine ⟨?_, ih (fun r hr => hpos r (by simp [hr])) fun b => ?_⟩
      · intro r' hr'
        have hr := hpos r (by simp)
        have hr'' := hpos r' (by simp [hr'])
        by_contra hdis
        simp only [Region.Disjoint, not_or, not_le] at hdis
        -- the larger one of the two addresses lies in both
        have hb := h (max r.addr r'.addr)
        have hle := at_le_cover (b := max r.addr r'.addr) hr'
        rw [cover_cons] at hb
        simp only [Region.at] at hb hle
        split at hb <;> split at hle <;> omega
      · have := h b
        rw [cover_cons] at this
        omega

end Cover

/-- The free regions and the allocated blocks partition `[0, limit)`. -/
def Partitions (limit : Nat) (rs : List Region) : Prop :=
  ∀ b, cover rs b = if b < limit then 1 else 0

/-- The blocks `live` are apart, and with the free regions they make up the memory. -/
structure Partitioned (limit : Nat) (m : Allocator) (live : List Region) : Prop where
  disjoint : live.Pairwise Region.Disjoint
  inside : ∀ r ∈ live, r.addr + r.size ≤ limit
  partition : ∃ shape, Holds m.tree shape ∧
    Partitions limit ((inorder shape).map m.tree.item ++ live)

/-- The tree has the nodes `cells`, and each of their regions ends below the limit. -/
structure FreeTree (limit : Nat) (t : Tree Region Unit) (cells : List Nat) : Prop where
  holds : HoldsCells t cells
  below : ∀ r ∈ cells.map t.item, r.addr + r.size ≤ limit

/-- The invariant of the allocator while the blocks `live` are allocated. -/
structure AllocInv (limit : Nat) (m : Allocator) (live : List Region) : Prop where
  tree : ∃ cells, FreeTree limit m.tree cells ∧ Partitions limit (cells.map m.tree.item ++ live)
  live_pos : ∀ r ∈ live, 0 < r.size

theorem AllocInv.partitioned {limit : Nat} {m : Allocator} {live : List Region}
    (h : AllocInv limit m live) : Partitioned limit m live := by
  obtain ⟨cells, ⟨⟨shape, rfl, hshape⟩, -⟩, hpart⟩ := h.tree
  have hle : ∀ b, cover live b ≤ if b < limit then 1 else 0 := by
    intro b
    rw [← hpart b, cover_append]
    omega
  refine ⟨pairwise_disjoint_of_cover h.live_pos fun b => ?_, ?_, ⟨shape, hshape, hpart⟩⟩
  · refine (hle b).trans ?_
    split <;> omega
  · intro r hr
    -- the last byte of the block lies below the limit
    have hpos := h.live_pos r hr
    have hlast := (at_le_cover (b := r.addr + r.size - 1) hr).trans (hle _)
    simp only [Region.at] at hlast
    split at hlast <;> split at hlast <;> omega

section Edits

variable {limit : Nat} {t t' : Tree Region Unit} {cells : List Nat} {n : Nat} {r : Region}

theorem FreeTree.item_below (h : FreeTree limit t cells) (hn : n ∈ cells) :
    (t.item n).addr + (t.item n).size ≤ limit :=
  h.below _ (List.mem_map_of_mem hn)

theorem cover_erase (hn : n ∈ cells) (b : Nat) :
    cover ((cells.erase n).map t.item) b + (t.item n).at b = cover (cells.map t.item) b := by
  have hperm := (List.perm_cons_erase hn).map t.item
  rw [cover_perm hperm, List.map_cons, cover_cons]
  omega

@[simp] theorem item_setRegion (t : Tree Region Unit) (n addr sz a : Nat) :
    (setRegion t n addr sz).item a = if a = n then ⟨addr, sz % 2 ^ 63⟩ else t.item a := by
  by_cases ha : a = n <;> simp [setRegion, treeSetSize, setAddr, ha]

theorem setAddr_treeSetSize (t : Tree Region Unit) (n addr sz : Nat) :
    setAddr (treeSetSize t n sz) n addr = setRegion t n addr sz := by
  simp [setRegion, treeSetSize, setAddr, Tree.setItem, Tree.setClr, Tree.setNode, Tree.item]

theorem treeSetSize_eq (t : Tree Region Unit) (n sz : Nat) :
    treeSetSize t n sz = setRegion t n (t.item n).addr sz := by
  simp [setRegion, treeSetSize, setAddr, Tree.setItem, Tree.setClr, Tree.setNode, Tree.item]

@[simp] theorem addr_treeSetSize (t : Tree Region Unit) (n sz a : Nat) :
    ((treeSetSize t n sz).item a).addr = (t.item a).addr := by
  by_cases ha : a = n <;> simp [treeSetSize, ha]

theorem FreeTree.resize (h : FreeTree limit t cells) (hlimit : limit < 2 ^ 63) (hn : n ∈ cells)
    {addr sz : Nat} (hr : addr + sz ≤ limit) :
    FreeTree limit (setRegion t n addr sz) cells ∧ ∀ b,
      cover (cells.map (setRegion t n addr sz).item) b + (t.item n).at b =
        cover (cells.map t.item) b + (⟨addr, sz⟩ : Region).at b := by
  set t' := setRegion t n addr sz with ht
  have hitem : ∀ a, t'.item a = if a = n then ⟨addr, sz⟩ else t.item a := by
    intro a
    rw [ht, item_setRegion, Nat.mod_eq_of_lt (by omega)]
  have hrest : (cells.erase n).map t'.item = (cells.erase n).map t.item := by
    refine List.map_congr_left fun a ha => ?_
    have han : a ≠ n := fun han => h.holds.nodup.not_mem_erase (han ▸ ha)
    rw [hitem, if_neg han]
  have hself : t'.item n = ⟨addr, sz⟩ := by rw [hitem, if_pos rfl]
  refine ⟨⟨h.holds.relink rfl (fun a _ d => ?_) fun a _ => ?_, ?_⟩, fun b => ?_⟩
  · simp [ht, setRegion, treeSetSize, setAddr]
  · simp [ht, setRegion, treeSetSize, setAddr]
  · intro x hx
    obtain ⟨a, ha, rfl⟩ := List.mem_map.mp hx
    rw [hitem]
    split
    · exact hr
    · exact h.item_below ha
  · have hold := cover_erase (t := t) hn b
    have hnew := cover_erase (t := t') hn b
    rw [hrest, hself] at hnew
    omega

theorem FreeTree.delete (h : FreeTree limit t cells) (hn : n ∈ cells)
    (hsafe : DeleteSafeAny allocTreeKind t n) :
    ∃ t' f, Returns (fun fuel => allocTreeDelete fuel t n) t' ∧
      Deleted allocTreeKind t t' cells n f ∧ FreeTree limit t' (cells.erase f) ∧
      ∀ b, cover ((cells.erase f).map t'.item) b + (t.item n).at b =
        cover (cells.map t.item) b := by
  obtain ⟨t', f, hret, hdel⟩ := h.holds.delete (k := allocTreeKind) hn hsafe
  refine ⟨t', f, hret.map Prod.fst, hdel, ⟨hdel.holds, ?_⟩, fun b => ?_⟩
  · intro x hx
    obtain ⟨a, ha, rfl⟩ := List.mem_map.mp (hdel.item.mem_iff.mp hx)
    exact h.item_below (List.mem_of_mem_erase ha)
  · rw [cover_perm hdel.item, cover_erase hn]

/-- A node outside of the tree is set to a region and inserted. -/
theorem FreeTree.insert (h : FreeTree limit t cells) (hlimit : limit < 2 ^ 63) (hn : n ∉ cells)
    (hr : r.addr + r.size ≤ limit) :
    ∃ t' cells', Returns (fun fuel => allocTreeInsert fuel (setRegion t n r.addr r.size) n) t' ∧
      cells'.Perm (n :: cells) ∧ FreeTree limit t' cells' ∧
      (∀ a, t'.item a = if a = n then r else t.item a) ∧
      ∀ b, cover (cells'.map t'.item) b = r.at b + cover (cells.map t.item) b := by
  obtain ⟨hcells, hmap⟩ := @HoldsCells.congr _ _ _ (setRegion t n r.addr r.size) _ h.holds rfl fun a ha => by
    have han : a ≠ n := fun han => hn (han ▸ ha)
    simp [setRegion, treeSetSize, setAddr, han]
  obtain ⟨pre, post, t', hret, -, hholds, hperm, hitem, -⟩ := hcells.insert allocTreeKind hn
  have hitem' : ∀ a, t'.item a = if a = n then r else t.item a := by
    intro a
    rw [hitem, item_setRegion, Nat.mod_eq_of_lt (by omega)]
  have hnew : (n :: cells).map t'.item = r :: cells.map t.item := by
    rw [List.map_cons, hitem', if_pos rfl, ← hmap]
    exact congrArg _ (List.map_congr_left fun a _ => hitem a)
  have hperm' : ((pre ++ n :: post).map t'.item).Perm (r :: cells.map t.item) :=
    hnew ▸ hperm.map t'.item
  refine ⟨t', pre ++ n :: post, hret, hperm, ⟨hholds, ?_⟩, hitem', fun b => ?_⟩
  · intro x hx
    rcases List.mem_cons.mp (hperm'.mem_iff.mp hx) with rfl | hx
    · exact hr
    · exact h.below x hx
  · rw [cover_perm hperm', cover_cons]

end Edits

section Search

variable {t : Tree Region Unit} {s v : BinaryTree Nat} {c : Context Nat} {n x : Nat}

theorem findFirst_steady (t : Tree Region Unit) (fits : Region → Bool) (n : Nat) :
    Steady fun fuel => findFirst t fits fuel n := by
  intro fuel
  induction fuel generalizing n with
  | zero => exact Below.none _
  | succ fuel ih =>
      dsimp only
      unfold findFirst
      split
      · exact Below.refl _
      refine Below.bind ?_ fun found => ?_
      · cases t.child .left n with
        | none => exact Below.refl _
        | some l => exact ih l
      · cases found with
        | some found => exact Below.refl _
        | none =>
            cases t.child .right n with
            | none => exact Below.refl _
            | some r => exact ih r

def preorder : BinaryTree Nat → List Nat
  | .nil => []
  | .node a l r => a :: (preorder l ++ preorder r)

theorem mem_preorder {x : Nat} : x ∈ preorder s ↔ x ∈ inorder s := by
  induction s with
  | nil => rfl
  | node a l r ihl ihr =>
      simp only [preorder, inorder_node, List.mem_cons, List.mem_append, ihl, ihr]
      tauto

/-- The search finds the first node in preorder that fits. -/
theorem findFirst_preorder (fits : Region → Bool) (fuel : Nat) (h : Holds t (c.plug v))
    (hv : Lib.root v = some n) (hfuel : (inorder v).length < fuel) :
    findFirst t fits fuel n = some ((preorder v).find? fun a => fits (t.item a)) := by
  induction v generalizing c n fuel with
  | nil => simp at hv
  | node a l r ihl ihr =>
      obtain rfl : a = n := by simpa using hv
      obtain ⟨fuel, rfl⟩ : ∃ k, fuel = k + 1 := ⟨fuel - 1, by omega⟩
      obtain ⟨-, hl, hr, -⟩ := Holds.at_plug (d := .left) (u := l) (v := r) h
      rw [Side.other] at hr
      simp only [inorder_node, List.length_append, List.length_cons] at hfuel
      unfold findFirst
      rw [preorder, List.find?_cons, List.find?_append]
      by_cases hfits : fits (t.item a)
      · simp [hfits]
      simp only [hfits, Bool.false_eq_true, if_false]
      have hleft : (t.child .left a).elim (some none) (findFirst t fits fuel) =
          some ((preorder l).find? fun a => fits (t.item a)) := by
        cases l with
        | nil => simp [hl, preorder]
        | node b l' r' =>
            rw [hl]
            exact ihl (c := c.step .left a r) fuel h rfl (by omega)
      have hright : (t.child .right a).elim (some none) (findFirst t fits fuel) =
          some ((preorder r).find? fun a => fits (t.item a)) := by
        cases r with
        | nil => simp [hr, preorder]
        | node b l' r' =>
            rw [hr]
            exact ihr (c := c.step .right a l) fuel h rfl (by omega)
      rw [hleft, hright, Option.bind_some]
      cases (preorder l).find? fun a => fits (t.item a) <;> rfl

/-- The search over the whole tree ends, at a node of the tree that fits or at none. -/
theorem findFirst_spec (fits : Region → Bool) (fuel : Nat) (h : Holds t (c.plug v))
    (hv : Lib.root v = some n) (hfuel : (inorder v).length < fuel) :
    ∃ found, findFirst t fits fuel n = some found ∧
      ∀ x, found = some x → x ∈ inorder v ∧ fits (t.item x) = true := by
  refine ⟨_, findFirst_preorder fits fuel h hv hfuel, ?_⟩
  intro x hx
  have hfits := List.find?_some hx
  exact ⟨mem_preorder.mp (List.mem_of_find?_eq_some hx), hfits⟩

theorem descend_steady (t : Tree Region Unit) (hit goLeft : Region → Bool) (n : Option Nat) :
    Steady fun fuel => descend t hit goLeft fuel n := by
  intro fuel
  induction fuel generalizing n with
  | zero => exact Below.none _
  | succ fuel ih =>
      cases n with
      | none => exact Below.refl _
      | some n =>
          dsimp only
          unfold descend
          split
          · exact Below.refl _
          · exact ih _

/-- The search down one path ends, at a hit in the subtree or at none. -/
theorem descend_spec (hit goLeft : Region → Bool) (fuel : Nat) (h : Holds t (c.plug v))
    (hfuel : (inorder v).length < fuel) :
    ∃ found, descend t hit goLeft fuel (Lib.root v) = some found ∧
      ∀ x, found = some x → x ∈ inorder v ∧ hit (t.item x) = true := by
  induction v generalizing c fuel with
  | nil =>
      obtain ⟨fuel, rfl⟩ : ∃ k, fuel = k + 1 := ⟨fuel - 1, by omega⟩
      exact ⟨none, rfl, by simp⟩
  | node a l r ihl ihr =>
      obtain ⟨fuel, rfl⟩ : ∃ k, fuel = k + 1 := ⟨fuel - 1, by omega⟩
      obtain ⟨-, hl, hr, -⟩ := Holds.at_plug (d := .left) (u := l) (v := r) h
      rw [Side.other] at hr
      simp only [inorder_node, List.length_append, List.length_cons] at hfuel
      rw [root_node, descend]
      by_cases hhit : hit (t.item a)
      · exact ⟨some a, by simp [hhit], by simp [hhit]⟩
      rw [if_neg hhit]
      cases goLeft (t.item a) with
      | true =>
          obtain ⟨found, hfound, hmem⟩ := ihl (c := c.step .left a r) fuel h (by omega)
          rw [← hl] at hfound
          exact ⟨found, hfound, fun y hy => ⟨by simp [(hmem y hy).1], (hmem y hy).2⟩⟩
      | false =>
          obtain ⟨found, hfound, hmem⟩ := ihr (c := c.step .right a l) fuel h (by omega)
          rw [← hr] at hfound
          exact ⟨found, hfound, fun y hy => ⟨by simp [(hmem y hy).1], (hmem y hy).2⟩⟩

end Search

end UntitledOs.Vmemory
