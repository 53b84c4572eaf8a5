import UntitledOs.RbTree.Frame
import UntitledOs.RbTree.Stuck
import UntitledOs.Vmemory.Runs

/-!
# The search for an aligned block

`alloc_tree_find_first_fit_align_r` takes the first region in preorder whose size,
less the distance from its address to the next multiple behind it, is large enough.
The distance of an aligned region is a whole alignment, and the subtraction wraps
for a region smaller than the distance.
-/

namespace UntitledOs.Vmemory

open UntitledOs.Lib UntitledOs.RbTree

variable {kmalloc : Nat → Nat} {m : Allocator} {t : Tree Region Unit} {s v : BinaryTree Nat}
  {c : Context Nat} {r : Region} {rs : List Region} {limit size align n : Nat}

section Fits

/-- How far it is from `addr` to the multiple of `align` behind it. -/
def padding (align addr : Nat) : Nat := align - addr % align

/-- `[a, a + size)` is aligned and lies in one of the regions. -/
def AlignedBlock (rs : List Region) (size align a : Nat) : Prop :=
  align ∣ a ∧ ∃ r ∈ rs, r.addr ≤ a ∧ a + size ≤ r.addr + r.size

theorem alignOff_le (align addr : Nat) : alignOff align addr ≤ padding align addr := by
  unfold alignOff padding
  dsimp only
  split <;> omega

theorem dvd_alignOff (halign : 0 < align) (addr : Nat) : align ∣ addr + alignOff align addr := by
  have hlt := Nat.mod_lt addr halign
  have hdiv := Nat.div_add_mod addr align
  unfold alignOff
  dsimp only
  split
  · rw [Nat.add_zero]
    exact Nat.dvd_of_mod_eq_zero (by omega)
  · refine ⟨addr / align + 1, ?_⟩
    rw [Nat.mul_succ]
    omega

/-- The offset leads to the lowest multiple from `addr` on. -/
theorem alignOff_least (halign : 0 < align) {addr a : Nat} (ha : align ∣ a) (hle : addr ≤ a) :
    addr + alignOff align addr ≤ a := by
  obtain ⟨q, rfl⟩ := ha
  have hlt := Nat.mod_lt addr halign
  have hdiv := Nat.div_add_mod addr align
  unfold alignOff
  dsimp only
  split
  · omega
  · -- the multiple before `addr` is too low
    have hq : addr / align < q := by
      by_contra hq
      have := Nat.mul_le_mul_left align (Nat.le_of_not_lt hq)
      omega
    have := Nat.mul_le_mul_left align (Nat.succ_le_of_lt hq)
    rw [Nat.mul_succ] at this
    omega

/-- An aligned block is in the regions exactly where one has room behind its offset. -/
theorem exists_alignedBlock_iff (halign : 0 < align) :
    (∃ a, AlignedBlock rs size align a) ↔ ∃ r ∈ rs, alignOff align r.addr + size ≤ r.size := by
  constructor
  · rintro ⟨a, hdvd, r, hr, hle, hend⟩
    have := alignOff_least halign hdvd hle
    exact ⟨r, hr, by omega⟩
  · rintro ⟨r, hr, hfits⟩
    exact ⟨_, dvd_alignOff halign r.addr, r, hr, by omega, by omega⟩

/-- The padding is before the block, also in an aligned region; or the region is smaller than the
padding and the difference wraps. -/
def Passes (size align : Nat) (r : Region) : Prop :=
  padding align r.addr + size ≤ r.size ∨
    r.size < padding align r.addr ∧ padding align r.addr + size ≤ r.size + 2 ^ 64

instance (size align : Nat) : DecidablePred (Passes size align) :=
  fun _ => inferInstanceAs (Decidable (_ ∨ _))

/-- An aligned region with room for the block and for an alignment, but not for both. -/
def Overlooked (size align : Nat) (r : Region) : Prop :=
  align ∣ r.addr ∧ size ≤ r.size ∧ align ≤ r.size ∧ r.size < align + size

/-- The size of the region is the offset and the block, as far as 64 bits show. -/
def UsedUp (size align : Nat) (r : Region) : Prop :=
  r.size = alignOff align r.addr + size ∨ r.size + 2 ^ 64 = alignOff align r.addr + size

theorem padding_le (align addr : Nat) : padding align addr ≤ align := Nat.sub_le _ _

theorem alignOff_of_dvd {addr : Nat} (h : align ∣ addr) :
    alignOff align addr = 0 ∧ padding align addr = align := by
  unfold alignOff padding
  simp [Nat.mod_eq_zero_of_dvd h]

theorem alignOff_of_not_dvd {addr : Nat} (halign : 0 < align) (h : ¬ align ∣ addr) :
    alignOff align addr = padding align addr := by
  have hmod : addr % align ≠ 0 := fun hzero => h (Nat.dvd_of_mod_eq_zero hzero)
  unfold alignOff padding
  dsimp only
  rw [if_neg (by omega)]

theorem firstFitAlign_iff (hsize : r.size < 2 ^ 63) (halign : align < 2 ^ 64) :
    firstFitAlign size align r = true ↔ Passes size align r := by
  have hle := padding_le align r.addr
  unfold firstFitAlign Passes
  rw [decide_eq_true_eq, ← padding, ge_iff_le]
  unfold sub64 u64
  omega

/-- A region that fails the test has room for the block only if it is overlooked. -/
theorem room_iff_overlooked (halign : 0 < align) (halign' : align < 2 ^ 64)
    (h : ¬ Passes size align r) :
    alignOff align r.addr + size ≤ r.size ↔ Overlooked size align r := by
  unfold Passes at h
  unfold Overlooked
  by_cases hdvd : align ∣ r.addr
  · obtain ⟨hoff, hpad⟩ := alignOff_of_dvd hdvd
    rw [hoff]
    rw [hpad] at h
    simp only [hdvd, true_and]
    omega
  · have hoff := alignOff_of_not_dvd halign hdvd
    simp only [hdvd, false_and, iff_false]
    omega

/-- The next multiple of an alignment of 64 bits is an address. -/
theorem next_lt {addr : Nat} (haddr : addr < 2 ^ 63) (halign : align < 2 ^ 64) :
    addr + alignOff align addr < 2 ^ 64 := by
  have hoff := alignOff_le align addr
  have hpad := padding_le align addr
  by_cases hlow : addr < align
  · have hmod := Nat.mod_eq_of_lt hlow
    unfold padding at hoff
    omega
  · omega

theorem sub64_eq_iff (hsize : r.size < 2 ^ 63) (halign : align < 2 ^ 64) :
    sub64 r.size (alignOff align r.addr) = size ↔ size < 2 ^ 64 ∧ UsedUp size align r := by
  have hoff := (alignOff_le align r.addr).trans (padding_le align r.addr)
  unfold sub64 u64 UsedUp
  omega

end Fits

section Search

/-- The first node in preorder whose region passes the test. -/
def FirstPassing (t : Tree Region Unit) (s : BinaryTree Nat) (size align n : Nat) : Prop :=
  (preorder s).find? (fun n => Passes size align (t.item n)) = some n

/-- The node that the search selects. -/
def selected (t : Tree Region Unit) (s : BinaryTree Nat) (size align : Nat) : Option Nat :=
  (preorder s).find? fun n => firstFitAlign size align (t.item n)

/-- A block is returned where the regions have one, and `(void*)-1` where they have none. -/
structure AlignedSearch (kmalloc : Nat → Nat) (m : Allocator) (size align : Nat)
    (rs : List Region) : Prop where
  found : (∃ a, AlignedBlock rs size align a) → ∃ m' a,
    Returns (fun fuel => allocatorAllocAlign kmalloc fuel m size align) (m', some a) ∧
      AlignedBlock rs size align a
  missing : (¬ ∃ a, AlignedBlock rs size align a) → ∃ m',
    Returns (fun fuel => allocatorAllocAlign kmalloc fuel m size align) (m', none)

/-- What is done to the tree for the selected node `n` returns: the deletion of `n` where the
block ends with the region, else the insertion of what lies before the block. -/
def UpdateReturns (kmalloc : Nat → Nat) (m : Allocator) (size align n : Nat) : Prop :=
  let r := m.tree.item n
  let off := alignOff align r.addr
  (sub64 r.size off = size → ∃ t', Returns (fun fuel => allocTreeDelete fuel m.tree n) t') ∧
    (sub64 r.size off ≠ size → ∃ m', Returns (fun fuel => insertRest kmalloc fuel m r.addr off) m')

/-- What the search for an aligned block needs of the regions in the tree `s`: there is one; if
none passes the test none is overlooked; the first that passes is not smaller than its padding, or
the block behind it lies in some region all the same; and if the block uses it up its node is one
whose deletion ends. -/
structure SearchSafe (m : Allocator) (s : BinaryTree Nat) (size align : Nat) : Prop where
  nonempty : s ≠ .nil
  seen : (∀ n ∈ inorder s, ¬ Passes size align (m.tree.item n)) →
    ∀ n ∈ inorder s, ¬ Overlooked size align (m.tree.item n)
  inside : ∀ n, FirstPassing m.tree s size align n →
    padding align (m.tree.item n).addr ≤ (m.tree.item n).size ∨
      ∃ n' ∈ inorder s,
        (m.tree.item n').addr ≤ (m.tree.item n).addr + alignOff align (m.tree.item n).addr ∧
        (m.tree.item n).addr + alignOff align (m.tree.item n).addr + size ≤
          (m.tree.item n').addr + (m.tree.item n').size
  deleted : ∀ n, FirstPassing m.tree s size align n → UsedUp size align (m.tree.item n) →
    DeleteEndsAny allocTreeKind m.tree n

/-- The node for the padding is a new one. -/
def PaddingFresh (kmalloc : Nat → Nat) (m : Allocator) (s : BinaryTree Nat) (size align : Nat) :
    Prop :=
  ∀ n, FirstPassing m.tree s size align n → ¬ UsedUp size align (m.tree.item n) →
    alignOff align (m.tree.item n).addr ≠ 0 → Fresh m (nextNode kmalloc m)

theorem returns_of_map {α β : Type*} {f : Nat → Option α} {g : α → β} {b : β} (hf : Steady f)
    (h : Returns (fun fuel => (f fuel).map g) b) : ∃ a, Returns f a ∧ g a = b := by
  obtain ⟨k, hk⟩ := h
  obtain ⟨a, ha, hb⟩ := Option.map_eq_some_iff.mp (hk k le_rfl)
  exact ⟨a, hf.returns k ha, hb⟩

/-- The region in front of the block has the address that its node has, whichever node it gets. -/
theorem addr_insertRest {m₁ : Allocator}
    (h : Returns (fun fuel => insertRest kmalloc fuel m (m.tree.item n).addr size) m₁) :
    (m₁.tree.item n).addr = (m.tree.item n).addr := by
  obtain ⟨fuel, hfuel⟩ := h
  have hrest := hfuel fuel le_rfl
  dsimp only at hrest
  unfold insertRest at hrest
  split at hrest
  · obtain ⟨t, hins, rfl⟩ := Option.map_eq_some_iff.mp hrest
    have hitem : t.item n = (setRegion (allocNode kmalloc m).1.tree (allocNode kmalloc m).2
        (m.tree.item n).addr size).item n := (Tree.sameData_insert hins).item n
    rw [Allocator.tree_putTree, hitem, item_setRegion, tree_allocNode]
    split <;> rfl
  · obtain rfl := Option.some.inj hrest
    rfl

/-- With a node selected the call returns exactly where the update of the tree does. -/
theorem allocAlignFrom_returns_iff (ret : Option Nat) :
    (∃ m', Returns (fun fuel => allocAlignFrom kmalloc fuel m size align n) (m', ret)) ↔
      ret = some (u64 ((m.tree.item n).addr + alignOff align (m.tree.item n).addr)) ∧
        UpdateReturns kmalloc m size align n := by
  unfold allocAlignFrom UpdateReturns
  dsimp only
  split
  · rename_i hwhole
    constructor
    · rintro ⟨m', h⟩
      obtain ⟨t', ht', heq⟩ := returns_of_map (allocTreeDelete_steady m.tree n) h
      exact ⟨(Prod.mk.inj heq).2.symm, fun _ => ⟨t', ht'⟩, fun hne => absurd hwhole hne⟩
    · rintro ⟨rfl, hdelete, -⟩
      obtain ⟨t', ht'⟩ := hdelete hwhole
      exact ⟨_, ht'.map _⟩
  · rename_i hpart
    constructor
    · rintro ⟨m', h⟩
      obtain ⟨m₁, hm₁, heq⟩ := returns_of_map (insertRest_steady kmalloc m _ _) h
      have hret := (Prod.mk.inj heq).2.symm
      rw [addr_insertRest hm₁] at hret
      exact ⟨hret, fun heq => absurd heq hpart, fun _ => ⟨m₁, hm₁⟩⟩
    · rintro ⟨rfl, -, hinsert⟩
      obtain ⟨m₁, hm₁⟩ := hinsert hpart
      exact ⟨_, hm₁.map_eq (Prod.ext rfl (by simp only [addr_insertRest hm₁]))⟩

theorem allocatorAllocAlign_selected (h : Holds m.tree s) (hs : s ≠ .nil) :
    ∃ k, ∀ fuel ≥ k, allocatorAllocAlign kmalloc fuel m size align =
      (selected m.tree s size align).elim (some (m, none))
        (allocAlignFrom kmalloc fuel m size align) := by
  obtain ⟨root, hroot⟩ := Option.ne_none_iff_exists'.mp (mt root_eq_none.mp hs)
  refine ⟨(inorder s).length + 1, fun fuel hfuel => ?_⟩
  have hfirst := findFirst_preorder (c := .top) (firstFitAlign size align) fuel h hroot (by omega)
  have hroot' : m.root = some root := h.root.trans hroot
  unfold allocatorAllocAlign
  rw [hroot', Option.bind_some, hfirst, Option.bind_some]
  rfl

theorem allocatorAllocAlign_empty (h : Holds m.tree .nil) (fuel : Nat) :
    allocatorAllocAlign kmalloc fuel m size align = none := by
  have hroot : m.root = none := h.root
  unfold allocatorAllocAlign
  rw [hroot, Option.bind_none]

theorem returns_congr {α : Type*} {f g : Nat → Option α} {r : α}
    (h : ∃ k, ∀ fuel ≥ k, f fuel = g fuel) : Returns f r ↔ Returns g r := by
  obtain ⟨k, hk⟩ := h
  constructor
  · rintro ⟨n, hn⟩
    exact ⟨max n k, fun fuel hfuel => (hk fuel (by omega)).symm.trans (hn fuel (by omega))⟩
  · rintro ⟨n, hn⟩
    exact ⟨max n k, fun fuel hfuel => (hk fuel (by omega)).trans (hn fuel (by omega))⟩

theorem returns_selected {r : Allocator × Option Nat} (h : Holds m.tree s) (hs : s ≠ .nil)
    (hsel : selected m.tree s size align = some n) :
    Returns (fun fuel => allocatorAllocAlign kmalloc fuel m size align) r ↔
      Returns (fun fuel => allocAlignFrom kmalloc fuel m size align n) r := by
  obtain ⟨k, hk⟩ := @allocatorAllocAlign_selected kmalloc m s size align h hs
  exact returns_congr ⟨k, fun fuel hfuel => by rw [hk fuel hfuel, hsel, Option.elim_some]⟩

theorem returns_unselected {r : Allocator × Option Nat} (h : Holds m.tree s) (hs : s ≠ .nil)
    (hsel : selected m.tree s size align = none) :
    Returns (fun fuel => allocatorAllocAlign kmalloc fuel m size align) r ↔ r = (m, none) := by
  obtain ⟨k, hk⟩ := @allocatorAllocAlign_selected kmalloc m s size align h hs
  have hconst : Returns (fun fuel => allocatorAllocAlign kmalloc fuel m size align) (m, none) :=
    ⟨k, fun fuel hfuel => by dsimp only; rw [hk fuel hfuel, hsel, Option.elim_none]⟩
  constructor
  · intro hr
    exact hr.unique hconst
  · rintro rfl
    exact hconst

/-- What a call that selects a node returns. -/
theorem returns_block_iff (h : Holds m.tree s) (hs : s ≠ .nil)
    (hsel : selected m.tree s size align = some n) (ret : Option Nat) :
    (∃ m', Returns (fun fuel => allocatorAllocAlign kmalloc fuel m size align) (m', ret)) ↔
      ret = some (u64 ((m.tree.item n).addr + alignOff align (m.tree.item n).addr)) ∧
        UpdateReturns kmalloc m size align n := by
  rw [← allocAlignFrom_returns_iff]
  exact exists_congr fun m' => returns_selected h hs hsel

theorem selected_eq_some_iff (hsize : ∀ n ∈ inorder s, (t.item n).size < 2 ^ 63)
    (halign : align < 2 ^ 64) : selected t s size align = some n ↔ FirstPassing t s size align n := by
  have hcongr : selected t s size align =
      (preorder s).find? (fun n => Passes size align (t.item n)) := by
    refine List.find?_congr fun a ha => ?_
    rw [Bool.eq_iff_iff, firstFitAlign_iff (hsize a (mem_preorder.mp ha)) halign,
      decide_eq_true_eq]
  rw [hcongr]
  rfl

theorem insertRest_returns (h : Holds m.tree s) {addr off : Nat}
    (hfresh : off ≠ 0 → Fresh m (nextNode kmalloc m)) :
    ∃ m', Returns (fun fuel => insertRest kmalloc fuel m addr off) m' := by
  unfold insertRest
  by_cases hoff : off = 0
  · simp only [hoff, ne_eq, not_true, if_false]
    exact ⟨m, Returns.const m⟩
  · simp only [ne_eq, hoff, not_false_iff, if_true]
    have hn := hfresh hoff (inorder s) ⟨s, rfl, h⟩
    obtain ⟨hcells, -⟩ := @HoldsCells.congr _ _ _
      (setRegion m.tree (nextNode kmalloc m) addr off) _ ⟨s, rfl, h⟩ rfl fun a ha => by
        have han : a ≠ nextNode kmalloc m := fun han => hn (han ▸ ha)
        simp [setRegion, treeSetSize, setAddr, han]
    obtain ⟨-, -, t', hins, -⟩ := hcells.insert allocTreeKind hn
    have hmap := hins.map (allocNode kmalloc m).1.putTree
    simp only [insertRegion, tree_allocNode]
    exact ⟨_, hmap⟩

theorem UpdateReturns.ends (h : Holds m.tree s) (hn : n ∈ inorder s)
    (heq : sub64 (m.tree.item n).size (alignOff align (m.tree.item n).addr) = size)
    (hupdate : UpdateReturns kmalloc m size align n) : DeleteEndsAny allocTreeKind m.tree n := by
  obtain ⟨t', ht'⟩ := hupdate.1 heq
  obtain ⟨r, hr, -⟩ := returns_of_map (Tree.delete_steady allocTreeKind m.tree n) ht'
  exact (delete_ends_iff h hn).mp ⟨r, hr⟩

/-- The update of the tree returns where the deletion ends, and with a new node. -/
theorem updateReturns (h : Holds m.tree s) (hn : n ∈ inorder s)
    (hends : sub64 (m.tree.item n).size (alignOff align (m.tree.item n).addr) = size →
      DeleteEndsAny allocTreeKind m.tree n)
    (hfresh : sub64 (m.tree.item n).size (alignOff align (m.tree.item n).addr) ≠ size →
      alignOff align (m.tree.item n).addr ≠ 0 → Fresh m (nextNode kmalloc m)) :
    UpdateReturns kmalloc m size align n := by
  refine ⟨fun heq => ?_, fun hne => insertRest_returns h (hfresh hne)⟩
  obtain ⟨r, hr⟩ := (delete_ends_iff h hn).mpr (hends heq)
  exact ⟨r.1, hr.map Prod.fst⟩

theorem Passes.size_lt (h : Passes size align r) (hsize : r.size < 2 ^ 63) : size < 2 ^ 64 := by
  unfold Passes at h
  omega

/-- A search that finds what there is, is safe. -/
theorem AlignedSearch.safe (h : Holds m.tree s) (hlimit : limit < 2 ^ 63)
    (hbelow : ∀ n ∈ inorder s, (m.tree.item n).addr + (m.tree.item n).size ≤ limit)
    (halign : 0 < align) (halign' : align < 2 ^ 64)
    (hsearch : AlignedSearch kmalloc m size align ((inorder s).map m.tree.item)) :
    SearchSafe m s size align := by
  have hsmall : ∀ n ∈ inorder s, (m.tree.item n).size < 2 ^ 63 := fun n hn => by
    have := hbelow n hn
    omega
  have hne : s ≠ .nil := by
    rintro rfl
    obtain ⟨m', hm'⟩ := hsearch.missing (by rintro ⟨a, -, r, hr, -⟩; simp at hr)
    exact not_returns (allocatorAllocAlign_empty h) _ hm'
  have hfirst : ∀ n, FirstPassing m.tree s size align n →
      n ∈ inorder s ∧ Passes size align (m.tree.item n) ∧
        AlignedBlock ((inorder s).map m.tree.item) size align
          ((m.tree.item n).addr + alignOff align (m.tree.item n).addr) ∧
        UpdateReturns kmalloc m size align n := by
    intro n hn
    have hmem : n ∈ inorder s := mem_preorder.mp (List.mem_of_find?_eq_some hn)
    have hpass : Passes size align (m.tree.item n) := by
      simpa using List.find?_some hn
    have hsel := (selected_eq_some_iff hsmall halign').mpr hn
    have hnext : (m.tree.item n).addr + alignOff align (m.tree.item n).addr < 2 ^ 64 :=
      next_lt (by have := hbelow n hmem; omega) halign'
    refine ⟨hmem, hpass, ?_⟩
    by_cases hblock : ∃ a, AlignedBlock ((inorder s).map m.tree.item) size align a
    · obtain ⟨m', a, hret, ha⟩ := hsearch.found hblock
      obtain ⟨hret', hupdate⟩ := (returns_block_iff h hne hsel (some a)).mp ⟨m', hret⟩
      rw [u64_of_lt hnext] at hret'
      rw [← Option.some.inj hret']
      exact ⟨ha, hupdate⟩
    · obtain ⟨m', hret⟩ := hsearch.missing hblock
      cases ((returns_block_iff h hne hsel none).mp ⟨m', hret⟩).1
  refine ⟨hne, fun hnone n hn hover => ?_, fun n hn => .inr ?_, fun n hn hused => ?_⟩
  · have hroom := (room_iff_overlooked halign halign' (hnone n hn)).mpr hover
    obtain ⟨m', a, hret, -⟩ := hsearch.found ((exists_alignedBlock_iff halign).mpr
      ⟨_, List.mem_map_of_mem hn, hroom⟩)
    have hsel : selected m.tree s size align = none := by
      rw [Option.eq_none_iff_forall_ne_some]
      intro n' hn'
      obtain ⟨hmem, hpass, -⟩ := hfirst n' ((selected_eq_some_iff hsmall halign').mp hn')
      exact hnone n' hmem hpass
    cases (returns_unselected h hne hsel).mp hret
  · obtain ⟨-, -, ⟨-, r, hr, hlow, hhigh⟩, -⟩ := hfirst n hn
    obtain ⟨n', hn', rfl⟩ := List.mem_map.mp hr
    exact ⟨n', hn', hlow, hhigh⟩
  · obtain ⟨hmem, hpass, -, hupdate⟩ := hfirst n hn
    exact hupdate.ends h hmem ((sub64_eq_iff (hsmall n hmem) halign').mpr
      ⟨hpass.size_lt (hsmall n hmem), hused⟩)

/-- The search of a safe tree finds an aligned block exactly where there is one. -/
theorem SearchSafe.search (h : Holds m.tree s) (hlimit : limit < 2 ^ 63)
    (hbelow : ∀ n ∈ inorder s, (m.tree.item n).addr + (m.tree.item n).size ≤ limit)
    (halign : 0 < align) (halign' : align < 2 ^ 64) (hsafe : SearchSafe m s size align)
    (hfresh : PaddingFresh kmalloc m s size align) :
    AlignedSearch kmalloc m size align ((inorder s).map m.tree.item) := by
  have hsmall : ∀ n ∈ inorder s, (m.tree.item n).size < 2 ^ 63 := fun n hn => by
    have := hbelow n hn
    omega
  cases hsel : selected m.tree s size align with
  | none =>
      refine ⟨fun hblock => ?_, fun _ => ⟨m, (returns_unselected h hsafe.nonempty hsel).mpr rfl⟩⟩
      have hnone : ∀ n ∈ inorder s, ¬ Passes size align (m.tree.item n) := by
        intro n hn hpass
        have htest := (firstFitAlign_iff (hsmall n hn) halign').mpr hpass
        exact List.find?_eq_none.mp hsel n (mem_preorder.mpr hn) htest
      obtain ⟨r, hr, hfits⟩ := (exists_alignedBlock_iff halign).mp hblock
      obtain ⟨n, hn, rfl⟩ := List.mem_map.mp hr
      exact absurd ((room_iff_overlooked halign halign' (hnone n hn)).mp hfits)
        (hsafe.seen hnone n hn)
  | some n =>
      have hn := (selected_eq_some_iff hsmall halign').mp hsel
      have hmem : n ∈ inorder s := mem_preorder.mp (List.mem_of_find?_eq_some hn)
      have hpass : Passes size align (m.tree.item n) := by
        simpa using List.find?_some hn
      have hend := hbelow n hmem
      have hnext : (m.tree.item n).addr + alignOff align (m.tree.item n).addr < 2 ^ 64 :=
        next_lt (by omega) halign'
      have hblock : AlignedBlock ((inorder s).map m.tree.item) size align
          ((m.tree.item n).addr + alignOff align (m.tree.item n).addr) := by
        refine ⟨dvd_alignOff halign _, ?_⟩
        rcases hsafe.inside n hn with hpad | ⟨n', hn', hlow, hhigh⟩
        · -- the block lies in the region that was selected
          have hoff := alignOff_le align (m.tree.item n).addr
          unfold Passes at hpass
          exact ⟨_, List.mem_map_of_mem hmem, by omega, by omega⟩
        · exact ⟨_, List.mem_map_of_mem hn', hlow, hhigh⟩
      have heq : sub64 _ _ = size ↔ _ := sub64_eq_iff (hsmall n hmem) halign'
      have hsize := hpass.size_lt (hsmall n hmem)
      have hupdate : UpdateReturns kmalloc m size align n :=
        updateReturns h hmem (fun hwhole => hsafe.deleted n hn (heq.mp hwhole).2)
          fun hpart => hfresh n hn fun hused => hpart (heq.mpr ⟨hsize, hused⟩)
      obtain ⟨m', hret⟩ := (returns_block_iff h hsafe.nonempty hsel _).mpr ⟨rfl, hupdate⟩
      rw [u64_of_lt hnext] at hret
      exact ⟨fun _ => ⟨m', _, hret, hblock⟩, fun hnot => absurd ⟨_, hblock⟩ hnot⟩

end Search

section Examples

/-- Four pages without the first 64 bytes and the third page. -/
theorem twoFree_regions :
    (([.alloc 64, .allocAddr 4096 8192] : List AllocEvent).foldlM
      (fun s event => allocStep (fun k => k + 1) 20 s event) (fourPages, [])).map (fun s =>
        decide (Holds s.1.tree (.node 3 .nil (.node 4 .nil .nil)) ∧
          s.1.tree.item 3 = ⟨64, 8128⟩ ∧ s.1.tree.item 4 = ⟨12288, 4096⟩ ∧
          freshCheck 20 s.1 (nextNode (fun k => k + 1) s.1) = true)) = some true := by
  decide +kernel

end Examples

end UntitledOs.Vmemory
