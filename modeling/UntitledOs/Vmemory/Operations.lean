import UntitledOs.Vmemory.Partition

/-!
# The operations keep the partition

For each entry point of the allocator: what its branch needs of the tree, and
that it then returns and moves regions between the tree and the blocks without
losing a byte.
-/

namespace UntitledOs.Vmemory

open UntitledOs.Lib UntitledOs.RbTree

variable {kmalloc : Nat → Nat} {limit : Nat} {m m' : Allocator} {live : List Region}
  {t t' : Tree Region Unit} {cells : List Nat} {size align addr n : Nat} {r : Region}

section Pool

theorem foldl_refillSlot_putTree (start : Nat) (is : List Nat) (m : Allocator)
    (t : Tree Region Unit) :
    is.foldl (refillSlot kmalloc start) (m.putTree t) =
      (is.foldl (refillSlot kmalloc start) m).putTree t := by
  induction is generalizing m with
  | nil => rfl
  | cons i is ih => exact ih (refillSlot kmalloc start m i)

theorem allocNode_putTree (kmalloc : Nat → Nat) (m : Allocator) (t : Tree Region Unit) :
    allocNode kmalloc (m.putTree t) =
      ((allocNode kmalloc m).1.putTree t, (allocNode kmalloc m).2) := by
  have hi : (m.putTree t).nodeMemPoolI = m.nodeMemPoolI := rfl
  simp only [allocNode, hi]
  split
  · rw [foldl_refillSlot_putTree]
    rfl
  · rfl

theorem tree_allocNode (kmalloc : Nat → Nat) (m : Allocator) :
    (allocNode kmalloc m).1.tree = m.tree := by
  have h := congrArg (fun x => x.1.tree) (allocNode_putTree kmalloc m m.tree)
  exact h

/-- The node that the pool gives next. -/
def nextNode (kmalloc : Nat → Nat) (m : Allocator) : Nat := (allocNode kmalloc m).2

/-- `n` is not a node of the tree. -/
def Fresh (m : Allocator) (n : Nat) : Prop := ∀ cells, HoldsCells m.tree cells → n ∉ cells

theorem insertRegion_spec (h : FreeTree limit m.tree cells) (hlimit : limit < 2 ^ 63)
    (hn : nextNode kmalloc m ∉ cells) (hr : r.addr + r.size ≤ limit) :
    ∃ t' cells', Returns (fun fuel => insertRegion kmalloc fuel m r.addr r.size)
        ((allocNode kmalloc m).1.putTree t') ∧
      Returns (fun fuel => allocTreeInsert fuel
        (setRegion m.tree (nextNode kmalloc m) r.addr r.size) (nextNode kmalloc m)) t' ∧
      cells'.Perm (nextNode kmalloc m :: cells) ∧ FreeTree limit t' cells' ∧
      (∀ a, t'.item a = if a = nextNode kmalloc m then r else m.tree.item a) ∧
      ∀ b, cover (cells'.map t'.item) b = r.at b + cover (cells.map m.tree.item) b := by
  obtain ⟨t', cells', hret, hrest⟩ := h.insert hlimit hn hr
  refine ⟨t', cells', ?_, hret, hrest⟩
  have hmap := hret.map (allocNode kmalloc m).1.putTree
  simp only [insertRegion, tree_allocNode]
  exact hmap

/-- Inserting what is left over of a region keeps the nodes that were there. -/
theorem insertRest_spec (h : FreeTree limit m.tree cells) (hlimit : limit < 2 ^ 63)
    (hn : size ≠ 0 → nextNode kmalloc m ∉ cells) (hr : addr + size ≤ limit) :
    ∃ m' cells', Returns (fun fuel => insertRest kmalloc fuel m addr size) m' ∧
      FreeTree limit m'.tree cells' ∧
      (∀ a ∈ cells, a ∈ cells' ∧ m'.tree.item a = m.tree.item a) ∧
      (∀ b, cover (cells'.map m'.tree.item) b =
        (⟨addr, size⟩ : Region).at b + cover (cells.map m.tree.item) b) ∧
      (∀ x ∈ cells'.map m'.tree.item, x ∈ cells.map m.tree.item ∨ size ≠ 0 ∧ x = ⟨addr, size⟩) ∧
      (size = 0 → m' = m ∧ cells' = cells) ∧
      (size ≠ 0 → m' = (allocNode kmalloc m).1.putTree m'.tree ∧
        cells'.Perm (nextNode kmalloc m :: cells)) := by
  unfold insertRest
  by_cases hsize : size = 0
  · subst hsize
    simp only [ne_eq, not_true, if_false]
    refine ⟨m, cells, Returns.const _, h, fun a ha => ⟨ha, rfl⟩, fun b => ?_,
      fun x hx => .inl hx, ?_, ?_⟩
    · rw [at_empty, Nat.zero_add]
    · simp
    · simp
  · simp only [ne_eq, hsize, not_false_iff, if_true]
    obtain ⟨t', cells', hret, -, hperm, hfree, hitem, hcover⟩ :=
      insertRegion_spec (r := ⟨addr, size⟩) h hlimit (hn hsize) hr
    refine ⟨_, cells', hret, hfree, fun a ha => ⟨?_, ?_⟩, hcover, ?_, ?_, ?_⟩
    · exact hperm.mem_iff.mpr (List.mem_cons_of_mem _ ha)
    · have hne : a ≠ nextNode kmalloc m := fun hne => hn hsize (hne ▸ ha)
      rw [Allocator.tree_putTree, hitem, if_neg hne]
    · intro x hx
      obtain ⟨a, ha, rfl⟩ := List.mem_map.mp hx
      rw [Allocator.tree_putTree, hitem]
      split
      · exact .inr ⟨trivial, rfl⟩
      · rename_i hne
        refine .inl (List.mem_map_of_mem ?_)
        exact (List.mem_cons.mp (hperm.mem_iff.mp ha)).resolve_left hne
    · simp
    · exact fun _ => ⟨rfl, hperm⟩

end Pool

theorem Partitions.intro {cells : List Nat} {live : List Region}
    (h : ∀ b, cover (cells.map t.item) b + cover live b = if b < limit then 1 else 0) :
    Partitions limit (cells.map t.item ++ live) := by
  intro b
  rw [cover_append]
  exact h b

/-- The blocks after a call that gave `ret` for `size` bytes. -/
def grow (live : List Region) (size : Nat) (ret : Option Nat) : List Region :=
  (ret.map fun addr => ⟨addr, size⟩).toList ++ live

/-- The regions of the tree and the blocks partition the memory; a block may be empty. -/
def FreeInv (limit : Nat) (m : Allocator) (live : List Region) : Prop :=
  ∃ cells, FreeTree limit m.tree cells ∧ Partitions limit (cells.map m.tree.item ++ live)

section FirstFit

variable {fits : Region → Bool} {root : Nat}

/-- The search of the whole tree, for a tree that is not empty. -/
theorem findFirst_returns (h : FreeInv limit m live) (hroot : m.root = some root)
    (fits : Region → Bool) :
    ∃ found, Returns (fun fuel => findFirst m.tree fits fuel root) found ∧
      ∀ n, found = some n →
        (∀ cells, HoldsCells m.tree cells → n ∈ cells) ∧ fits (m.tree.item n) = true := by
  obtain ⟨cells, hfree, -⟩ := h
  obtain ⟨s, rfl, hs⟩ := hfree.holds
  obtain ⟨found, hfound, hmem⟩ := findFirst_spec (c := .top) (v := s) fits
    ((inorder s).length + 1) hs (hs.root.symm.trans hroot) (by omega)
  refine ⟨found, (findFirst_steady _ _ _).returns _ hfound, fun n hn => ⟨?_, (hmem n hn).2⟩⟩
  intro cells hcells
  rw [hcells.unique ⟨s, rfl, hs⟩]
  exact (hmem n hn).1

theorem returns_search {search : Nat → Option (Option Nat)}
    {next : Nat → Nat → Option (Allocator × Option Nat)} {res : Allocator × Option Nat}
    (hfound : Returns search (some n)) (hnext : Returns (fun fuel => next fuel n) res) :
    Returns (fun fuel => (search fuel).bind fun found =>
      found.elim (some (m, none)) (next fuel)) res :=
  hfound.bind hnext

theorem returns_search_none {search : Nat → Option (Option Nat)}
    {next : Nat → Nat → Option (Allocator × Option Nat)} (hfound : Returns search none) :
    Returns (fun fuel => (search fuel).bind fun found =>
      found.elim (some (m, none)) (next fuel)) (m, none) :=
  hfound.bind (Returns.const _)

end FirstFit

theorem grow_pos (hlive : ∀ r ∈ live, 0 < r.size) (hpos : 0 < size) (ret : Option Nat) :
    ∀ r ∈ grow live size ret, 0 < r.size := by
  cases ret with
  | none => simpa [grow] using hlive
  | some addr => simpa [grow, hpos] using hlive

theorem cover_grow (live : List Region) (size addr b : Nat) :
    cover (grow live size (some addr)) b = (⟨addr, size⟩ : Region).at b + cover live b := by
  simp [grow]

theorem at_cut (h : size ≤ r.size) (b : Nat) :
    r.at b = (⟨r.addr, size⟩ : Region).at b + (⟨r.addr + size, r.size - size⟩ : Region).at b := by
  rw [← at_split, Nat.add_sub_cancel' h]

section Ends

variable {rs rs₁ rs₂ : List Region} {ret : Option Nat}

/--
Of the free regions `rs'` none is empty, and each ends where one of `rs` does or
where the block `ret` begins.
-/
def EndsFrom (rs rs' : List Region) (ret : Option Nat) : Prop :=
  (∀ x ∈ rs, 0 < x.size) → ∀ x ∈ rs', 0 < x.size ∧
    ((∃ y ∈ rs, x.addr + x.size = y.addr + y.size) ∨ ret = some (x.addr + x.size))

theorem EndsFrom.refl (rs : List Region) (ret : Option Nat) : EndsFrom rs rs ret :=
  fun hpos x hx => ⟨hpos x hx, .inl ⟨x, hx, rfl⟩⟩

/-- One more edit, of which each region is an old one or ends in one of the two ways. -/
theorem EndsFrom.step (h : EndsFrom rs rs₁ ret)
    (hmem : ∀ x ∈ rs₂, x ∈ rs₁ ∨ 0 < x.size ∧
      ((∃ y ∈ rs, x.addr + x.size = y.addr + y.size) ∨ ret = some (x.addr + x.size))) :
    EndsFrom rs rs₂ ret := by
  intro hpos x hx
  rcases hmem x hx with hold | hnew
  · exact h hpos x hold
  · exact hnew

/-- What a call that allocates does to the ends of the free regions. -/
def EndsKept (m m' : Allocator) (ret : Option Nat) : Prop :=
  ∀ cells cells', HoldsCells m.tree cells → HoldsCells m'.tree cells' →
    EndsFrom (cells.map m.tree.item) (cells'.map m'.tree.item) ret

theorem EndsKept.intro {cells' : List Nat} (hcells : HoldsCells m.tree cells)
    (hcells' : HoldsCells m'.tree cells')
    (h : EndsFrom (cells.map m.tree.item) (cells'.map m'.tree.item) ret) : EndsKept m m' ret := by
  intro c c' hc hc'
  rwa [hc.unique hcells, hc'.unique hcells']

theorem EndsKept.refl (m : Allocator) (ret : Option Nat) : EndsKept m m ret := by
  intro c c' hc hc'
  rw [hc.unique hc']
  exact EndsFrom.refl _ _

theorem deleted_subset {f : Nat} (hdel : Deleted allocTreeKind t t' cells n f) :
    ∀ x ∈ (cells.erase f).map t'.item, x ∈ cells.map t.item := by
  intro x hx
  obtain ⟨a, ha, rfl⟩ := List.mem_map.mp (hdel.item.mem_iff.mp hx)
  exact List.mem_map_of_mem (List.mem_of_mem_erase ha)

theorem setRegion_members {sz : Nat} (hsz : sz < 2 ^ 63) :
    ∀ x ∈ cells.map (setRegion t n addr sz).item, x ∈ cells.map t.item ∨ x = ⟨addr, sz⟩ := by
  intro x hx
  obtain ⟨a, ha, rfl⟩ := List.mem_map.mp hx
  rw [item_setRegion, Nat.mod_eq_of_lt hsz]
  split
  · exact .inr rfl
  · exact .inl (List.mem_map_of_mem ha)

end Ends

/-- What `allocator_alloc` needs: a tree, and a region that it uses up can be deleted. -/
def AllocSafe (m : Allocator) (size : Nat) : Prop :=
  ∃ root, m.root = some root ∧ ∀ n,
    Returns (fun fuel => findFirst m.tree (firstFit size) fuel root) (some n) →
    (m.tree.item n).size = size → DeleteSafeAny allocTreeKind m.tree n

theorem allocFrom_spec (h : AllocInv limit m live) (hlimit : limit < 2 ^ 63) (hpos : 0 < size)
    (hn : ∀ cells, HoldsCells m.tree cells → n ∈ cells) (hle : size ≤ (m.tree.item n).size)
    (hsafe : (m.tree.item n).size = size → DeleteSafeAny allocTreeKind m.tree n) :
    ∃ m', Returns (fun fuel => allocFrom fuel m size n) (m', some (m.tree.item n).addr) ∧
      AllocInv limit m' (grow live size (some (m.tree.item n).addr)) ∧
      EndsKept m m' (some (m.tree.item n).addr) := by
  obtain ⟨cells, hfree, hpart⟩ := h.tree
  have hmem := hn cells hfree.holds
  have hbelow := hfree.item_below hmem
  unfold allocFrom
  by_cases hexact : (m.tree.item n).size = size
  · obtain ⟨t', f, hret, hdel, hfree', hcover⟩ := hfree.delete hmem (hsafe hexact)
    simp only [hexact, if_true]
    refine ⟨_, hret.map _, ⟨⟨_, hfree', Partitions.intro fun b => ?_⟩, grow_pos h.live_pos hpos _⟩,
      .intro hfree.holds hfree'.holds
        ((EndsFrom.refl _ _).step fun x hx => .inl (deleted_subset hdel x hx))⟩
    have hb := hpart b
    have hd := hcover b
    have hitem : m.tree.item n = ⟨(m.tree.item n).addr, size⟩ := by rw [← hexact]
    rw [cover_append] at hb
    rw [hitem] at hd
    rw [cover_grow, Allocator.tree_putTree]
    omega
  · simp only [hexact, if_false]
    rw [setAddr_treeSetSize, addr_treeSetSize, sub64_of_le hle (by omega), u64_of_lt (by omega)]
    obtain ⟨hfree', hcover⟩ := hfree.resize hlimit hmem
      (show (m.tree.item n).addr + size + ((m.tree.item n).size - size) ≤ limit by omega)
    refine ⟨_, Returns.const _, ⟨⟨_, hfree', Partitions.intro fun b => ?_⟩,
      grow_pos h.live_pos hpos _⟩, .intro hfree.holds hfree'.holds
        ((EndsFrom.refl _ _).step fun x hx => ?_)⟩
    · have hb := hpart b
      have hd := hcover b
      have hcut := at_cut hle b
      rw [cover_append] at hb
      rw [cover_grow, Allocator.tree_putTree]
      omega
    · refine (setRegion_members (by omega) x hx).imp_right ?_
      rintro rfl
      exact ⟨by simp only; omega, .inl ⟨_, List.mem_map_of_mem hmem, by simp only; omega⟩⟩

theorem allocatorAlloc_spec (h : AllocInv limit m live) (hlimit : limit < 2 ^ 63)
    (hpos : 0 < size) (hsafe : AllocSafe m size) :
    ∃ m' ret, Returns (fun fuel => allocatorAlloc fuel m size) (m', ret) ∧
      AllocInv limit m' (grow live size ret) ∧ EndsKept m m' ret := by
  obtain ⟨root, hroot, hsafe⟩ := hsafe
  obtain ⟨found, hfound, hmem⟩ := findFirst_returns h.tree hroot (firstFit size)
  simp only [allocatorAlloc, hroot, Option.bind_some]
  cases found with
  | none => exact ⟨m, none, returns_search_none hfound, h, .refl m none⟩
  | some n =>
      obtain ⟨hn, hfits⟩ := hmem n rfl
      obtain ⟨m', hret, hinv⟩ := allocFrom_spec h hlimit hpos hn (by simpa [firstFit] using hfits)
        (hsafe n hfound)
      exact ⟨m', _, returns_search hfound hret, hinv⟩


/--
What `allocator_alloc_align` needs of the node it finds: the block fits behind
the offset, and where it fits exactly the offset is zero.
-/
def AllocAlignSafe (kmalloc : Nat → Nat) (m : Allocator) (size align : Nat) : Prop :=
  ∃ root, m.root = some root ∧ ∀ n,
    Returns (fun fuel => findFirst m.tree (firstFitAlign size align) fuel root) (some n) →
    let r := m.tree.item n
    alignOff align r.addr + size ≤ r.size ∧
      (alignOff align r.addr + size = r.size →
        alignOff align r.addr = 0 ∧ DeleteSafeAny allocTreeKind m.tree n) ∧
      (alignOff align r.addr ≠ 0 → Fresh m (nextNode kmalloc m))

theorem allocAlignFrom_free (h : FreeInv limit m live) (hlimit : limit < 2 ^ 63)
    (hn : ∀ cells, HoldsCells m.tree cells → n ∈ cells) {off : Nat}
    (hoff : alignOff align (m.tree.item n).addr = off) (hle : off + size ≤ (m.tree.item n).size)
    (hexact : off + size = (m.tree.item n).size →
      off = 0 ∧ DeleteSafeAny allocTreeKind m.tree n)
    (hfresh : off ≠ 0 → Fresh m (nextNode kmalloc m)) :
    ∃ m', Returns (fun fuel => allocAlignFrom kmalloc fuel m size align n)
        (m', some ((m.tree.item n).addr + off)) ∧
      FreeInv limit m' (grow live size (some ((m.tree.item n).addr + off))) ∧
      EndsKept m m' (some ((m.tree.item n).addr + off)) := by
  obtain ⟨cells, hfree, hpart⟩ := h
  have hmem := hn cells hfree.holds
  have hbelow := hfree.item_below hmem
  unfold allocAlignFrom
  simp only [hoff]
  rw [sub64_of_le (show off ≤ (m.tree.item n).size by omega) (by omega),
    u64_of_lt (show (m.tree.item n).addr + off < 2 ^ 64 by omega)]
  by_cases hfits : (m.tree.item n).size - off = size
  · obtain ⟨rfl, hsafe⟩ := hexact (by omega)
    obtain ⟨t', f, hret, hdel, hfree', hcover⟩ := hfree.delete hmem hsafe
    simp only [hfits, if_true]
    refine ⟨_, hret.map _, ⟨_, hfree', Partitions.intro fun b => ?_⟩, .intro hfree.holds
      hfree'.holds ((EndsFrom.refl _ _).step fun x hx => .inl (deleted_subset hdel x hx))⟩
    have hb := hpart b
    have hd := hcover b
    have hitem : m.tree.item n = ⟨(m.tree.item n).addr, size⟩ := by rw [← hfits, Nat.sub_zero]
    rw [cover_append] at hb
    rw [hitem] at hd
    rw [cover_grow, Allocator.tree_putTree, Nat.add_zero]
    omega
  · simp only [hfits, if_false]
    -- the part before the block becomes a node, the part behind it stays in `n`
    obtain ⟨m₁, cells₁, hret, hfree₁, hkeep, hcover₁, hmem₁', -⟩ :=
      @insertRest_spec kmalloc _ _ _ off (m.tree.item n).addr hfree hlimit
        (fun hne => hfresh hne cells hfree.holds) (by omega)
    obtain ⟨hmem₁, hitem₁⟩ := hkeep n hmem
    obtain ⟨hfree', hcover⟩ := hfree₁.resize hlimit hmem₁
      (show (m.tree.item n).addr + (size + off) + ((m.tree.item n).size - size - off) ≤ limit by omega)
    refine ⟨m₁.putTree (setRegion m₁.tree n ((m.tree.item n).addr + (size + off))
      ((m.tree.item n).size - size - off)), ?_, ⟨_, hfree', Partitions.intro fun b => ?_⟩,
      .intro hfree.holds hfree'.holds (((EndsFrom.refl _ _).step fun x hx => ?_).step fun x hx =>
        (setRegion_members (by omega) x hx).imp_right ?_)⟩
    · refine hret.map_eq ?_
      simp only [hitem₁, setAddr_treeSetSize, addr_treeSetSize]
      rw [sub64_of_le (show size ≤ (m.tree.item n).size by omega) (by omega),
        sub64_of_le (show off ≤ (m.tree.item n).size - size by omega) (by omega),
        u64_of_lt (show size + off < 2 ^ 64 by omega),
        u64_of_lt (show (m.tree.item n).addr + (size + off) < 2 ^ 64 by omega),
        u64_of_lt (show (m.tree.item n).addr + off < 2 ^ 64 by omega)]
    · have hb := hpart b
      have hd := hcover b
      have hd₁ := hcover₁ b
      have hcut := at_cut (r := m.tree.item n) (show off ≤ (m.tree.item n).size by omega) b
      have hcut' := at_cut (r := ⟨(m.tree.item n).addr + off, (m.tree.item n).size - off⟩)
        (show size ≤ (m.tree.item n).size - off by omega) b
      rw [cover_append] at hb
      rw [cover_grow, Allocator.tree_putTree]
      simp only at hcut'
      rw [show (m.tree.item n).addr + off + size = (m.tree.item n).addr + (size + off) by omega,
        Nat.sub_right_comm] at hcut'
      rw [hitem₁] at hd
      omega
    · refine (hmem₁' x hx).imp_right ?_
      rintro ⟨hne, rfl⟩
      exact ⟨Nat.pos_of_ne_zero hne, .inr rfl⟩
    · rintro rfl
      exact ⟨by simp only; omega, .inl ⟨_, List.mem_map_of_mem hmem, by simp only; omega⟩⟩

theorem allocatorAllocAlign_free (h : FreeInv limit m live) (hlimit : limit < 2 ^ 63)
    (hsafe : AllocAlignSafe kmalloc m size align) :
    ∃ m' ret, Returns (fun fuel => allocatorAllocAlign kmalloc fuel m size align) (m', ret) ∧
      FreeInv limit m' (grow live size ret) ∧ EndsKept m m' ret := by
  obtain ⟨root, hroot, hsafe⟩ := hsafe
  obtain ⟨found, hfound, hmem⟩ := findFirst_returns h hroot (firstFitAlign size align)
  simp only [allocatorAllocAlign, hroot, Option.bind_some]
  cases found with
  | none => exact ⟨m, none, returns_search_none hfound, h, .refl m none⟩
  | some n =>
      obtain ⟨hle, hexact, hfresh⟩ := hsafe n hfound
      obtain ⟨m', hret, hinv⟩ :=
        allocAlignFrom_free h hlimit (hmem n rfl).1 rfl hle hexact hfresh
      exact ⟨m', _, returns_search hfound hret, hinv⟩

theorem allocatorAllocAlign_spec (h : AllocInv limit m live) (hlimit : limit < 2 ^ 63)
    (hpos : 0 < size) (hsafe : AllocAlignSafe kmalloc m size align) :
    ∃ m' ret, Returns (fun fuel => allocatorAllocAlign kmalloc fuel m size align) (m', ret) ∧
      AllocInv limit m' (grow live size ret) ∧ EndsKept m m' ret := by
  obtain ⟨m', ret, hret, hinv, hends⟩ := allocatorAllocAlign_free h.tree hlimit hsafe
  exact ⟨m', ret, hret, ⟨hinv, grow_pos h.live_pos hpos ret⟩, hends⟩

/--
What `allocator_alloc_addr` needs of the node it finds: the block does not wrap,
the node can be deleted, and the nodes for what is left over are new.
-/
def AllocAddrSafe (kmalloc : Nat → Nat) (m : Allocator) (size addr : Nat) : Prop :=
  ∀ n, Returns (fun fuel => allocTreeFindContaining fuel m.tree addr size) (some n) →
    let r := m.tree.item n
    let next := nextNode kmalloc (allocNode kmalloc m).1
    addr + size < 2 ^ 64 ∧ DeleteSafeAny allocTreeKind m.tree n ∧
      (addr ≠ r.addr → Fresh m (nextNode kmalloc m)) ∧
      (addr + size ≠ r.addr + r.size →
        if addr = r.addr then Fresh m (nextNode kmalloc m)
        else Fresh m next ∧ next ≠ nextNode kmalloc m)

theorem allocAddrFrom_free (h : FreeInv limit m live) (hlimit : limit < 2 ^ 63)
    (hn : ∀ cells, HoldsCells m.tree cells → n ∈ cells)
    (hlow : (m.tree.item n).addr ≤ addr)
    (hhigh : addr + size ≤ (m.tree.item n).addr + (m.tree.item n).size)
    (hdel : DeleteSafeAny allocTreeKind m.tree n)
    (hfirst : addr ≠ (m.tree.item n).addr → Fresh m (nextNode kmalloc m))
    (hsecond : addr + size ≠ (m.tree.item n).addr + (m.tree.item n).size →
      if addr = (m.tree.item n).addr then Fresh m (nextNode kmalloc m)
      else Fresh m (nextNode kmalloc (allocNode kmalloc m).1) ∧
        nextNode kmalloc (allocNode kmalloc m).1 ≠ nextNode kmalloc m) :
    ∃ m', Returns (fun fuel => allocAddrFrom kmalloc fuel m size addr n) (m', some addr) ∧
      FreeInv limit m' (grow live size (some addr)) ∧ EndsKept m m' (some addr) := by
  obtain ⟨cells, hfree, hpart⟩ := h
  have hmem := hn cells hfree.holds
  have hbelow := hfree.item_below hmem
  obtain ⟨t', f, hret, hdeleted, hfree', hcover⟩ := hfree.delete hmem hdel
  have hends := (EndsFrom.refl (cells.map m.tree.item) (some addr)).step fun x hx =>
    .inl (deleted_subset hdeleted x hx)
  unfold allocAddrFrom
  by_cases hexact : (m.tree.item n).size = size
  · simp only [hexact, if_true]
    refine ⟨_, hret.map _, ⟨_, hfree', Partitions.intro fun b => ?_⟩,
      .intro hfree.holds hfree'.holds hends⟩
    have hb := hpart b
    have hd := hcover b
    have hitem : m.tree.item n = ⟨addr, size⟩ := by
      rw [← hexact, show addr = (m.tree.item n).addr by omega]
    rw [cover_append] at hb
    rw [hitem] at hd
    rw [cover_grow, Allocator.tree_putTree]
    omega
  · simp only [hexact, if_false]
    set r := m.tree.item n with hr
    rw [sub64_of_le hlow (by omega), u64_of_lt (show r.addr + r.size < 2 ^ 64 by omega),
      sub64_of_le (show addr ≤ r.addr + r.size by omega) (by omega),
      sub64_of_le (show size ≤ r.addr + r.size - addr by omega) (by omega),
      u64_of_lt (show addr + size < 2 ^ 64 by omega)]
    have hnext : nextNode kmalloc (m.putTree t') = nextNode kmalloc m := by
      rw [nextNode, allocNode_putTree, nextNode]
    have herase : ∀ {a}, a ∉ cells → a ∉ cells.erase f :=
      fun ha hmem => ha (List.mem_of_mem_erase hmem)
    obtain ⟨m₁, cells₁, hret₁, hfree₁, -, hcover₁, hmem₁, hsame, hnew⟩ :=
      @insertRest_spec kmalloc _ (m.putTree t') _ (addr - r.addr) r.addr hfree' hlimit
        (fun hne => hnext ▸ herase (hfirst (by omega) cells hfree.holds)) (by omega)
    have hfresh₁ : r.addr + r.size - addr - size ≠ 0 → nextNode kmalloc m₁ ∉ cells₁ := by
      intro hne
      have hsecond := hsecond (by omega)
      by_cases haddr : addr = r.addr
      · rw [if_pos haddr] at hsecond
        obtain ⟨rfl, rfl⟩ := hsame (by omega)
        rw [hnext]
        exact herase (hsecond cells hfree.holds)
      · rw [if_neg haddr] at hsecond
        obtain ⟨hm₁, hperm⟩ := hnew (by omega)
        rw [hm₁, nextNode, allocNode_putTree, allocNode_putTree, allocNode_putTree]
        rw [hperm.mem_iff, hnext, List.mem_cons, not_or]
        exact ⟨hsecond.2, herase (hsecond.1 cells hfree.holds)⟩
    obtain ⟨m₂, cells₂, hret₂, hfree₂, -, hcover₂, hmem₂, -⟩ :=
      @insertRest_spec kmalloc _ _ _ (r.addr + r.size - addr - size) (addr + size) hfree₁ hlimit
        hfresh₁ (by omega)
    refine ⟨m₂, hret.bind (hret₁.bind (hret₂.map _)), ⟨_, hfree₂, Partitions.intro fun b => ?_⟩,
      .intro hfree.holds hfree₂.holds ((hends.step fun x hx => (hmem₁ x hx).imp_right ?_).step
        fun x hx => (hmem₂ x hx).imp_right ?_)⟩
    · have hb := hpart b
      have hd := hcover b
      have hd₁ := hcover₁ b
      have hd₂ := hcover₂ b
      have hcut := @at_cut (addr - r.addr) r (by omega) b
      have hcut' := @at_cut size ⟨addr, r.size - (addr - r.addr)⟩ (by simp only; omega) b
      simp only at hcut'
      rw [show r.addr + (addr - r.addr) = addr by omega] at hcut
      rw [show r.size - (addr - r.addr) - size = r.addr + r.size - addr - size by omega] at hcut'
      rw [Allocator.tree_putTree] at hd₁
      rw [cover_append] at hb
      rw [cover_grow]
      omega
    · rintro ⟨hne, rfl⟩
      exact ⟨Nat.pos_of_ne_zero hne, .inr (congrArg some (by simp only; omega))⟩
    · rintro ⟨hne, rfl⟩
      exact ⟨Nat.pos_of_ne_zero hne, .inl ⟨r, List.mem_map_of_mem hmem, by simp only; omega⟩⟩

theorem allocatorAllocAddr_free (h : FreeInv limit m live) (hlimit : limit < 2 ^ 63)
    (hsafe : AllocAddrSafe kmalloc m size addr) :
    ∃ m' ret, Returns (fun fuel => allocatorAllocAddr kmalloc fuel m size addr) (m', ret) ∧
      FreeInv limit m' (grow live size ret) ∧ EndsKept m m' ret ∧
      ∀ n, Returns (fun fuel => allocTreeFindContaining fuel m.tree addr size) (some n) →
        ret = some addr := by
  have hinv := h
  obtain ⟨cells, hfree, hpart⟩ := hinv
  obtain ⟨s, rfl, hs⟩ := hfree.holds
  obtain ⟨found, hfound, hmem⟩ := descend_spec (c := .top) (v := s) (containing addr size)
    (fun r => addr < r.addr) ((inorder s).length + 1) hs (by omega)
  rw [← hs.root] at hfound
  have hfound' : Returns (fun fuel => allocTreeFindContaining fuel m.tree addr size) found :=
    (descend_steady _ _ _ _).returns _ hfound
  unfold allocatorAllocAddr
  cases found with
  | none => exact ⟨m, none, returns_search_none hfound', h, .refl m none,
      fun n hn => by cases hn.unique hfound'⟩
  | some n =>
      obtain ⟨hn, hhit⟩ := hmem n rfl
      have hbelow := hfree.item_below hn
      obtain ⟨hwrap, hdel, hfirst, hsecond⟩ := hsafe n hfound'
      simp only [containing, ge_iff_le, Bool.and_eq_true, decide_eq_true_eq, u64_of_lt hwrap,
        u64_of_lt (show (m.tree.item n).addr + (m.tree.item n).size < 2 ^ 64 by omega)] at hhit
      obtain ⟨m', hret, hinv, hends⟩ := allocAddrFrom_free h hlimit
        (fun cells hcells => hcells.unique ⟨s, rfl, hs⟩ ▸ hn) hhit.1 hhit.2 hdel hfirst hsecond
      exact ⟨m', _, returns_search hfound' hret, hinv, hends, fun _ _ => rfl⟩

theorem allocatorAllocAddr_spec (h : AllocInv limit m live) (hlimit : limit < 2 ^ 63)
    (hpos : 0 < size) (hsafe : AllocAddrSafe kmalloc m size addr) :
    ∃ m' ret, Returns (fun fuel => allocatorAllocAddr kmalloc fuel m size addr) (m', ret) ∧
      AllocInv limit m' (grow live size ret) ∧ EndsKept m m' ret := by
  obtain ⟨m', ret, hret, hinv, hends, -⟩ := allocatorAllocAddr_free h.tree hlimit hsafe
  exact ⟨m', ret, hret, ⟨hinv, grow_pos h.live_pos hpos ret⟩, hends⟩

section Merge

variable {d : Side} {c : Context Nat} {v w : BinaryTree Nat} {hit goLeft : Region → Bool}
  {found : Option Nat} {l : Nat}

/-- A merge partner is in the subtree on its side, and it was hit. -/
theorem mergeSide_spec (h : Holds t (c.plug (join d v n w)))
    (hret : Returns (fun fuel => mergeSide t n d fun a => descend t hit goLeft fuel (some a)) found)
    (hl : found = some l) : l ∈ inorder v ∧ hit (t.item l) = true := by
  subst hl
  have hchild : t.child d n = Lib.root v := h.at_plug.2.1
  cases v with
  | nil =>
      have hnone : Returns (fun fuel => mergeSide t n d fun a => descend t hit goLeft fuel (some a))
          none := by
        simp only [mergeSide, hchild, root_nil, Option.elim_none]
        exact Returns.const _
      cases hret.unique hnone
  | node a x y =>
      obtain ⟨found, hfound, hmem⟩ := descend_spec (c := c.step d n w) (v := .node a x y) hit goLeft
        ((inorder (.node a x y)).length + 1) h (by omega)
      have hfound' := (descend_steady t hit goLeft (some a)).returns _ hfound
      cases found with
      | none =>
          obtain ⟨k, hk⟩ := hret
          obtain ⟨k', hk'⟩ := hfound'
          have hcall := hk (max k k') (le_max_left k k')
          simp only [mergeSide, hchild, root_node, Option.elim_some,
            hk' (max k k') (le_max_right k k'), Option.bind_some] at hcall
          cases hcall
      | some x' =>
          have hsome : Returns (fun fuel => mergeSide t n d fun a =>
              descend t hit goLeft fuel (some a)) (some x') := by
            simp only [mergeSide, hchild, root_node, Option.elim_some]
            exact hfound'.bind (Returns.const _)
          obtain rfl : l = x' := Option.some.inj (hret.unique hsome)
          exact hmem l rfl

/-- The region of `l` goes over to `n`, and `l` is deleted. -/
theorem FreeTree.absorb (h : FreeTree limit t cells) (hlimit : limit < 2 ^ 63) (hn : n ∈ cells)
    (hl : l ∈ cells) (hne : n ≠ l) (hr : r.addr + r.size ≤ limit)
    (hjoin : ∀ b, r.at b = (t.item n).at b + (t.item l).at b)
    (hsafe : DeleteSafeAny allocTreeKind (setRegion t n r.addr r.size) l) :
    ∃ t' f, Returns (fun fuel => allocTreeDelete fuel (setRegion t n r.addr r.size) l) t' ∧
      Deleted allocTreeKind (setRegion t n r.addr r.size) t' cells l f ∧
      FreeTree limit t' (cells.erase f) ∧
      ∀ b, cover ((cells.erase f).map t'.item) b = cover (cells.map t.item) b := by
  obtain ⟨hfree, hcover⟩ := h.resize hlimit hn hr
  obtain ⟨t', f, hret, hdel, hfree', hcover'⟩ := hfree.delete hl hsafe
  refine ⟨t', f, hret, hdel, hfree', fun b => ?_⟩
  have hb : _ + (t.item n).at b = _ + r.at b := hcover b
  have hb' := hcover' b
  have hj := hjoin b
  rw [item_setRegion, if_neg hne.symm] at hb'
  omega

end Merge

section Free

variable {l f : Nat}

/-- The items of the cells other than `n`, where `n` keeps its own. -/
theorem deleted_others (hdel : Deleted allocTreeKind t t' cells l f)
    (hn : n ∈ cells.erase f) (hne : n ≠ l) (hitem : t'.item n = t.item n) :
    ∀ a ∈ cells.erase f, a ≠ n → t'.item a ∈ (cells.erase n).map t.item := by
  have hnl : n ∈ cells.erase l := (List.mem_erase_of_ne hne).mpr (List.mem_of_mem_erase hn)
  have hperm := (((List.perm_cons_erase hn).map t'.item).symm.trans hdel.item).trans
    ((List.perm_cons_erase hnl).map t.item)
  rw [List.map_cons, List.map_cons, hitem] at hperm
  intro a ha hane
  have hmem := hperm.cons_inv.mem_iff.mp
    (List.mem_map_of_mem (f := t'.item) ((List.mem_erase_of_ne hane).mpr ha))
  obtain ⟨b, hb, hba⟩ := List.mem_map.mp hmem
  rw [← hba, List.erase_comm] at *
  exact List.mem_map_of_mem (List.mem_of_mem_erase hb)

theorem growLeft_eq (t : Tree Region Unit) (hne : n ≠ l)
    (hsize : (t.item n).size + (t.item l).size < 2 ^ 64) :
    growLeft t n l = setRegion t n (t.item l).addr ((t.item n).size + (t.item l).size) := by
  simp only [growLeft, setRegion]
  congr 1
  simp [setAddr, hne.symm, u64_of_lt hsize]

theorem growRight_eq (t : Tree Region Unit) {r : Nat}
    (hsize : (t.item n).size + (t.item r).size < 2 ^ 64) :
    growRight t n r = setRegion t n (t.item n).addr ((t.item n).size + (t.item r).size) := by
  rw [growRight, treeSetSize_eq, u64_of_lt hsize]

end Free

/--
What the merges around the freed node `n` need: a search that starts finds a
region, and what it finds can be deleted once `n` was widened.
-/
def MergeSafe (t : Tree Region Unit) (n addr size : Nat) : Prop :=
  ∃ left right,
    Returns (fun fuel => mergeSide t n .left fun c => mergeLr fuel t c addr) left ∧
    Returns (fun fuel => mergeSide t n .right fun c => mergeRr fuel t c addr size) right ∧
    (∀ l, left = some l → DeleteSafeAny allocTreeKind (growLeft t n l) l) ∧
    ∀ r t', right = some r →
      Returns (fun fuel => left.elim (some t) (absorbLeft fuel t n)) t' →
      DeleteSafeAny allocTreeKind (growRight t' n r) r

/-- What `allocator_free` needs: a new node, and safe merges once it is in the tree. -/
def FreeSafe (kmalloc : Nat → Nat) (m : Allocator) (r : Region) : Prop :=
  let n := nextNode kmalloc m
  Fresh m n ∧ ∀ t, Returns (fun fuel => allocTreeInsert fuel (setRegion m.tree n r.addr r.size) n) t →
    MergeSafe t n r.addr r.size

/-- The merge to the left, which leaves what is to the right of `n` as it was. -/
theorem absorbLeft_spec {c : Context Nat} {v w : BinaryTree Nat} {left : Option Nat}
    (h : FreeTree limit t (inorder (c.plug (join .left v n w)))) (hlimit : limit < 2 ^ 63)
    (hs : Holds t (c.plug (join .left v n w)))
    (hleft : ∀ l, left = some l → l ∈ inorder v ∧
      (t.item l).addr + (t.item l).size = (t.item n).addr ∧
      DeleteSafeAny allocTreeKind (growLeft t n l) l) :
    ∃ t' cells, Returns (fun fuel => left.elim (some t) (absorbLeft fuel t n)) t' ∧
      FreeTree limit t' cells ∧ n ∈ cells ∧
      t'.item n = left.elim (t.item n) (fun l =>
        ⟨(t.item l).addr, (t.item n).size + (t.item l).size⟩) ∧
      (∀ x ∈ inorder w, x ∈ cells ∧ t'.item x = t.item x) ∧
      (∀ a ∈ cells, a ≠ n →
        t'.item a ∈ ((inorder (c.plug (join .left v n w))).erase n).map t.item) ∧
      ∀ b, cover (cells.map t'.item) b =
        cover ((inorder (c.plug (join .left v n w))).map t.item) b := by
  have hplug : ∀ x, x ∈ inorder (c.plug (join .left v n w)) ↔
      (x = n ∨ x ∈ inorder v ∨ x ∈ inorder w) ∨ x ∈ c.cells := by
    intro x
    rw [Context.mem_inorder_plug, mem_inorder_join]
  have hn : n ∈ inorder (c.plug (join .left v n w)) := (hplug n).mpr (.inl (.inl rfl))
  have hw : ∀ x ∈ inorder w, x ∈ inorder (c.plug (join .left v n w)) :=
    fun x hx => (hplug x).mpr (.inl (.inr (.inr hx)))
  cases left with
  | none => exact ⟨t, _, Returns.const _, h, hn, rfl, fun x hx => ⟨hw x hx, rfl⟩,
      fun a ha hane => List.mem_map_of_mem ((List.mem_erase_of_ne hane).mpr ha), fun _ => rfl⟩
  | some l =>
      obtain ⟨hl, hadj, hsafe⟩ := hleft l rfl
      have hlmem : l ∈ inorder (c.plug (join .left v n w)) :=
        (hplug l).mpr (.inl (.inr (.inl hl)))
      -- the subtree `v` of `n` is all that the deletion of `l` touches
      have hsv : Holds t ((c.step .left n w).plug v) := hs
      have hout : ∀ x, x = n ∨ x ∈ inorder w → x ∉ inorder v := by
        intro x hx hxv
        refine hsv.disjoint hxv ?_
        rcases hx with rfl | hx <;> simp [Context.cells, *]
      have hne : n ≠ l := by
        rintro rfl
        exact hout n (.inl rfl) hl
      have hbelow := h.item_below hn
      have hsize : (t.item n).size + (t.item l).size < 2 ^ 64 := by
        have := h.item_below hlmem
        omega
      rw [growLeft_eq t hne hsize] at hsafe
      obtain ⟨t', f, hret, hdel, hfree, hcover⟩ := h.absorb
        (r := ⟨(t.item l).addr, (t.item n).size + (t.item l).size⟩) hlimit hn hlmem hne
        (by simp only; omega)
        (fun b => by
          rw [Nat.add_comm (t.item n).size, at_split, hadj, Nat.add_comm])
        hsafe
      have hgrown : Holds (setRegion t n (t.item l).addr ((t.item n).size + (t.item l).size))
          ((c.step .left n w).plug v) :=
        hsv.congr rfl (by simp [setRegion, treeSetSize, setAddr])
          (by simp [setRegion, treeSetSize, setAddr])
      obtain ⟨hf, hinside⟩ := hdel.inside _ _ hgrown hl
      have hkeep : ∀ x, x = n ∨ x ∈ inorder w →
          x ∈ (inorder (c.plug (join .left v n w))).erase f := by
        intro x hx
        refine (List.mem_erase_of_ne ?_).mpr ?_
        · rintro rfl
          exact hout x hx hf
        · rcases hx with rfl | hx
          · exact hn
          · exact hw x hx
      have hself : t'.item n = ⟨(t.item l).addr, (t.item n).size + (t.item l).size⟩ := by
        rw [hinside n (hout n (.inl rfl)), item_setRegion, if_pos rfl,
          Nat.mod_eq_of_lt (show (t.item n).size + (t.item l).size < 2 ^ 63 by omega)]
      refine ⟨t', _, ?_, hfree, hkeep n (.inl rfl), hself, fun x hx => ⟨hkeep x (.inr hx), ?_⟩,
        fun a ha hane => ?_, hcover⟩
      · simp only [Option.elim_some, absorbLeft, growLeft_eq t hne hsize]
        exact hret
      · have hxn : x ≠ n := by
          rintro rfl
          have hnd := (List.nodup_append.mp (Context.nodup_plug.mp hs.nodup)).1
          have := (List.nodup_cons.mp ((inorder_join_perm .left v x w).nodup_iff.mp hnd)).1
          exact this (by simp [hx])
        rw [hinside x (hout x (.inr hx)), item_setRegion, if_neg hxn]
      · have hothers := deleted_others hdel (hkeep n (.inl rfl)) hne
          (hinside n (hout n (.inl rfl))) a ha hane
        obtain ⟨b, hb, hba⟩ := List.mem_map.mp hothers
        have hbn : b ≠ n := by
          rintro rfl
          exact h.holds.nodup.not_mem_erase hb
        rw [item_setRegion, if_neg hbn] at hba
        exact hba ▸ List.mem_map_of_mem hb

theorem mergeSide_none {d : Side} {search : Nat → Nat → Option (Option Nat)} {found : Option Nat}
    (hret : Returns (fun fuel => mergeSide t n d (search fuel)) found) :
    found = none ↔ t.child d n = none := by
  obtain ⟨k, hk⟩ := hret
  have hcall := hk k le_rfl
  cases hchild : t.child d n with
  | none =>
      simp only [mergeSide, hchild, Option.elim_none, Option.some.injEq] at hcall
      simp [← hcall]
  | some c =>
      simp only [mergeSide, hchild, Option.elim_some] at hcall
      obtain ⟨l, -, hfound⟩ := Option.bind_eq_some_iff.mp hcall
      obtain ⟨l, -, rfl⟩ := Option.map_eq_some_iff.mp hfound
      simp

/-- The region `w` is that of `n`, grown over one of `rs` on each side where `n` has a child. -/
structure Widened (t : Tree Region Unit) (rs : List Region) (n : Nat) (w : Region) : Prop where
  left_none : t.child .left n = none → w.addr = (t.item n).addr
  left_some : t.child .left n ≠ none →
    ∃ y ∈ rs, y.addr + y.size = (t.item n).addr ∧ w.addr = y.addr
  right_none : t.child .right n = none → w.addr + w.size = (t.item n).addr + (t.item n).size
  right_some : t.child .right n ≠ none →
    ∃ y ∈ rs, (t.item n).addr + (t.item n).size = y.addr ∧ w.addr + w.size = y.addr + y.size

theorem Widened.mono {rs rs' : List Region} {w : Region} (h : Widened t rs n w) (hsub : rs ⊆ rs') :
    Widened t rs' n w := by
  refine ⟨h.left_none, fun hchild => ?_, h.right_none, fun hchild => ?_⟩
  · obtain ⟨y, hy, hend⟩ := h.left_some hchild
    exact ⟨y, hsub hy, hend⟩
  · obtain ⟨y, hy, hend⟩ := h.right_some hchild
    exact ⟨y, hsub hy, hend⟩

/-- The merges keep the bytes of the tree. -/
theorem mergeFreed_spec (h : FreeTree limit t cells) (hlimit : limit < 2 ^ 63) (hn : n ∈ cells)
    (hitem : t.item n = ⟨addr, size⟩) (hsafe : MergeSafe t n addr size) :
    ∃ t' cells' w, Returns (fun fuel => mergeFreed fuel t n addr size) t' ∧
      FreeTree limit t' cells' ∧ Widened t ((cells.erase n).map t.item) n w ∧
      (∀ x ∈ cells'.map t'.item, x = w ∨ x ∈ (cells.erase n).map t.item) ∧
      ∀ b, cover (cells'.map t'.item) b = cover (cells.map t.item) b := by
  obtain ⟨left, right, hleft, hright, hdel, hdel'⟩ := hsafe
  obtain ⟨s, rfl, hs⟩ := h.holds
  obtain ⟨c, v, w, rfl⟩ := Context.exists_plug hn .left
  have hbelow := h.item_below hn
  rw [hitem] at hbelow
  simp only at hbelow
  have hplug : ∀ x, x ∈ inorder v ∨ x ∈ inorder w → x ∈ inorder (c.plug (join .left v n w)) := by
    intro x hx
    rw [Context.mem_inorder_plug, mem_inorder_join]
    exact .inl (.inr hx)
  have hne : ∀ {x}, x ∈ inorder v ∨ x ∈ inorder w → n ≠ x := by
    rintro x hx rfl
    have hnd := (List.nodup_append.mp (Context.nodup_plug.mp hs.nodup)).1
    exact (List.nodup_cons.mp ((inorder_join_perm .left v n w).nodup_iff.mp hnd)).1
      (List.mem_append.mpr hx)
  have hneighbour : ∀ {x}, x ∈ inorder v ∨ x ∈ inorder w →
      t.item x ∈ ((inorder (c.plug (join .left v n w))).erase n).map t.item := fun hx =>
    List.mem_map_of_mem ((List.mem_erase_of_ne (hne hx).symm).mpr (hplug _ hx))
  have hadj : ∀ l, left = some l → l ∈ inorder v ∧
      (t.item l).addr + (t.item l).size = (t.item n).addr := by
    intro l hl
    obtain ⟨hmem, hhit⟩ := mergeSide_spec hs hleft hl
    have hlow := h.item_below (hplug l (.inl hmem))
    rw [decide_eq_true_eq, u64_of_lt (by omega)] at hhit
    exact ⟨hmem, by rw [hitem, hhit]⟩
  obtain ⟨t₁, cells₁, hret₁, hfree₁, hn₁, hself, hkeep, hothers, hcover₁⟩ :=
    @absorbLeft_spec _ _ _ _ _ _ left h hlimit hs fun l hl =>
      ⟨(hadj l hl).1, (hadj l hl).2, hdel l hl⟩
  have hlow₁ : t.child .left n = none → (t₁.item n).addr = (t.item n).addr := by
    intro hchild
    rw [hself, (mergeSide_none hleft).mpr hchild, Option.elim_none]
  have hgrown₁ : t.child .left n ≠ none →
      ∃ y ∈ ((inorder (c.plug (join .left v n w))).erase n).map t.item,
        y.addr + y.size = (t.item n).addr ∧ (t₁.item n).addr = y.addr := by
    intro hchild
    obtain ⟨l, rfl⟩ := Option.ne_none_iff_exists'.mp ((mergeSide_none hleft).not.mpr hchild)
    rw [hself, Option.elim_some]
    exact ⟨_, hneighbour (.inl (hadj l rfl).1), (hadj l rfl).2, rfl⟩
  have hend₁ : (t₁.item n).addr + (t₁.item n).size = addr + size := by
    rw [hself]
    cases left with
    | none => simp only [Option.elim_none, hitem]
    | some l =>
        have hl := (hadj l rfl).2
        rw [hitem] at hl ⊢
        simp only [Option.elim_some] at hl ⊢
        omega
  unfold mergeFreed
  have hcall : ∀ {t' : Tree Region Unit},
      Returns (fun fuel => right.elim (some t₁) (absorbRight fuel t₁ n)) t' →
      Returns (fun fuel =>
        (mergeSide t n .left fun c => mergeLr fuel t c addr).bind fun left =>
        (mergeSide t n .right fun c => mergeRr fuel t c addr size).bind fun right =>
        (left.elim (some t) (absorbLeft fuel t n)).bind fun t =>
          right.elim (some t) (absorbRight fuel t n)) t' :=
    fun hret => hleft.bind (hright.bind (hret₁.bind hret))
  cases right with
  | none =>
      refine ⟨t₁, cells₁, t₁.item n, hcall (Returns.const _), hfree₁,
        ⟨hlow₁, hgrown₁, fun _ => by rw [hend₁, hitem],
          fun hchild => absurd ((mergeSide_none hright).mp rfl) hchild⟩, fun x hx => ?_, hcover₁⟩
      obtain ⟨a, ha, rfl⟩ := List.mem_map.mp hx
      by_cases han : a = n
      · exact .inl (by rw [han])
      · exact .inr (hothers a ha han)
  | some x =>
      obtain ⟨hmem, hhit⟩ := mergeSide_spec (d := .right) (v := w) (w := v) hs hright rfl
      obtain ⟨hmem₁, hitem₁⟩ := hkeep x hmem
      have hhigh := hfree₁.item_below hmem₁
      have hlow := hfree₁.item_below hn₁
      rw [decide_eq_true_eq, u64_of_lt (by omega), ← hitem₁] at hhit
      have hsafe := hdel' x t₁ rfl hret₁
      rw [growRight_eq t₁ (by omega)] at hsafe
      obtain ⟨t₂, f, hret₂, hdel₂, hfree₂, hcover₂⟩ := hfree₁.absorb
        (r := ⟨(t₁.item n).addr, (t₁.item n).size + (t₁.item x).size⟩) hlimit hn₁ hmem₁
        (hne (.inr hmem))
        (by simp only; omega)
        (fun b => by
          rw [at_split, show (t₁.item n).addr + (t₁.item n).size = (t₁.item x).addr by omega])
        hsafe
      refine ⟨t₂, cells₁.erase f, ⟨(t₁.item n).addr, (t₁.item n).size + (t₁.item x).size⟩,
        hcall ?_, hfree₂, ⟨hlow₁, hgrown₁, fun hchild => ?_,
          fun _ => ⟨_, hneighbour (.inr hmem), ?_, ?_⟩⟩, fun y hy => ?_,
        fun b => (hcover₂ b).trans (hcover₁ b)⟩
      · simp only [Option.elim_some, absorbRight, growRight_eq t₁
          (show (t₁.item n).size + (t₁.item x).size < 2 ^ 64 by omega)]
        exact hret₂
      · cases (mergeSide_none hright).mpr hchild
      · rw [← hitem₁, ← hhit, hitem]
      · rw [← hitem₁]
        simp only
        omega
      · obtain ⟨a, ha, rfl⟩ := List.mem_map.mp (hdel₂.item.mem_iff.mp hy)
        rw [item_setRegion, Nat.mod_eq_of_lt
          (show (t₁.item n).size + (t₁.item x).size < 2 ^ 63 by omega)]
        split
        · exact .inl rfl
        · rename_i han
          exact .inr (hothers a (List.mem_of_mem_erase ha) han)

/-- The free regions after `allocator_free` of `r`; `t` is the tree with the new node in it. -/
theorem allocatorFree_regions (h : AllocInv limit m live) (hlimit : limit < 2 ^ 63) (hr : r ∈ live)
    (hsafe : FreeSafe kmalloc m r) (hcells : HoldsCells m.tree cells) :
    ∃ m' t cells' w, Returns (fun fuel => allocatorFree kmalloc fuel m r.addr r.size) m' ∧
      AllocInv limit m' (live.erase r) ∧ HoldsCells m'.tree cells' ∧
      Returns (fun fuel => allocTreeInsert fuel
        (setRegion m.tree (nextNode kmalloc m) r.addr r.size) (nextNode kmalloc m)) t ∧
      t.item (nextNode kmalloc m) = r ∧
      Widened t (cells.map m.tree.item) (nextNode kmalloc m) w ∧
      (∀ x ∈ cells'.map m'.tree.item, x = w ∨ x ∈ cells.map m.tree.item) ∧
      ∀ b, cover (cells'.map m'.tree.item) b = r.at b + cover (cells.map m.tree.item) b := by
  have hbelow := h.partitioned.inside r hr
  obtain ⟨cells₀, hfree, hpart⟩ := h.tree
  obtain rfl := hcells.unique hfree.holds
  obtain ⟨hfresh, hmerge⟩ := hsafe
  have hnot := hfresh cells hcells
  obtain ⟨t₁, cells₁, hret₁, hins, hperm, hfree₁, hitem₁, hcover₁⟩ :=
    @insertRegion_spec kmalloc _ _ _ _ hfree hlimit hnot hbelow
  have hself : t₁.item (nextNode kmalloc m) = r := by rw [hitem₁, if_pos rfl]
  obtain ⟨t₂, cells₂, w, hret₂, hfree₂, hwide, hmem₂, hcover₂⟩ := mergeFreed_spec hfree₁ hlimit
    (hperm.mem_iff.mpr (by simp)) hself (hmerge t₁ hins)
  -- the nodes beside the new one have their old regions
  have hold : (cells₁.erase (nextNode kmalloc m)).map t₁.item ⊆ cells.map m.tree.item := by
    intro x hx
    obtain ⟨a, ha, rfl⟩ := List.mem_map.mp hx
    have hacells : a ∈ cells := (List.cons_perm_iff_perm_erase.mp hperm.symm).2.mem_iff.mpr ha
    have hne : a ≠ nextNode kmalloc m := fun heq => hnot (heq ▸ hacells)
    rw [hitem₁, if_neg hne]
    exact List.mem_map_of_mem hacells
  refine ⟨((allocNode kmalloc m).1.putTree t₁).putTree t₂, t₁, cells₂, w, hret₁.bind (hret₂.map _),
    ⟨⟨cells₂, hfree₂, Partitions.intro fun b => ?_⟩,
      fun x hx => h.live_pos x (List.mem_of_mem_erase hx)⟩, hfree₂.holds, hins, hself,
    hwide.mono hold, fun x hx => (hmem₂ x hx).imp_right (hold ·),
    fun b => (hcover₂ b).trans (hcover₁ b)⟩
  have hb := hpart b
  have hd₁ := hcover₁ b
  have hd₂ := hcover₂ b
  have hlive := cover_perm (List.perm_cons_erase hr) b
  rw [cover_append] at hb
  rw [cover_cons] at hlive
  rw [Allocator.tree_putTree]
  omega

theorem allocatorFree_spec (h : AllocInv limit m live) (hlimit : limit < 2 ^ 63) (hr : r ∈ live)
    (hsafe : FreeSafe kmalloc m r) :
    ∃ m', Returns (fun fuel => allocatorFree kmalloc fuel m r.addr r.size) m' ∧
      AllocInv limit m' (live.erase r) := by
  obtain ⟨cells, hfree, -⟩ := h.tree
  obtain ⟨m', -, -, -, hret, hinv, -⟩ := allocatorFree_regions h hlimit hr hsafe hfree.holds
  exact ⟨m', hret, hinv⟩

end UntitledOs.Vmemory
