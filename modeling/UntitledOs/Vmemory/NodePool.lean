import UntitledOs.Vmemory.Runs

/-!
# The node pool

`alloc_node` steps through the lower half of the pool.  Behind the middle it moves
the unused nodes to the front and refills the rest.  The two slots between the
moved nodes and the new ones keep nodes that were handed out before.
-/

namespace UntitledOs.Vmemory

variable {kmalloc : Nat → Nat} {m : Allocator} {k n s : Nat}

/-- The nodes that `k` calls of `alloc_node` hand out, in their order. -/
def allocNodes (kmalloc : Nat → Nat) (m : Allocator) : Nat → Allocator × List Nat
  | 0 => (m, [])
  | k + 1 =>
      let r := allocNodes kmalloc m k
      ((allocNode kmalloc r.1).1, r.2 ++ [(allocNode kmalloc r.1).2])

/-- The slots of the pool that a call of `alloc_node` reads and writes. -/
def allocNodeSlots (m : Allocator) : List Nat :=
  let i := m.nodeMemPoolI + 1
  if m.nodeMemPoolI ≥ nodeMemPoolSize / 2 then
    (List.range' i (nodeMemPoolSize - i)).flatMap (fun j => [j - i, j]) ++ [0]
  else [i]

/-- Each of `k` calls stays in the pool, and they hand out different nodes. -/
structure FreshNodes (kmalloc : Nat → Nat) (m : Allocator) (k : Nat) : Prop where
  inPool : ∀ j < k, ∀ i ∈ allocNodeSlots (allocNodes kmalloc m j).1, i < nodeMemPoolSize
  distinct : (allocNodes kmalloc m k).2.Nodup

theorem allocNodeSlots_lt (m : Allocator) : ∀ i ∈ allocNodeSlots m, i < nodeMemPoolSize := by
  unfold allocNodeSlots
  dsimp only
  split
  · intro i hi
    rcases List.mem_append.mp hi with hi | hi
    · obtain ⟨j, hj, hi⟩ := List.mem_flatMap.mp hi
      rw [List.mem_range'_1] at hj
      simp only [List.mem_cons, List.not_mem_nil, or_false] at hi
      omega
    · rw [List.mem_singleton.mp hi]
      decide
  · intro i hi
    rw [List.mem_singleton.mp hi]
    unfold nodeMemPoolSize at *
    omega

section Refill

/-- Refilling from slot `s` on moves `n` nodes to the front and puts new ones in their place. -/
theorem foldl_refillSlot (h : n ≤ s) (m : Allocator) :
    (List.range' s n).foldl (refillSlot kmalloc s) m =
      { m with
        nodeMemPool := fun x =>
          if x < n then m.nodeMemPool (s + x)
          else if s ≤ x ∧ x < s + n then kmalloc (m.kmallocs + (x - s))
          else m.nodeMemPool x
        kmallocs := m.kmallocs + n } := by
  induction n with
  | zero =>
      have hpool : m.nodeMemPool = fun x =>
          if x < 0 then m.nodeMemPool (s + x)
          else if s ≤ x ∧ x < s + 0 then kmalloc (m.kmallocs + (x - s))
          else m.nodeMemPool x := by
        funext x
        rw [if_neg (by omega), if_neg (by omega)]
      rw [← hpool]
      rfl
  | succ n ih =>
      rw [List.range'_1_concat, List.foldl_append, ih (by omega), List.foldl_cons, List.foldl_nil]
      unfold refillSlot
      simp only [Allocator.mk.injEq, true_and]
      refine ⟨?_, by omega⟩
      funext x
      simp only [Function.update_apply, Nat.add_sub_cancel_left]
      rcases Nat.lt_trichotomy x n with hx | rfl | hx
      · rw [if_neg (by omega), if_neg (by omega), if_pos hx, if_pos (by omega)]
      · rw [if_neg (by omega), if_pos rfl, if_neg (by omega), if_neg (by omega), if_pos (by omega)]
      · by_cases hlast : x = s + n
        · subst hlast
          rw [if_pos rfl, if_neg (by omega), if_pos (by omega), Nat.add_sub_cancel_left]
        · rw [if_neg hlast, if_neg (by omega), if_neg (by omega)]
          by_cases hin : s ≤ x ∧ x < s + n
          · rw [if_pos hin, if_neg (by omega), if_pos (by omega)]
          · rw [if_neg hin, if_neg (by omega), if_neg (by omega)]

/-- The pool as `node_mem_pool_init` fills it. -/
theorem foldl_init (m : Allocator) (n : Nat) :
    (List.range n).foldl (fun m i =>
      { m with nodeMemPool := Function.update m.nodeMemPool i (kmalloc m.kmallocs)
               kmallocs := m.kmallocs + 1 }) m =
      { m with
        nodeMemPool := fun x => if x < n then kmalloc (m.kmallocs + x) else m.nodeMemPool x
        kmallocs := m.kmallocs + n } := by
  induction n with
  | zero => rfl
  | succ n ih =>
      rw [List.range_succ, List.foldl_append, ih, List.foldl_cons, List.foldl_nil]
      simp only [Allocator.mk.injEq, true_and]
      refine ⟨?_, by omega⟩
      funext x
      simp only [Function.update_apply]
      rcases Nat.lt_trichotomy x n with hx | rfl | hx
      · rw [if_neg (by omega), if_pos hx, if_pos (by omega)]
      · rw [if_pos rfl, if_pos (by omega)]
      · rw [if_neg (by omega), if_neg (by omega), if_neg (by omega)]

end Refill

section Calls

theorem allocNode_step (h : m.nodeMemPoolI < 56) :
    allocNode kmalloc m =
      ({ m with nodeMemPoolI := m.nodeMemPoolI + 1 }, m.nodeMemPool (m.nodeMemPoolI + 1)) := by
  unfold allocNode nodeMemPoolSize
  dsimp only
  rw [if_neg (by omega)]

/-- The pool after it was refilled. -/
def refilled (kmalloc : Nat → Nat) (m : Allocator) : Allocator :=
  { m with
    nodeMemPool := fun x =>
      if x < 55 then m.nodeMemPool (57 + x)
      else if 57 ≤ x ∧ x < 57 + 55 then kmalloc (m.kmallocs + (x - 57))
      else m.nodeMemPool x
    nodeMemPoolI := 0
    kmallocs := m.kmallocs + 55 }

theorem allocNode_refill (h : m.nodeMemPoolI = 56) :
    allocNode kmalloc m = (refilled kmalloc m, m.nodeMemPool 57) := by
  have hfold := @foldl_refillSlot kmalloc 55 57 (by decide) m
  unfold allocNode nodeMemPoolSize
  rw [h]
  dsimp only
  rw [if_pos (by decide), hfold]
  rfl

theorem allocNodes_add (m : Allocator) (a b : Nat) :
    allocNodes kmalloc m (a + b) =
      ((allocNodes kmalloc (allocNodes kmalloc m a).1 b).1,
        (allocNodes kmalloc m a).2 ++ (allocNodes kmalloc (allocNodes kmalloc m a).1 b).2) := by
  induction b with
  | zero => simp [allocNodes]
  | succ b ih =>
      rw [← Nat.add_assoc, allocNodes, ih]
      simp only [allocNodes, List.append_assoc]

theorem allocNodes_steps (h : m.nodeMemPoolI + k ≤ 56) :
    allocNodes kmalloc m k =
      ({ m with nodeMemPoolI := m.nodeMemPoolI + k },
        (List.range' (m.nodeMemPoolI + 1) k).map m.nodeMemPool) := by
  induction k with
  | zero => rfl
  | succ k ih =>
      rw [allocNodes, ih (by omega)]
      dsimp only
      rw [allocNode_step (by dsimp only; omega), List.range'_1_concat, List.map_append]
      dsimp only
      rw [show m.nodeMemPoolI + k + 1 = m.nodeMemPoolI + 1 + k by omega,
        show m.nodeMemPoolI + (k + 1) = m.nodeMemPoolI + 1 + k by omega]
      rfl

/-- The call behind the middle and `k` more. -/
theorem allocNodes_refill (h : m.nodeMemPoolI = 0) (hk : k ≤ 56) :
    allocNodes kmalloc m (57 + k) =
      ({ refilled kmalloc m with nodeMemPoolI := k },
        (List.range' 1 57).map m.nodeMemPool ++
          (List.range' 1 k).map (refilled kmalloc m).nodeMemPool) := by
  have hlow := @allocNodes_steps kmalloc m 56 (by omega)
  rw [h] at hlow
  have hmid : allocNodes kmalloc m 57 =
      (refilled kmalloc m, (List.range' 1 57).map m.nodeMemPool) := by
    rw [allocNodes, hlow]
    dsimp only
    rw [allocNode_refill rfl, List.range'_1_concat (n := 56), List.map_append]
    rfl
  rw [allocNodes_add, hmid]
  dsimp only
  rw [@allocNodes_steps kmalloc (refilled kmalloc m) k (by simpa [refilled] using hk)]
  simp [refilled]

/-- The nodes of the first 111 calls are the slots of the pool in their order. -/
theorem allocNodes_slots (h : m.nodeMemPoolI = 0) (hk : k ≤ 111) :
    (allocNodes kmalloc m k).2 = (List.range' 1 k).map m.nodeMemPool := by
  rcases Nat.lt_or_ge k 57 with hlow | hhigh
  · rw [allocNodes_steps (by omega), h]
  · obtain ⟨j, rfl⟩ := Nat.exists_eq_add_of_le hhigh
    have hmoved : (List.range' 1 j).map (refilled kmalloc m).nodeMemPool =
        (List.range' 58 j).map m.nodeMemPool := by
      rw [show List.range' 58 j = (List.range' 1 j).map (57 + ·) by simp [List.map_add_range'],
        List.map_map]
      refine List.map_congr_left fun x hx => ?_
      rw [List.mem_range'_1] at hx
      exact if_pos (show x < 55 by omega)
    rw [allocNodes_refill h (by omega), hmoved, ← List.map_append, List.range'_append_1]

theorem allocNodes_again (h : m.nodeMemPoolI = 0) :
    (allocNodes kmalloc m 112).2 = (List.range' 1 111).map m.nodeMemPool ++ [m.nodeMemPool 55] := by
  have hlast := congrArg Prod.snd (@allocNodes_refill kmalloc m 55 h (by decide))
  have hfirst := congrArg Prod.snd (@allocNodes_refill kmalloc m 54 h (by decide))
  have hslots := @allocNodes_slots kmalloc m 111 h (by decide)
  dsimp only at hlast hfirst
  rw [← hslots, hfirst, hlast, List.range'_1_concat (n := 54), List.map_append, List.append_assoc]
  rfl

end Calls

section Fresh

/-- The pool after `node_mem_pool_init`: its index is still 0. -/
def initialPool (kmalloc : Nat → Nat) (m : Allocator) : Allocator :=
  nodeMemPoolInit kmalloc { m with nodeMemPoolI := 0 }

theorem nodup_pool (hk : Function.Injective kmalloc) (h : k ≤ 111) :
    ((List.range' 1 k).map (initialPool kmalloc m).nodeMemPool).Nodup := by
  refine (List.nodup_range').map_on fun x hx y hy hxy => ?_
  rw [List.mem_range'_1] at hx hy
  unfold initialPool nodeMemPoolInit at hxy
  rw [foldl_init] at hxy
  unfold nodeMemPoolSize at hxy
  dsimp only at hxy
  rw [if_pos (by omega), if_pos (by omega)] at hxy
  have := hk hxy
  omega

/-- The nodes of `k` calls are different exactly up to 111 calls. -/
theorem node_pool_fresh_iff (kmalloc : Nat → Nat) (m : Allocator) (k : Nat)
    (hk : Function.Injective kmalloc) :
    FreshNodes kmalloc (initialPool kmalloc m) k ↔ k ≤ 111 := by
  have hindex : (initialPool kmalloc m).nodeMemPoolI = 0 := by
    unfold initialPool nodeMemPoolInit
    rw [foldl_init]
  constructor
  · intro h
    by_contra hlarge
    obtain ⟨j, rfl⟩ := Nat.exists_eq_add_of_le (show 112 ≤ k by omega)
    have hdistinct := h.distinct
    rw [allocNodes_add, allocNodes_again hindex] at hdistinct
    have hfirst := (List.nodup_append.mp hdistinct).1
    refine (List.nodup_append.mp hfirst).2.2 _ (List.mem_map_of_mem ?_) _
      (List.mem_singleton.mpr rfl) rfl
    exact List.mem_range'_1.mpr ⟨by decide, by decide⟩
  · intro h
    refine ⟨fun j _ => allocNodeSlots_lt _, ?_⟩
    rw [allocNodes_slots hindex h]
    exact nodup_pool hk h

theorem node_pool_fresh_iff_first :
    FreshNodes id (initialPool id blankAllocator) 111 ↔ 111 ≤ 111 :=
  node_pool_fresh_iff id blankAllocator 111 Function.injective_id

/-- A node is handed out twice within 112 calls. -/
theorem node_pool_repeats :
    ¬ ∀ (kmalloc : Nat → Nat) (m : Allocator) (k : Nat), Function.Injective kmalloc →
      FreshNodes kmalloc (initialPool kmalloc m) k := by
  intro h
  have hdistinct := (h id blankAllocator 112 Function.injective_id).distinct
  rw [allocNodes_again rfl] at hdistinct
  exact (List.nodup_append.mp hdistinct).2.2 _
    (List.mem_map_of_mem (List.mem_range'_1.mpr ⟨by decide, by decide⟩)) _
    (List.mem_singleton.mpr rfl) rfl

end Fresh

end UntitledOs.Vmemory
