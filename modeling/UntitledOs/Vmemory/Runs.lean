import UntitledOs.Vmemory.Operations

/-!
# Runs of the allocator

A run starts with `allocator_init` and is any sequence of calls of the four entry
points, where only blocks that are allocated are freed.  As long as every call
is safe, free and allocated memory stay a partition.
-/

namespace UntitledOs.Vmemory

open UntitledOs.Lib UntitledOs.RbTree

variable {kmalloc : Nat → Nat} {limit : Nat} {m : Allocator} {live : List Region}
  {ok : Allocator → AllocEvent → Prop}

inductive AllocEvent
  | alloc (size : Nat)
  | allocAlign (size align : Nat)
  | allocAddr (size addr : Nat)
  | free (r : Region)
  deriving DecidableEq

/-- The calls that a client may make while it owns the blocks `live`. -/
def AllocEvent.Valid (live : List Region) : AllocEvent → Prop
  | .alloc size => 0 < size ∧ size < 2 ^ 64
  | .allocAlign size align => (0 < size ∧ size < 2 ^ 64) ∧ 0 < align ∧ align < 2 ^ 64
  | .allocAddr size addr => (0 < size ∧ size < 2 ^ 64) ∧ addr < 2 ^ 64
  | .free r => r ∈ live

instance (live : List Region) : DecidablePred (AllocEvent.Valid live)
  | .alloc _ => inferInstanceAs (Decidable (_ ∧ _))
  | .allocAlign _ _ => inferInstanceAs (Decidable (_ ∧ _))
  | .allocAddr _ _ => inferInstanceAs (Decidable (_ ∧ _))
  | .free _ => inferInstanceAs (Decidable (_ ∈ _))

def allocStep (kmalloc : Nat → Nat) (fuel : Nat) (s : Allocator × List Region) :
    AllocEvent → Option (Allocator × List Region)
  | .alloc size => (allocatorAlloc fuel s.1 size).map fun r => (r.1, grow s.2 size r.2)
  | .allocAlign size align =>
      (allocatorAllocAlign kmalloc fuel s.1 size align).map fun r => (r.1, grow s.2 size r.2)
  | .allocAddr size addr =>
      (allocatorAllocAddr kmalloc fuel s.1 size addr).map fun r => (r.1, grow s.2 size r.2)
  | .free r => (allocatorFree kmalloc fuel s.1 r.addr r.size).map fun m => (m, s.2.erase r)

/-- The call `event` returns, with the new state and blocks. -/
def AllocReturns (kmalloc : Nat → Nat) (m : Allocator) (live : List Region) (event : AllocEvent)
    (s : Allocator × List Region) : Prop :=
  Returns (fun fuel => allocStep kmalloc fuel (m, live) event) s

/-- What each call needs of the state before it. -/
def StepSafe (kmalloc : Nat → Nat) (m : Allocator) : AllocEvent → Prop
  | .alloc size => AllocSafe m size
  | .allocAlign size align => AllocAlignSafe kmalloc m size align
  | .allocAddr size addr => AllocAddrSafe kmalloc m size addr
  | .free r => FreeSafe kmalloc m r

/-- The runs whose calls are made in states in which they are `ok`. -/
inductive AllocRun (kmalloc : Nat → Nat) (ok : Allocator → AllocEvent → Prop) (limit : Nat) :
    Allocator → List Region → Prop
  | init (m : Allocator) : AllocRun kmalloc ok limit (allocatorInit kmalloc limit m) []
  | step {m : Allocator} {live : List Region} {event : AllocEvent} {s : Allocator × List Region}
      (run : AllocRun kmalloc ok limit m live) (valid : event.Valid live) (isOk : ok m event)
      (returns : AllocReturns kmalloc m live event s) : AllocRun kmalloc ok limit s.1 s.2

/-- The tree starts as one node, whose size has lost the top bit. -/
theorem allocatorInit_cells (kmalloc : Nat → Nat) (limit : Nat) (m : Allocator) :
    ∃ n, HoldsCells (allocatorInit kmalloc limit m).tree [n] ∧
      (allocatorInit kmalloc limit m).tree.item n = ⟨0, limit % 2 ^ 63⟩ := by
  set n := (allocNode kmalloc (nodeMemPoolInit kmalloc m)).2 with hn
  refine ⟨n, ⟨.node n .nil .nil, rfl, ?_, ?_, by simp⟩, ?_⟩
  · simp [allocatorInit, setRegion, treeSetSize, setAddr, ← hn]
  · refine ⟨?_, ?_, ?_, trivial, trivial⟩ <;>
      simp [allocatorInit, setRegion, treeSetSize, setAddr, ← hn]
  · simp only [allocatorInit, Allocator.tree_putTree, Tree.item_setClr, Tree.item_setParent,
      Tree.item_clearChildren, ← hn, item_setRegion, if_true]

theorem allocInv_init (hlimit : limit < 2 ^ 63) (m : Allocator) :
    AllocInv limit (allocatorInit kmalloc limit m) [] := by
  obtain ⟨n, hcells, hitem⟩ := allocatorInit_cells kmalloc limit m
  rw [Nat.mod_eq_of_lt hlimit] at hitem
  refine ⟨⟨[n], ⟨hcells, ?_⟩, ?_⟩, by simp⟩
  · simp [hitem]
  · intro b
    simp [hitem, Region.at]

/-- A memory of `2 ^ 63` bytes or more is never covered. -/
theorem allocatorInit_partitioned_iff (m : Allocator) :
    Partitioned limit (allocatorInit kmalloc limit m) [] ↔ limit < 2 ^ 63 := by
  refine ⟨fun h => ?_, fun h => (allocInv_init h m).partitioned⟩
  obtain ⟨shape, hshape, hpart⟩ := h.partition
  obtain ⟨n, hcells, hitem⟩ := allocatorInit_cells kmalloc limit m
  rw [← hcells.unique ⟨shape, rfl, hshape⟩] at hpart
  have hmod := Nat.mod_lt limit (show 2 ^ 63 > 0 by decide)
  by_contra hlarge
  have hlast := hpart (limit - 1)
  rw [if_pos (show limit - 1 < limit by omega)] at hlast
  simp only [List.map_cons, List.map_nil, List.append_nil, cover_cons, cover_nil, hitem,
    Region.at] at hlast
  split at hlast <;> omega

/-- A safe call returns and keeps the invariant. -/
theorem allocStep_spec (h : AllocInv limit m live) (hlimit : limit < 2 ^ 63) {event : AllocEvent}
    (hvalid : event.Valid live) (hsafe : StepSafe kmalloc m event) :
    ∃ s, AllocReturns kmalloc m live event s ∧ AllocInv limit s.1 s.2 := by
  cases event with
  | alloc size =>
      obtain ⟨m', ret, hret, hinv, -⟩ := allocatorAlloc_spec h hlimit hvalid.1 hsafe
      exact ⟨_, hret.map _, hinv⟩
  | allocAlign size align =>
      obtain ⟨m', ret, hret, hinv, -⟩ := allocatorAllocAlign_spec h hlimit hvalid.1.1 hsafe
      exact ⟨_, hret.map _, hinv⟩
  | allocAddr size addr =>
      obtain ⟨m', ret, hret, hinv, -⟩ := allocatorAllocAddr_spec h hlimit hvalid.1.1 hsafe
      exact ⟨_, hret.map _, hinv⟩
  | free r =>
      obtain ⟨m', hret, hinv⟩ := allocatorFree_spec h hlimit hvalid hsafe
      exact ⟨_, hret.map _, hinv⟩

theorem allocRun_inv (hlimit : limit < 2 ^ 63)
    (hrun : AllocRun kmalloc (StepSafe kmalloc) limit m live) : AllocInv limit m live := by
  induction hrun with
  | init m => exact allocInv_init hlimit m
  | step _ valid isOk returns ih =>
      obtain ⟨s, hret, hinv⟩ := allocStep_spec ih hlimit valid isOk
      exact returns.unique hret ▸ hinv

/--
In every run of safe calls on a memory below `2 ^ 63` bytes the allocated blocks
are disjoint and inside the memory, and they and the free regions partition it;
the next safe call returns and leaves a partition again.
-/
theorem allocator_partitions (hlimit : limit < 2 ^ 63)
    (hrun : AllocRun kmalloc (StepSafe kmalloc) limit m live) :
    Partitioned limit m live ∧
    ∀ event : AllocEvent, event.Valid live → StepSafe kmalloc m event →
      ∃ s, AllocReturns kmalloc m live event s ∧ Partitioned limit s.1 s.2 := by
  have hinv := allocRun_inv hlimit hrun
  refine ⟨hinv.partitioned, fun event hvalid hsafe => ?_⟩
  obtain ⟨s, hret, hinv'⟩ := allocStep_spec hinv hlimit hvalid hsafe
  exact ⟨s, hret, hinv'.partitioned⟩

section Steps

theorem allocTreeDelete_steady (t : Tree Region Unit) (n : Nat) :
    Steady fun fuel => allocTreeDelete fuel t n :=
  (Tree.delete_steady allocTreeKind t n).map Prod.fst

theorem insertRegion_steady (kmalloc : Nat → Nat) (m : Allocator) (addr size : Nat) :
    Steady fun fuel => insertRegion kmalloc fuel m addr size :=
  (Tree.insert_steady allocTreeKind _ _).map _

theorem insertRest_steady (kmalloc : Nat → Nat) (m : Allocator) (addr size : Nat) :
    Steady fun fuel => insertRest kmalloc fuel m addr size := by
  unfold insertRest
  split
  · exact insertRegion_steady kmalloc m addr size
  · exact Steady.const _

theorem mergeSide_steady (t : Tree Region Unit) (n : Nat) (d : Side) (hit goLeft : Region → Bool) :
    Steady fun fuel => mergeSide t n d fun c => descend t hit goLeft fuel (some c) := by
  unfold mergeSide
  cases t.child d n with
  | none => exact Steady.const _
  | some c => exact (descend_steady t hit goLeft (some c)).bind fun _ => Steady.const _

theorem mergeFreed_steady (t : Tree Region Unit) (n addr size : Nat) :
    Steady fun fuel => mergeFreed fuel t n addr size := by
  refine (mergeSide_steady t n _ _ _).bind fun left => (mergeSide_steady t n _ _ _).bind fun right =>
    Steady.bind ?_ fun t => ?_
  · cases left with
    | none => exact Steady.const _
    | some l => exact allocTreeDelete_steady _ l
  · cases right with
    | none => exact Steady.const _
    | some r => exact allocTreeDelete_steady _ r

theorem search_steady {search : Nat → Option (Option Nat)}
    {next : Nat → Nat → Option (Allocator × Option Nat)} (m : Allocator) (hsearch : Steady search)
    (hnext : ∀ n, Steady fun fuel => next fuel n) :
    Steady fun fuel => (search fuel).bind fun found => found.elim (some (m, none)) (next fuel) := by
  refine hsearch.bind fun found => ?_
  cases found with
  | none => exact Steady.const _
  | some n => exact hnext n

theorem allocatorAlloc_steady (m : Allocator) (size : Nat) :
    Steady fun fuel => allocatorAlloc fuel m size := by
  unfold allocatorAlloc
  refine (Steady.const m.root).bind fun root =>
    search_steady m (findFirst_steady m.tree _ root) fun n => ?_
  unfold allocFrom
  dsimp only
  split
  · exact (allocTreeDelete_steady _ n).map _
  · exact Steady.const _

theorem allocatorAllocAlign_steady (kmalloc : Nat → Nat) (m : Allocator) (size align : Nat) :
    Steady fun fuel => allocatorAllocAlign kmalloc fuel m size align := by
  unfold allocatorAllocAlign
  refine (Steady.const m.root).bind fun root =>
    search_steady m (findFirst_steady m.tree _ root) fun n => ?_
  unfold allocAlignFrom
  dsimp only
  split
  · exact (allocTreeDelete_steady _ n).map _
  · exact (insertRest_steady kmalloc m _ _).map _

theorem allocatorAllocAddr_steady (kmalloc : Nat → Nat) (m : Allocator) (size addr : Nat) :
    Steady fun fuel => allocatorAllocAddr kmalloc fuel m size addr := by
  unfold allocatorAllocAddr
  refine search_steady m (descend_steady m.tree _ _ _) fun n => ?_
  unfold allocAddrFrom
  dsimp only
  split
  · exact (allocTreeDelete_steady _ n).map _
  · exact (allocTreeDelete_steady _ n).bind fun t =>
      (insertRest_steady kmalloc (m.putTree t) _ _).bind fun m' =>
        (insertRest_steady kmalloc m' _ _).map _

theorem allocStep_steady (kmalloc : Nat → Nat) (s : Allocator × List Region) (event : AllocEvent) :
    Steady fun fuel => allocStep kmalloc fuel s event := by
  cases event with
  | alloc size => exact (allocatorAlloc_steady s.1 size).map _
  | allocAlign size align => exact (allocatorAllocAlign_steady kmalloc s.1 size align).map _
  | allocAddr size addr => exact (allocatorAllocAddr_steady kmalloc s.1 size addr).map _
  | free r =>
      exact ((insertRegion_steady kmalloc s.1 r.addr r.size).bind fun m =>
        (mergeFreed_steady m.tree _ r.addr r.size).map _).map _

end Steps

section Check

/-- `Fresh`, read off the tree. -/
def freshCheck (fuel : Nat) (m : Allocator) (n : Nat) : Bool :=
  (m.tree.readCells fuel).any fun cells => decide (n ∉ cells)

theorem fresh_of_check {fuel n : Nat} (h : freshCheck fuel m n = true) : Fresh m n := by
  intro cells hcells
  obtain ⟨cells', hread, hnot⟩ := (Option.any_eq_true _ _).mp h
  rw [hcells.unique (HoldsCells.of_readCells hread)]
  exact of_decide_eq_true hnot

def mergeSafeCheck (fuel : Nat) (t : Tree Region Unit) (n addr size : Nat) : Bool :=
  (mergeSide t n .left fun c => mergeLr fuel t c addr).any fun left =>
    (mergeSide t n .right fun c => mergeRr fuel t c addr size).any fun right =>
      left.all (fun l => deleteSafeCheck allocTreeKind fuel (growLeft t n l) l) &&
      right.all fun r => (left.elim (some t) (absorbLeft fuel t n)).any fun t' =>
        deleteSafeCheck allocTreeKind fuel (growRight t' n r) r

theorem mergeSafe_of_check {fuel n addr size : Nat} {t : Tree Region Unit}
    (h : mergeSafeCheck fuel t n addr size = true) : MergeSafe t n addr size := by
  obtain ⟨left, hleft, h⟩ := (Option.any_eq_true _ _).mp h
  obtain ⟨right, hright, h⟩ := (Option.any_eq_true _ _).mp h
  rw [Bool.and_eq_true] at h
  obtain ⟨hgrow, hrest⟩ := h
  refine ⟨left, right, (mergeSide_steady t n .left _ _).returns fuel hleft,
    (mergeSide_steady t n .right _ _).returns fuel hright, fun l hl => ?_, fun r t' hr ht' => ?_⟩
  · exact deleteSafeAny_of_check (Option.all_eq_true _ _ |>.mp hgrow l hl)
  · obtain ⟨t'', habsorb, hdel⟩ := (Option.any_eq_true _ _).mp
      (Option.all_eq_true _ _ |>.mp hrest r hr)
    have hsteady : Steady fun fuel => left.elim (some t) (absorbLeft fuel t n) := by
      cases left with
      | none => exact Steady.const _
      | some l => exact allocTreeDelete_steady _ l
    obtain rfl := ht'.unique (hsteady.returns fuel habsorb)
    exact deleteSafeAny_of_check hdel

/-- `StepSafe`, read off the tree. -/
def stepSafeCheck (kmalloc : Nat → Nat) (fuel : Nat) (m : Allocator) : AllocEvent → Bool
  | .alloc size => m.root.any fun root =>
      (findFirst m.tree (firstFit size) fuel root).any fun found => found.all fun n =>
        decide ((m.tree.item n).size = size → deleteSafeCheck allocTreeKind fuel m.tree n = true)
  | .allocAlign size align => m.root.any fun root =>
      (findFirst m.tree (firstFitAlign size align) fuel root).any fun found => found.all fun n =>
        let r := m.tree.item n
        decide (alignOff align r.addr + size ≤ r.size ∧
          (alignOff align r.addr + size = r.size →
            alignOff align r.addr = 0 ∧ deleteSafeCheck allocTreeKind fuel m.tree n = true) ∧
          (alignOff align r.addr ≠ 0 → freshCheck fuel m (nextNode kmalloc m) = true))
  | .allocAddr size addr =>
      (allocTreeFindContaining fuel m.tree addr size).any fun found => found.all fun n =>
        let r := m.tree.item n
        let next := nextNode kmalloc (allocNode kmalloc m).1
        decide (addr + size < 2 ^ 64 ∧ deleteSafeCheck allocTreeKind fuel m.tree n = true ∧
          (addr ≠ r.addr → freshCheck fuel m (nextNode kmalloc m) = true) ∧
          (addr + size ≠ r.addr + r.size →
            if addr = r.addr then freshCheck fuel m (nextNode kmalloc m) = true
            else freshCheck fuel m next = true ∧ next ≠ nextNode kmalloc m))
  | .free r =>
      let n := nextNode kmalloc m
      freshCheck fuel m n &&
        (allocTreeInsert fuel (setRegion m.tree n r.addr r.size) n).any fun t =>
          mergeSafeCheck fuel t n r.addr r.size

theorem stepSafe_of_check {fuel : Nat} {event : AllocEvent}
    (h : stepSafeCheck kmalloc fuel m event = true) : StepSafe kmalloc m event := by
  cases event with
  | alloc size =>
      obtain ⟨root, hroot, h⟩ := (Option.any_eq_true _ _).mp h
      obtain ⟨found, hfound, h⟩ := (Option.any_eq_true _ _).mp h
      refine ⟨root, hroot, fun n hn hsize => ?_⟩
      obtain rfl := ((findFirst_steady m.tree _ root).returns fuel hfound).unique hn
      exact deleteSafeAny_of_check (of_decide_eq_true h hsize)
  | allocAlign size align =>
      obtain ⟨root, hroot, h⟩ := (Option.any_eq_true _ _).mp h
      obtain ⟨found, hfound, h⟩ := (Option.any_eq_true _ _).mp h
      refine ⟨root, hroot, fun n hn => ?_⟩
      obtain rfl := ((findFirst_steady m.tree _ root).returns fuel hfound).unique hn
      obtain ⟨hle, hexact, hfresh⟩ := of_decide_eq_true h
      exact ⟨hle, fun heq => ⟨(hexact heq).1, deleteSafeAny_of_check (hexact heq).2⟩,
        fun hne => fresh_of_check (hfresh hne)⟩
  | allocAddr size addr =>
      obtain ⟨found, hfound, h⟩ := (Option.any_eq_true _ _).mp h
      intro n hn
      obtain rfl := ((descend_steady _ _ _ _).returns fuel hfound).unique hn
      obtain ⟨hlt, hdel, hfront, hback⟩ := of_decide_eq_true h
      refine ⟨hlt, deleteSafeAny_of_check hdel, fun hne => fresh_of_check (hfront hne),
        fun hne => ?_⟩
      have hback := hback hne
      split at hback
      · rename_i heq
        rw [if_pos heq]
        exact fresh_of_check hback
      · rename_i hoff
        rw [if_neg hoff]
        exact ⟨fresh_of_check hback.1, hback.2⟩
  | free r =>
      obtain ⟨hfresh, h⟩ := Bool.and_eq_true _ _ |>.mp h
      obtain ⟨t, ht, hmerge⟩ := (Option.any_eq_true _ _).mp h
      refine ⟨fresh_of_check hfresh, fun t' ht' => ?_⟩
      obtain rfl := ((Tree.insert_steady allocTreeKind _ _).returns fuel ht).unique ht'
      exact mergeSafe_of_check hmerge

/-- One call of a run, or `none` where the run cannot have it. -/
def checkedAlloc (kmalloc : Nat → Nat) (check : Allocator → AllocEvent → Bool) (fuel : Nat)
    (s : Allocator × List Region) (event : AllocEvent) : Option (Allocator × List Region) :=
  if event.Valid s.2 ∧ check s.1 event = true then allocStep kmalloc fuel s event else none

theorem allocRun_of_steps {fuel : Nat} {check : Allocator → AllocEvent → Bool}
    (hok : ∀ m event, check m event = true → ok m event) (events : List AllocEvent)
    (hrun : AllocRun kmalloc ok limit m live) {s : Allocator × List Region}
    (hs : events.foldlM (checkedAlloc kmalloc check fuel) (m, live) = some s) :
    AllocRun kmalloc ok limit s.1 s.2 := by
  induction events generalizing m live with
  | nil =>
      obtain rfl : (m, live) = s := Option.some.inj hs
      exact hrun
  | cons event events ih =>
      rw [List.foldlM_cons] at hs
      obtain ⟨⟨m₁, live₁⟩, hstep, hs⟩ := Option.bind_eq_some_iff.mp hs
      unfold checkedAlloc at hstep
      split at hstep
      · rename_i hcall
        exact ih (hrun.step hcall.1 (hok m event hcall.2)
          ((allocStep_steady _ _ _).returns fuel hstep)) hs
      · cases hstep

end Check

/-- Memory before `allocator_init`. -/
def blankAllocator : Allocator where
  node _ := ⟨⟨0, 0⟩, .black, fun _ => none, none⟩
  root := none
  nodeMemPool _ := 0
  nodeMemPoolI := 0
  kmallocs := 0

/-- The allocator of a memory of one page. -/
def onePage : Allocator := allocatorInit (fun k => k + 1) 4096 blankAllocator

theorem holds_leaf {t : Tree Region Unit} {n : Nat} (hroot : t.root = some n) (hparent : t.parent n = none)
    (hchild : ∀ d, t.child d n = none) : Holds t (.node n .nil .nil) :=
  ⟨hroot, ⟨hparent, hchild .left, hchild .right, trivial, trivial⟩, by simp⟩

theorem onePage_holds : Holds onePage.tree (.node 2 .nil .nil) := by
  refine holds_leaf (by decide +kernel) (by decide +kernel) fun d => ?_
  cases d with
  | left => decide +kernel
  | right => decide +kernel

/-- The allocator of a memory of four pages. -/
def fourPages : Allocator := allocatorInit (fun k => k + 1) 16384 blankAllocator

/-- A call of each entry point. -/
def eachCall : List AllocEvent := [.alloc 64, .allocAlign 128 256, .allocAddr 4096 8192, .free ⟨0, 64⟩]

theorem eachCall_run :
    (eachCall.foldlM (checkedAlloc (fun k => k + 1) (stepSafeCheck (fun k => k + 1) 20) 20)
      (fourPages, [])).map (fun s => (s.2, stepSafeCheck (fun k => k + 1) 20 s.1 (.alloc 500))) =
      some ([⟨8192, 4096⟩, ⟨256, 128⟩], true) := by decide +kernel

/-- A call of each entry point on a memory of four pages, and one more. -/
theorem allocator_partitions_eachCall :
    ∃ m, Partitioned 16384 m [⟨8192, 4096⟩, ⟨256, 128⟩] ∧
      ∃ s, AllocReturns (fun k => k + 1) m [⟨8192, 4096⟩, ⟨256, 128⟩] (.alloc 500) s ∧
        Partitioned 16384 s.1 s.2 := by
  obtain ⟨⟨m, live⟩, hcalls, hfacts⟩ := Option.map_eq_some_iff.mp eachCall_run
  simp only [Prod.mk.injEq] at hfacts
  obtain ⟨rfl, hsafe⟩ := hfacts
  have hrun : AllocRun (fun k => k + 1) (StepSafe fun k => k + 1) 16384 m
      [⟨8192, 4096⟩, ⟨256, 128⟩] :=
    allocRun_of_steps (fun _ _ => stepSafe_of_check) eachCall (.init blankAllocator) hcalls
  obtain ⟨hpart, hnext⟩ := allocator_partitions (by decide) hrun
  exact ⟨m, hpart, hnext (.alloc 500) (by decide) (stepSafe_of_check hsafe)⟩

/-- A page is the whole memory, but an aligned block of two pages is handed out. -/
theorem allocator_overruns_memory :
    ∃ m, AllocRun (fun k => k + 1) (fun _ _ => True) 4096 m [⟨0, 8192⟩] ∧
      ¬Partitioned 4096 m [⟨0, 8192⟩] := by
  have hstep : (allocStep (fun k => k + 1) 5 (onePage, []) (.allocAlign 8192 16384)).map Prod.snd =
      some [⟨0, 8192⟩] := by decide +kernel
  obtain ⟨⟨m, live⟩, hret, hlive⟩ := Option.map_eq_some_iff.mp hstep
  obtain rfl : live = [⟨0, 8192⟩] := hlive
  refine ⟨m, @AllocRun.step _ _ _ _ _ (.allocAlign 8192 16384) _ (.init blankAllocator) (by decide) trivial
    ((allocStep_steady _ _ _).returns 5 hret), fun h => ?_⟩
  exact absurd (h.inside ⟨0, 8192⟩ (by simp)) (by decide)

end UntitledOs.Vmemory
