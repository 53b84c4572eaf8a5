import UntitledOs.Kernlib.Reentrancy

/-!
# The heap lock

Calls of the heap with `kmem_spinlock` honoured: a call spins for ever when it
takes the lock while it holds it.  Once map functions are installed, growing the
heap runs their requests under the lock.
-/

namespace UntitledOs.Kernlib

open UntitledOs.Lib

/-- The map functions of a heap: the unit of memory and the requests made for a range. -/
structure HeapMap where
  memUnitSize : Nat
  prog : Nat → Nat → MapProg

/-- The heap with its lock honoured, before or after `kmem_set_map_functions`. -/
def lockedEnv (map : Option HeapMap) (fuel : Nat) : KmemEnv InnerLog :=
  match map with
  | none => ⟨true, none⟩
  | some f => reentrantEnv true f.memUnitSize f.prog fuel

inductive HeapCall where
  | kmalloc (size align : Nat)
  | krealloc (ptr : Option Nat) (size align : Nat)
  | kfree (ptr : Nat)

/-- The state a call leaves behind. -/
def HeapCall.run (map : Option HeapMap) (memcpy : HeaderCopy) (fuel : Nat) (m : Kmem InnerLog) :
    HeapCall → Option (Kmem InnerLog)
  | .kmalloc size align => (kmallocAlign (lockedEnv map fuel) fuel m size align).map Prod.fst
  | .krealloc ptr size align =>
      (kreallocAlign (lockedEnv map fuel) memcpy fuel m ptr size align).map Prod.fst
  | .kfree ptr => Kernlib.kfree (lockedEnv map fuel) m ptr

/-- The call returns, with the lock clear. -/
def Disciplined (map : Option HeapMap) (memcpy : HeaderCopy) (m : Kmem InnerLog) (call : HeapCall) :
    Prop :=
  ∃ m', Returns (fun fuel => call.run map memcpy fuel m) m' ∧ m'.kmemSpinlock = false

/-- Raising `occupied_to` to `top` makes no request of its own. -/
def GrowsQuietly (map : Option HeapMap) (m : Kmem InnerLog) (top : Nat) : Prop :=
  ∀ f, map = some f → m.occupiedTo < top →
    f.memUnitSize < sub64 top (m.occupiedTo - m.occupiedTo % f.memUnitSize) →
    f.prog (u64 (m.occupiedTo - m.occupiedTo % f.memUnitSize + f.memUnitSize))
      (sub64 top (m.occupiedTo - m.occupiedTo % f.memUnitSize)) = .done

/-- No gap of the list takes the block, and the heap grows quietly behind the last node. -/
def ServedAtEnd (map : Option HeapMap) (m : Kmem InnerLog) (size align : Nat) : Prop :=
  ∃ it, Returns (fun fuel => gapSearch m size align fuel kmemHeapBase) (.tail it) ∧
    GrowsQuietly map m (u64 (gapBegin m it align + kmemNodeSize + size))

/-- The calls that keep to the lock. -/
def LockSafe (map : Option HeapMap) (m : Kmem InnerLog) : HeapCall → Prop
  | .kmalloc size align => ServedAtEnd map m size align
  | .krealloc none size align => ServedAtEnd map m size align
  | .krealloc (some _) _ _ => False
  | .kfree _ => True

variable {map : Option HeapMap} {memcpy : HeaderCopy} {m : Kmem InnerLog} {size align : Nat}

@[simp] theorem lockedEnv_spin (map : Option HeapMap) (fuel : Nat) :
    (lockedEnv map fuel).spin = true := by
  cases map with
  | none => rfl
  | some f => exact reentrantEnv_spin true fuel

/-- The state inside a call that has taken the lock. -/
def locked (m : Kmem InnerLog) : Kmem InnerLog := { m with kmemSpinlock := true }

theorem spinlockLock_clear {env : KmemEnv InnerLog} (hspin : env.spin = true)
    (hclear : m.kmemSpinlock = false) : spinlockLock env m = some (locked m) := by
  simp [spinlockLock, hspin, hclear, locked]

theorem spinlockLock_held {env : KmemEnv InnerLog} (hspin : env.spin = true) :
    spinlockLock env (locked m) = none := by
  simp [spinlockLock, hspin, locked]

theorem gapSearch_locked (fuel it : Nat) :
    gapSearch (locked m) size align fuel it = gapSearch m size align fuel it := by
  induction fuel generalizing it with
  | zero => rfl
  | succ fuel ih =>
      simp only [gapSearch, ih]
      rfl

theorem gapSearch_ends {before : Option Nat} {it : Nat} {rest : List Nat} {fuel : Nat}
    (h : Segment m.next m.prev before (it :: rest) none) (hfuel : rest.length < fuel) :
    ∃ r, gapSearch m size align fuel it = some r := by
  induction fuel generalizing before it rest with
  | zero => omega
  | succ fuel ih =>
      cases rest with
      | nil =>
          have hnext : m.next it = none := h.2.1
          exact ⟨.tail it, by simp [gapSearch, hnext]⟩
      | cons a rest =>
          have hnext : m.next it = some a := h.2.1
          simp only [gapSearch, hnext]
          split
          · exact ⟨_, rfl⟩
          · exact ih h.2.2 (by simpa using hfuel)

theorem HeapList.gapSearch_returns {cells : List Nat} (h : HeapList m cells) (size align : Nat) :
    ∃ r, Returns (fun fuel => gapSearch m size align fuel kmemHeapBase) r := by
  have hcons := h.eq_cons
  have hlinked := h.linked
  rw [hcons] at hlinked
  obtain ⟨r, hr⟩ := @gapSearch_ends _ size align _ _ _ _ hlinked
    (Nat.lt_succ_self cells.tail.length)
  exact ⟨r, _, fun fuel hfuel => gapSearch_mono hfuel hr⟩

section Kmalloc

theorem kmallocAlign_gap_locked (hclear : m.kmemSpinlock = false) {it b a fuel : Nat}
    (hgap : gapSearch m size align fuel kmemHeapBase = some (.gap it b a)) :
    kmallocAlign (lockedEnv map fuel) fuel m size align =
      some (linkGap (locked m) it b a size, u64 (b + kmemNodeSize)) := by
  unfold kmallocAlign
  rw [spinlockLock_clear (lockedEnv_spin map fuel) hclear]
  simp only [Option.bind_eq_bind, Option.bind_some, gapSearch_locked, hgap]

theorem kmallocAlign_tail_locked (hclear : m.kmemSpinlock = false) {it fuel : Nat}
    (htail : gapSearch m size align fuel kmemHeapBase = some (.tail it)) :
    kmallocAlign (lockedEnv map fuel) fuel m size align =
      (growHeap (lockedEnv map fuel) (locked m)
        (u64 (gapBegin m it align + kmemNodeSize + size))).map fun grown =>
        ({ linkTail grown it (gapBegin m it align) size with kmemSpinlock := false },
          u64 (gapBegin m it align + kmemNodeSize)) := by
  have hbegin : gapBegin (locked m) it align = gapBegin m it align := rfl
  unfold kmallocAlign
  rw [spinlockLock_clear (lockedEnv_spin map fuel) hclear]
  simp only [Option.bind_eq_bind, Option.bind_some, gapSearch_locked, htail, hbegin]
  cases growHeap (lockedEnv map fuel) (locked m)
      (u64 (gapBegin m it align + kmemNodeSize + size)) with
  | none => rfl
  | some grown => simp [spinlockUnlock]

theorem kmallocAlign_held (env : KmemEnv InnerLog) (hspin : env.spin = true) (fuel : Nat) :
    kmallocAlign env fuel (locked m) size align = none := by
  unfold kmallocAlign
  rw [spinlockLock_held hspin]
  rfl

theorem growHeap_quiet {top : Nat} (h : GrowsQuietly map m top) :
    ∃ grown, ∀ fuel, growHeap (lockedEnv map (fuel + 1)) (locked m) top = some grown := by
  by_cases htop : top > (locked m).occupiedTo
  · simp only [growHeap, if_pos htop]
    cases map with
    | none => exact ⟨_, fun _ => rfl⟩
    | some f =>
        simp only [lockedEnv, reentrantEnv]
        by_cases hunit : sub64 top ((locked m).occupiedTo -
            (locked m).occupiedTo % f.memUnitSize) > f.memUnitSize
        · have hdone : f.prog (u64 ((locked m).occupiedTo - (locked m).occupiedTo % f.memUnitSize +
              f.memUnitSize)) (sub64 top ((locked m).occupiedTo -
              (locked m).occupiedTo % f.memUnitSize)) = .done := h f rfl htop hunit
          simp only [if_pos hunit, hdone]
          exact ⟨_, fun _ => rfl⟩
        · simp only [if_neg hunit]
          exact ⟨_, fun _ => rfl⟩
  · simp only [growHeap, if_neg htop]
    exact ⟨_, fun _ => rfl⟩

theorem growHeap_loud {top : Nat} (h : ¬ GrowsQuietly map m top) (fuel : Nat) :
    growHeap (lockedEnv map fuel) (locked m) top = none := by
  simp only [GrowsQuietly, not_forall] at h
  obtain ⟨f, rfl, htop, hunit, hprog⟩ := h
  have htop : top > (locked m).occupiedTo := htop
  have hunit : sub64 top ((locked m).occupiedTo - (locked m).occupiedTo % f.memUnitSize) >
      f.memUnitSize := hunit
  simp only [growHeap, if_pos htop]
  cases fuel with
  | zero =>
      simp only [lockedEnv, reentrantEnv, if_pos hunit]
      rfl
  | succ fuel =>
      have hprog : f.prog (u64 ((locked m).occupiedTo - (locked m).occupiedTo % f.memUnitSize +
          f.memUnitSize)) (sub64 top ((locked m).occupiedTo -
          (locked m).occupiedTo % f.memUnitSize)) ≠ .done := hprog
      simp only [lockedEnv, reentrantEnv, if_pos hunit]
      generalize f.prog (u64 ((locked m).occupiedTo - (locked m).occupiedTo % f.memUnitSize +
        f.memUnitSize)) (sub64 top ((locked m).occupiedTo -
        (locked m).occupiedTo % f.memUnitSize)) = req at hprog
      cases req with
      | done => exact absurd rfl hprog
      | kmallocAlign s a k =>
          rw [MapProg.run, kmallocAlign_held _ (reentrantEnv_spin true fuel)]
          rfl

/-- `kmalloc_align` keeps to the lock when it serves the request behind the last node. -/
theorem kmalloc_disciplined_iff {cells : List Nat} (h : HeapList m cells)
    (hclear : m.kmemSpinlock = false) (size align : Nat) :
    Disciplined map memcpy m (.kmalloc size align) ↔ ServedAtEnd map m size align := by
  obtain ⟨r, n, hr⟩ := h.gapSearch_returns size align
  constructor
  · rintro ⟨m', ⟨k, hk⟩, hfree⟩
    have hrun := hk (max n k) (Nat.le_max_right n k)
    have hsearch := hr (max n k) (Nat.le_max_left n k)
    simp only [HeapCall.run] at hrun
    cases r with
    | gap it b a =>
        rw [kmallocAlign_gap_locked hclear hsearch, Option.map_some] at hrun
        obtain rfl := Option.some.inj hrun
        exact absurd hfree (by simp [linkGap, Kmem.setNode, Kmem.setNext, Kmem.setPrev, locked])
    | tail it =>
        refine ⟨it, ⟨n, hr⟩, ?_⟩
        by_contra hloud
        rw [kmallocAlign_tail_locked hclear hsearch, growHeap_loud hloud] at hrun
        cases hrun
  · rintro ⟨it, htail, hquiet⟩
    obtain ⟨k, hk⟩ := htail
    obtain ⟨grown, hgrow⟩ := growHeap_quiet hquiet
    refine ⟨{ linkTail grown it (gapBegin m it align) size with kmemSpinlock := false },
      ⟨k + 1, fun fuel hfuel => ?_⟩, rfl⟩
    obtain ⟨fuel, rfl⟩ : ∃ j, fuel = j + 1 := ⟨fuel - 1, by omega⟩
    simp only [HeapCall.run]
    rw [kmallocAlign_tail_locked hclear (hk (fuel + 1) (by omega)), hgrow fuel]
    rfl

end Kmalloc

/-- `krealloc_align` of a block returns with the lock taken, or takes it again. -/
theorem krealloc_not_disciplined (hclear : m.kmemSpinlock = false) (ptr size align : Nat) :
    ¬ Disciplined map memcpy m (.krealloc (some ptr) size align) := by
  rintro ⟨m', ⟨n, hn⟩, hfree⟩
  have hrun := hn n le_rfl
  simp only [HeapCall.run, kreallocAlign] at hrun
  rw [spinlockLock_clear (lockedEnv_spin map n) hclear] at hrun
  simp only [Option.bind_eq_bind, Option.bind_some,
    kmallocAlign_held _ (lockedEnv_spin map n), Option.bind_none] at hrun
  split at hrun
  · split at hrun
    · obtain rfl := Option.some.inj hrun
      exact absurd hfree (by simp [Kmem.setSz, Kmem.setNode, locked])
    · cases hrun
  · cases hrun

theorem kfree_disciplined (hclear : m.kmemSpinlock = false) (ptr : Nat) :
    Disciplined map memcpy m (.kfree ptr) := by
  have hrun : ∀ fuel, ∃ m', HeapCall.run map memcpy fuel m (.kfree ptr) = some m' ∧
      m'.kmemSpinlock = false ∧ ∀ k, HeapCall.run map memcpy k m (.kfree ptr) = some m' := by
    intro fuel
    have hkfree : ∀ k, HeapCall.run map memcpy k m (.kfree ptr) =
        (Kernlib.kfree ⟨false, none⟩ (locked m) ptr).map fun m' =>
          { m' with kmemSpinlock := false } := by
      intro k
      simp only [HeapCall.run, Kernlib.kfree]
      rw [spinlockLock_clear (lockedEnv_spin map k) hclear]
      simp [spinlockUnlock]
    obtain ⟨m', hm'⟩ : ∃ m', Kernlib.kfree (⟨false, none⟩ : KmemEnv InnerLog) (locked m) ptr =
        some m' := ⟨_, rfl⟩
    refine ⟨{ m' with kmemSpinlock := false }, ?_, rfl, fun k => ?_⟩
    · rw [hkfree, hm']
      rfl
    · rw [hkfree, hm']
      rfl
  obtain ⟨m', -, hfree, hall⟩ := hrun 0
  exact ⟨m', ⟨0, fun fuel _ => hall fuel⟩, hfree⟩

/-- A call on a heap with the lock clear keeps to the lock exactly when it frees, or allocates
behind the last node without a request of the map function. -/
theorem heap_lock_disciplined_iff (map : Option HeapMap) (memcpy : HeaderCopy)
    (m : Kmem InnerLog) (cells : List Nat) (h : HeapList m cells) (hclear : m.kmemSpinlock = false) (call : HeapCall) :
    Disciplined map memcpy m call ↔ LockSafe map m call := by
  cases call with
  | kmalloc size align => exact kmalloc_disciplined_iff h hclear size align
  | krealloc ptr size align =>
      cases ptr with
      | none => exact @kmalloc_disciplined_iff map memcpy m cells h hclear size align
      | some ptr => exact iff_of_false (krealloc_not_disciplined hclear ptr size align) not_false
  | kfree ptr => exact iff_of_true (kfree_disciplined hclear ptr) trivial

theorem freedAhead_servedAtEnd (size : Nat)
    (hsearch : gapSearch freedAhead size 1 2 kmemHeapBase = some (.tail 0x200100)) :
    ServedAtEnd (some ⟨4096, allocNodeProg⟩) freedAhead size 1 ↔
      GrowsQuietly (some ⟨4096, allocNodeProg⟩) freedAhead
        (u64 (gapBegin freedAhead 0x200100 1 + kmemNodeSize + size)) := by
  have htail : Returns (fun fuel => gapSearch freedAhead size 1 fuel kmemHeapBase)
      (.tail 0x200100) := ⟨2, fun fuel hfuel => gapSearch_mono hfuel hsearch⟩
  refine ⟨?_, fun hquiet => ⟨_, htail, hquiet⟩⟩
  rintro ⟨it, hret, hquiet⟩
  cases htail.unique hret
  exact hquiet

/--
A heap with one block and a map function that takes a tree node: a block behind the last one
keeps to the lock, one in the gap ahead does not, and neither does one beyond the mapped page.
-/
theorem heap_lock_disciplined_freedAhead :
    Disciplined (some ⟨4096, allocNodeProg⟩) (fun _ _ _ node => node) freedAhead
      (.kmalloc 600 1) ∧
    ¬ Disciplined (some ⟨4096, allocNodeProg⟩) (fun _ _ _ node => node) freedAhead
      (.kmalloc 40 1) ∧
    ¬ Disciplined (some ⟨4096, allocNodeProg⟩) (fun _ _ _ node => node) freedAhead
      (.kmalloc 8192 1) ∧
    Disciplined (some ⟨4096, allocNodeProg⟩) (fun _ _ _ node => node) freedAhead
      (.kfree 0x200118) := by
  have hiff := heap_lock_disciplined_iff (some ⟨4096, allocNodeProg⟩) (fun _ _ _ node => node)
    freedAhead _ freedAhead_heapList rfl
  rw [hiff, hiff, hiff, hiff]
  refine ⟨?_, ?_, ?_, trivial⟩
  · refine (freedAhead_servedAtEnd 600 (by decide +kernel)).mpr ?_
    rintro f hf - hgrown
    cases hf
    exact absurd hgrown (by decide +kernel)
  · rintro ⟨it, hret, -⟩
    cases freedAhead_findsGap.unique hret
  · rw [LockSafe, freedAhead_servedAtEnd 8192 (by decide +kernel)]
    intro hquiet
    cases hquiet _ rfl (by decide +kernel) (by decide +kernel)

/-- The pointers of a call are payloads of the list. -/
def HeapCall.Live (cells : List Nat) : HeapCall → Prop
  | .krealloc (some ptr) _ _ => ∃ a ∈ cells.tail, ptr = a + kmemNodeSize
  | .kfree ptr => ∃ a ∈ cells.tail, ptr = a + kmemNodeSize
  | _ => True

/-- Resizing the only block of a heap never gives the lock back. -/
theorem heap_lock_kept :
    ¬ ∀ (map : Option HeapMap) (memcpy : HeaderCopy) (m : Kmem InnerLog) (cells : List Nat),
      HeapList m cells →
      m.kmemSpinlock = false → ∀ call : HeapCall, call.Live cells → Disciplined map memcpy m call := by
  intro hall
  have hinit : HeapList (kmemInit ([] : InnerLog)) ([] ++ [kmemHeapBase]) := (holdsLive_init []).1
  have hlist := (hinit.link_tail 8 (kmemHeapBase + 56) (b := kmemHeapBase + 24) (le_refl _)
    (le_refl _) (by decide)).2
  exact krealloc_not_disciplined rfl _ 8 1
    (hall none (fun _ _ _ node => node) _ _ hlist rfl (.krealloc (some (kmemHeapBase + 48)) 8 1)
      ⟨kmemHeapBase + 24, by simp, rfl⟩)

end UntitledOs.Kernlib
