import UntitledOs.Kernlib.BootHeap

/-!
# Growing the heap from inside the heap

After `kmem_set_map_functions` the tail path of `kmalloc_align` calls
`map_alloc`, which allocates page tables (`make_entry`) and tree nodes
(`alloc_node`) from the heap that is being grown.  A map function is modelled
by the requests it makes: a tree of `kmalloc_align` calls that may depend on
the addresses it gets back.
-/

namespace UntitledOs.Kernlib

open UntitledOs.Lib

/-- The requests a map function makes while it maps one range. -/
inductive MapProg where
  | done
  | kmallocAlign (size align : Nat) (k : Nat → MapProg)

/-- The log of inner blocks: payload address and size. -/
abbrev InnerLog := List (Nat × Nat)

namespace MapProg

/-- Runs the requests with `alloc`, logging the blocks they are given. -/
def run (alloc : Kmem InnerLog → Nat → Nat → Option (Kmem InnerLog × Nat)) :
    MapProg → Kmem InnerLog → Option (Kmem InnerLog)
  | .done, m => some m
  | .kmallocAlign size align k, m => do
      let (m, p) ← alloc m size align
      (k p).run alloc { m with ext := m.ext ++ [(p, size)] }

end MapProg

/--
The heap with the map function `prog` installed, to a nesting depth of `fuel`
calls.
-/
def reentrantEnv (spin : Bool) (memUnitSize : Nat) (prog : Nat → Nat → MapProg) :
    Nat → KmemEnv InnerLog
  | 0 => ⟨spin, some ⟨fun _ _ _ => none, memUnitSize⟩⟩
  | fuel + 1 =>
      ⟨spin, some ⟨fun addr len =>
        (prog addr len).run
          (kmallocAlign (reentrantEnv spin memUnitSize prog fuel) fuel),
        memUnitSize⟩⟩

/-- `kmalloc_align` with the map function `prog` installed. -/
def kmallocReentrant (spin : Bool) (memUnitSize : Nat)
    (prog : Nat → Nat → MapProg) (fuel : Nat) :
    Kmem InnerLog → Nat → Nat → Option (Kmem InnerLog × Nat) :=
  kmallocAlign (reentrantEnv spin memUnitSize prog fuel) fuel

/-- The state after a request that the walk serves from a gap. -/
def linkInner (m : Kmem InnerLog) (it b a size : Nat) : Kmem InnerLog :=
  { linkGap m it b a size with ext := m.ext ++ [(b + kmemNodeSize, size)] }

/-- The walk from `kmem_head` ends in the gap between `it` and `a`. -/
def FindsGap (m : Kmem InnerLog) (size align it b a : Nat) : Prop :=
  Returns (fun fuel => gapSearch m size align fuel kmemHeapBase) (.gap it b a)

/-- Every request is served from a gap of the list as it is by then. -/
def ServedInGaps : Kmem InnerLog → MapProg → Prop
  | _, .done => True
  | m, .kmallocAlign size align k =>
      ∃ it b a, FindsGap m size align it b a ∧
        ServedInGaps (linkInner m it b a size) (k (b + kmemNodeSize))

/-- No address wraps up to the first request that finds no gap. -/
def NoWrapUntilTail : Kmem InnerLog → MapProg → Prop
  | _, .done => True
  | m, .kmallocAlign size align k =>
      1 ≤ align ∧ NoWrap m size align ∧
        ∀ it b a, FindsGap m size align it b a →
          NoWrapUntilTail (linkInner m it b a size) (k (b + kmemNodeSize))

/-- Two blocks, given by payload address and size, with their headers. -/
def BlocksDisjoint (x y : Nat × Nat) : Prop :=
  x.1 + x.2 + kmemNodeSize ≤ y.1 ∨ y.1 + y.2 + kmemNodeSize ≤ x.1

/--
What a call that grew the heap owes its caller: the new block and the blocks
the map function took are in the heap list behind the older ones, and no two
blocks overlap.
-/
def GrowthSafe (m m' : Kmem InnerLog) (cells : List Nat)
    (outer : Nat × Nat) : Prop :=
  ∃ cells', HeapList m' cells' ∧ cells ⊆ cells' ∧
    (∀ x ∈ cells, m'.sz x = m.sz x) ∧
    (∀ blk ∈ outer :: m'.ext, blk.1 - kmemNodeSize ∈ cells' ∧
      m'.sz (blk.1 - kmemNodeSize) = blk.2) ∧
    (outer :: m'.ext ++ payloads m cells).Pairwise BlocksDisjoint

/-! ## Inner requests that stay in gaps -/

theorem HeapList.findsGap {m : Kmem InnerLog} {cells : List Nat}
    {size align it b a : Nat} (h : HeapList m cells) (hal : 1 ≤ align)
    (hwrap : NoWrap m size align) :
    FindsGap m size align it b a ↔
      firstGap m size align kmemHeapBase cells.tail = .gap it b a := by
  have hplace := hwrap cells h.head h.linked
  have hret : Returns (fun fuel => gapSearch m size align fuel kmemHeapBase)
      (firstGap m size align kmemHeapBase cells.tail) :=
    ⟨cells.length, h.gapSearch_eq hal hplace⟩
  constructor
  · intro hfind
    exact hret.unique hfind
  · intro hgap
    rw [hgap] at hret
    exact hret

theorem HeapList.setExt {m : Kmem InnerLog} {cells : List Nat}
    (h : HeapList m cells) (log : InnerLog) :
    HeapList { m with ext := log } cells :=
  ⟨h.head, h.head_sz, h.linked, h.apart, h.below, h.limit⟩

/-- The payload of the block at `x` and its recorded size. -/
def payload (m : Kmem InnerLog) (x : Nat) : Nat × Nat :=
  (x + kmemNodeSize, m.sz x)

/-- Requests that were all served from gaps, with the blocks `inner`. -/
structure GapServed (m m' : Kmem InnerLog) (cells cells' inner : List Nat) :
    Prop where
  heapList : HeapList m' cells'
  last : cells'.getLast? = cells.getLast?
  sublist : cells.Sublist cells'
  sz_old : ∀ x ∈ cells, m'.sz x = m.sz x
  occupiedTo : m'.occupiedTo = m.occupiedTo
  ext : m'.ext = m.ext ++ inner.map (payload m')
  inner_subset : inner ⊆ cells'
  inner_new : ∀ x ∈ inner, x ∉ cells
  inner_nodup : inner.Nodup

theorem GapServed.refl {m : Kmem InnerLog} {cells : List Nat}
    (h : HeapList m cells) : GapServed m m cells cells [] :=
  ⟨h, rfl, List.Sublist.refl _, fun _ _ => rfl, rfl, by simp, by simp, by simp,
    by simp⟩

/-- One more request in a gap, put before the requests that follow it. -/
theorem GapServed.cons {m m₂ : Kmem InnerLog}
    {left right cells₂ inner : List Nat} {it b a size align : Nat}
    (halloc : Allocated m (linkGap m it b a size) left it b (a :: right) size align)
    (hrest : GapServed (linkInner m it b a size) m₂
      (left ++ it :: b :: a :: right) cells₂ inner) :
    GapServed m m₂ (left ++ it :: a :: right) cells₂ (b :: inner) := by
  have hin := halloc.linkedIn
  have hsub : (left ++ it :: a :: right).Sublist (left ++ it :: b :: a :: right) :=
    List.Sublist.append_left (List.Sublist.cons_cons _ (List.sublist_cons_self _ _)) _
  have hb : b ∉ left ++ it :: a :: right := by
    have := halloc.heapList.nodup
    rw [show left ++ it :: b :: a :: right = (left ++ [it]) ++ b :: (a :: right) by simp,
      List.nodup_middle] at this
    simpa using (List.nodup_cons.mp this).1
  have hbsz : m₂.sz b = size := by
    rw [hrest.sz_old b (by simp)]
    exact hin.sz_new
  refine ⟨hrest.heapList, ?_, hsub.trans hrest.sublist, ?_, hrest.occupiedTo, ?_,
    ?_, ?_, ?_⟩
  · rw [hrest.last]
    simp [List.getLast?_append]
  · intro x hx
    rw [hrest.sz_old x (hsub.subset hx)]
    exact hin.sz_old x hx
  · rw [hrest.ext]
    simp [linkInner, payload, hbsz]
  · intro x hx
    rcases List.mem_cons.mp hx with rfl | hx
    · exact hrest.sublist.subset (by simp)
    · exact hrest.inner_subset hx
  · intro x hx
    rcases List.mem_cons.mp hx with rfl | hx
    · exact hb
    · exact fun hxm => hrest.inner_new x hx (hsub.subset hxm)
  · rw [List.nodup_cons]
    exact ⟨fun hbm => hrest.inner_new b hbm (by simp), hrest.inner_nodup⟩

variable {memUnitSize : Nat} {prog : Nat → Nat → MapProg}

@[simp] theorem reentrantEnv_spin (spin : Bool) (fuel : Nat) :
    (reentrantEnv spin memUnitSize prog fuel).spin = spin := by
  cases fuel <;> rfl

theorem run_served (memUnitSize : Nat) (prog : Nat → Nat → MapProg) {p : MapProg} {m : Kmem InnerLog} {cells : List Nat}
    (h : HeapList m cells) (hwrap : NoWrapUntilTail m p)
    (hserved : ServedInGaps m p) :
    ∃ m' cells' inner, GapServed m m' cells cells' inner ∧
      Returns
        (fun fuel => p.run (kmallocReentrant false memUnitSize prog fuel) m) m' := by
  induction p generalizing m cells with
  | done => exact ⟨m, cells, [], .refl h, 0, fun _ _ => rfl⟩
  | kmallocAlign size align k ih =>
      obtain ⟨hal, hnowrap, hwrap⟩ := hwrap
      obtain ⟨it, b, a, hfind, hserved⟩ := hserved
      have hgap := (h.findsGap hal hnowrap).mp hfind
      obtain ⟨left, right, rfl, halloc, -⟩ := kmallocAlign_gap
        bootEnv rfl h hal (hnowrap _ h.head h.linked) hgap
      obtain ⟨m', cells', inner, hrest, n, hrun⟩ := ih (b + kmemNodeSize)
        (halloc.heapList.setExt _) (hwrap it b a hfind) hserved
      refine ⟨m', cells', _, .cons halloc hrest,
        max n (left ++ it :: a :: right).length, fun fuel hfuel => ?_⟩
      obtain ⟨_, _, _, _, hcall⟩ := kmallocAlign_gap
        (reentrantEnv false memUnitSize prog fuel)
        (reentrantEnv_spin false fuel) h hal (hnowrap _ h.head h.linked) hgap
      simp only [MapProg.run, kmallocReentrant, hcall fuel (by omega),
        Option.bind_eq_bind, Option.bind_some]
      exact hrun fuel (by omega)

/-! ## The log only grows -/

theorem run_log {alloc : Kmem InnerLog → Nat → Nat → Option (Kmem InnerLog × Nat)}
    (halloc : ∀ m size align m' p, alloc m size align = some (m', p) →
      m.ext <+: m'.ext)
    {p : MapProg} {m m' : Kmem InnerLog} (h : p.run alloc m = some m') :
    m.ext <+: m'.ext := by
  induction p generalizing m with
  | done =>
      cases h
      exact List.prefix_rfl
  | kmallocAlign size align k ih =>
      simp only [MapProg.run, Option.bind_eq_bind, Option.bind_eq_some_iff] at h
      obtain ⟨⟨m₁, q⟩, hcall, hrest⟩ := h
      have hlog := ih q hrest
      exact ((halloc _ _ _ _ _ hcall).trans (List.prefix_append _ _)).trans hlog

theorem kmallocAlign_ext {env : KmemEnv InnerLog} (hspin : env.spin = false)
    (hmap : ∀ map, env.mapFunctions = some map → ∀ addr len m m',
      map.vmemoryMapAlloc addr len m = some m' → m.ext <+: m'.ext)
    {fuel : Nat} {m m' : Kmem InnerLog} {size align p : Nat}
    (h : kmallocAlign env fuel m size align = some (m', p)) :
    m.ext <+: m'.ext := by
  simp only [kmallocAlign, spinlockLock_ignored hspin,
    spinlockUnlock_ignored hspin, Option.bind_eq_bind, Option.bind_some,
    Option.bind_eq_some_iff] at h
  obtain ⟨outcome, -, h⟩ := h
  cases outcome with
  | gap it b a =>
      simp only [Option.some.injEq, Prod.mk.injEq] at h
      rw [← h.1]
      exact List.prefix_rfl
  | tail it =>
      simp only [Option.bind_eq_some_iff, Option.some.injEq, Prod.mk.injEq] at h
      obtain ⟨grown, hgrow, h, -⟩ := h
      rw [← h]
      change m.ext <+: grown.ext
      unfold growHeap at hgrow
      split at hgrow
      · cases hfun : env.mapFunctions with
        | none =>
            rw [hfun] at hgrow
            cases hgrow
            exact List.prefix_rfl
        | some map =>
            rw [hfun] at hgrow
            obtain ⟨m₁, hcall, rfl⟩ := Option.map_eq_some_iff.mp hgrow
            change m.ext <+: m₁.ext
            split at hcall
            · exact hmap map hfun _ _ _ _ hcall
            · cases hcall
              exact List.prefix_rfl
      · cases hgrow
        exact List.prefix_rfl

theorem kmallocReentrant_ext {fuel : Nat} {m m' : Kmem InnerLog}
    {size align p : Nat}
    (h : kmallocReentrant false memUnitSize prog fuel m size align = some (m', p)) :
    m.ext <+: m'.ext := by
  induction fuel generalizing m m' size align p with
  | zero =>
      refine kmallocAlign_ext (reentrantEnv_spin false 0) ?_ h
      rintro map hmap addr len m m' hcall
      cases hmap
      simp at hcall
  | succ fuel ih =>
      refine kmallocAlign_ext (reentrantEnv_spin false (fuel + 1)) ?_ h
      rintro map hmap addr len m m' hcall
      cases hmap
      exact run_log (fun _ _ _ _ _ hc => ih hc) hcall

/-! ## A request that goes to the tail -/

theorem FoundPlace.tail_eq {m : Kmem InnerLog} {size align it : Nat}
    {cells : List Nat} (h : FoundPlace m size align cells (.tail it)) :
    ∃ left, cells = left ++ [it] := by
  cases h with
  | tail left _ hcells _ => exact ⟨left, hcells⟩

/--
Either all requests of the map function fit into gaps, or one of the blocks it
takes lies behind the last node.
-/
theorem run_served_or_tail {fuel : Nat} {p : MapProg} {m m' : Kmem InnerLog}
    {left : List Nat} {it : Nat} (h : HeapList m (left ++ [it]))
    (hwrap : NoWrapUntilTail m p)
    (hrun : p.run (kmallocReentrant false memUnitSize prog fuel) m = some m') :
    ServedInGaps m p ∨ ∃ b size, (b + kmemNodeSize, size) ∈ m'.ext ∧ it < b := by
  induction p generalizing m left with
  | done => exact .inl trivial
  | kmallocAlign size align k ih =>
      obtain ⟨hal, hnowrap, hrest⟩ := hwrap
      have hplace := hnowrap _ h.head h.linked
      simp only [MapProg.run, Option.bind_eq_bind, Option.bind_eq_some_iff] at hrun
      obtain ⟨⟨m₁, q⟩, hcall, hrun⟩ := hrun
      have hcall' := hcall
      simp only [kmallocReentrant, kmallocAlign,
        spinlockLock_ignored (reentrantEnv_spin false fuel), Option.bind_eq_bind,
        Option.bind_some, Option.bind_eq_some_iff] at hcall'
      obtain ⟨outcome, hsearch, hcall'⟩ := hcall'
      have houtcome : outcome =
          firstGap m size align kmemHeapBase (left ++ [it]).tail := by
        have hbig := h.gapSearch_eq hal hplace
          (max fuel (left ++ [it]).length) (by omega)
        rw [gapSearch_mono (Nat.le_max_left _ _) hsearch] at hbig
        exact Option.some.inj hbig
      cases outcome with
      | gap it' b a =>
          obtain ⟨left', right', hcells, halloc, -⟩ := kmallocAlign_gap
            bootEnv rfl h hal hplace houtcome.symm
          have hpay : u64 (b + kmemNodeSize) = b + kmemNodeSize := by
            have := halloc.place
            rw [← hcells] at this
            exact u64_of_lt (by omega)
          simp only [Option.some.injEq, Prod.mk.injEq, hpay] at hcall'
          obtain ⟨rfl, rfl⟩ := hcall'
          have hfind := (h.findsGap hal hnowrap).mpr houtcome.symm
          have hlist := (halloc.heapList.setExt (m.ext ++ [(b + kmemNodeSize, size)]))
          obtain ⟨left'', hleft⟩ : ∃ left'', left' ++ it' :: b :: a :: right' =
              left'' ++ [it] := by
            have hlast : (left' ++ it' :: b :: a :: right').getLast? = some it := by
              have := congrArg List.getLast? hcells
              simpa [List.getLast?_append] using this.symm
            exact List.getLast?_eq_some_iff.mp hlast
          rw [hleft] at hlist
          rcases ih (b + kmemNodeSize) hlist (hrest it' b a hfind) hrun with
            hserved | htail
          · exact .inl ⟨it', b, a, hfind, hserved⟩
          · exact .inr htail
      | tail it' =>
          right
          have hfound := h.firstGap_found size align
          rw [← houtcome] at hfound
          obtain ⟨left', hcells⟩ := hfound.tail_eq
          obtain rfl : it = it' := by
            simpa using congrArg List.getLast? hcells
          have hbegin : gapBegin m it align = alignedFrom (blockEnd m it) align ∧
              alignedFrom (blockEnd m it) align + kmemNodeSize < 2 ^ 64 := by
            cases hfound with
            | tail _ _ _ hpl =>
                rw [hpl] at hplace
                exact ⟨gapBegin_eq (by omega), by omega⟩
          simp only [Option.bind_eq_some_iff, Option.some.injEq,
            Prod.mk.injEq] at hcall'
          obtain ⟨_, -, -, rfl⟩ := hcall'
          have hlog := run_log (fun _ _ _ _ _ hc => kmallocReentrant_ext hc) hrun
          refine ⟨alignedFrom (blockEnd m it) align, size, hlog.subset ?_, ?_⟩
          · rw [hbegin.1, u64_of_lt hbegin.2]
            simp
          · have := le_alignedFrom (blockEnd m it) align
            unfold blockEnd kmemNodeSize at *
            omega

/-! ## The outer call -/

/-- End of the block a request puts behind `it`. -/
def heapTop (m : Kmem InnerLog) (it size align : Nat) : Nat :=
  alignedFrom (blockEnd m it) align + kmemNodeSize + size

/-- `occupied_to_aligned` -/
def occupiedToAligned (m : Kmem InnerLog) (memUnitSize : Nat) : Nat :=
  m.occupiedTo - m.occupiedTo % memUnitSize

/-- No gap fits and the block behind `it` ends beyond the mapped page. -/
structure MustExtend (memUnitSize : Nat) (m : Kmem InnerLog)
    (cells : List Nat) (it size align : Nat) : Prop where
  tail : firstGap m size align kmemHeapBase cells.tail = .tail it
  above : m.occupiedTo < heapTop m it size align
  beyond : memUnitSize <
    heapTop m it size align - occupiedToAligned m memUnitSize

/-- What the map function is asked to map, run as `prog` says. -/
def mapRequests (memUnitSize : Nat) (prog : Nat → Nat → MapProg)
    (m : Kmem InnerLog) (it size align : Nat) : MapProg :=
  prog (u64 (occupiedToAligned m memUnitSize + memUnitSize))
    (heapTop m it size align - occupiedToAligned m memUnitSize)

theorem growHeap_reentrant (prog : Nat → Nat → MapProg) (spin : Bool)
    (fuel : Nat) (m₀ : Kmem InnerLog) {m : Kmem InnerLog} {cells : List Nat}
    {it size align : Nat}
    (hmust : MustExtend memUnitSize m cells it size align)
    (hocc : m₀.occupiedTo = m.occupiedTo)
    (hlt : heapTop m it size align < 2 ^ 64) :
    growHeap (reentrantEnv spin memUnitSize prog (fuel + 1)) m₀
        (heapTop m it size align) =
      ((mapRequests memUnitSize prog m it size align).run
        (kmallocReentrant spin memUnitSize prog fuel) m₀).map fun grown =>
          { grown with
            occupiedTo := u64 (heapTop m it size align +
              (memUnitSize - heapTop m it size align % memUnitSize)) } := by
  have habove : heapTop m it size align > m.occupiedTo := hmust.above
  have hsub : sub64 (heapTop m it size align) (occupiedToAligned m memUnitSize) =
      heapTop m it size align - occupiedToAligned m memUnitSize := by
    refine sub64_of_le ?_ hlt
    have := hmust.above
    unfold occupiedToAligned
    omega
  have hbeyond := hmust.beyond
  simp only [growHeap, reentrantEnv, hocc, if_pos habove]
  rw [← occupiedToAligned, hsub, if_pos hbeyond]
  rfl

/-- With the lock honoured the first inner request spins for ever. -/
theorem kmallocReentrant_deadlock {m : Kmem InnerLog} {cells : List Nat}
    {it size align s a : Nat} {k : Nat → MapProg} (h : HeapList m cells)
    (hal : 1 ≤ align) (hwrap : NoWrap m size align)
    (hmust : MustExtend memUnitSize m cells it size align)
    (hprog : mapRequests memUnitSize prog m it size align = .kmallocAlign s a k)
    (fuel : Nat) :
    kmallocReentrant true memUnitSize prog fuel m size align = none := by
  have hplace := hwrap _ h.head h.linked
  have hfound := h.firstGap_found size align
  rw [hmust.tail] at hfound
  have hpl : placement m size align cells = alignedFrom (blockEnd m it) align := by
    cases hfound with
    | tail _ _ _ hpl => exact hpl
  rw [hpl] at hplace
  have hbegin : gapBegin m it align = alignedFrom (blockEnd m it) align :=
    gapBegin_eq (by omega)
  unfold kmallocReentrant kmallocAlign
  by_cases hlocked : m.kmemSpinlock
  · simp [spinlockLock, hlocked]
  · have hlock : spinlockLock (reentrantEnv true memUnitSize prog fuel) m =
        some { m with kmemSpinlock := true } := by
      simp [spinlockLock, hlocked]
    have hwalk : ∀ n, gapSearch { m with kmemSpinlock := true } size align n
        kmemHeapBase = gapSearch m size align n kmemHeapBase := by
      intro n
      generalize kmemHeapBase = start
      induction n generalizing start with
      | zero => rfl
      | succ n ih =>
          simp only [gapSearch, ih]
          rfl
    simp only [hlock, Option.bind_eq_bind, Option.bind_some, hwalk]
    cases hsearch : gapSearch m size align fuel kmemHeapBase with
    | none => rfl
    | some outcome =>
        have hbig := h.gapSearch_eq hal (hpl ▸ hplace)
          (max fuel cells.length) (by omega)
        rw [gapSearch_mono (Nat.le_max_left _ _) hsearch, hmust.tail,
          Option.some.injEq] at hbig
        subst hbig
        have hbegin' : gapBegin { m with kmemSpinlock := true } it align =
            alignedFrom (blockEnd m it) align := hbegin
        simp only [Option.bind_some, hbegin', u64_of_lt hplace]
        cases fuel with
        | zero => simp [gapSearch] at hsearch
        | succ fuel =>
            have hgrow := growHeap_reentrant prog true fuel
              { m with kmemSpinlock := true } hmust rfl hplace
            unfold heapTop at hgrow
            rw [hgrow, ← heapTop, hprog]
            simp [MapProg.run, kmallocReentrant, kmallocAlign, spinlockLock]

theorem HeapList.blocksDisjoint {m : Kmem InnerLog} {cells : List Nat}
    {x y : Nat} (h : HeapList m cells) (hx : x ∈ cells) (hy : y ∈ cells)
    (hxy : x ≠ y) : BlocksDisjoint (payload m x) (payload m y) := by
  have hsymm : cells.Pairwise fun a b =>
      blockEnd m a ≤ b ∨ blockEnd m b ≤ a := h.apart.imp fun hab => .inl hab
  have : Std.Symm fun a b => blockEnd m a ≤ b ∨ blockEnd m b ≤ a :=
    ⟨fun _ _ hab => hab.symm⟩
  have hrel := hsymm.forall hx hy hxy
  unfold BlocksDisjoint payload
  unfold blockEnd at hrel
  omega

theorem growthSafe_of_served {m : Kmem InnerLog} {cells : List Nat}
    {it size align : Nat} (h : HeapList m cells) (hext : m.ext = [])
    (hunit : 0 < memUnitSize) (hal : 1 ≤ align) (hwrap : NoWrap m size align)
    (hmust : MustExtend memUnitSize m cells it size align)
    (htop : heapTop m it size align + memUnitSize < 2 ^ 64)
    (hreq : NoWrapUntilTail m (mapRequests memUnitSize prog m it size align))
    (hserved : ServedInGaps m (mapRequests memUnitSize prog m it size align)) :
    ∃ m' p,
      Returns (fun fuel => kmallocReentrant false memUnitSize prog fuel m size align)
        (m', p) ∧ GrowthSafe m m' cells (p, size) := by
  have hplace := hwrap _ h.head h.linked
  have hfound := h.firstGap_found size align
  rw [hmust.tail] at hfound
  obtain ⟨left, rfl⟩ := hfound.tail_eq
  obtain ⟨m₁, cells₁, inner, hgaps, n, hrun⟩ :=
    run_served memUnitSize prog h hreq hserved
  obtain ⟨left₁, rfl⟩ : ∃ left₁, cells₁ = left₁ ++ [it] := by
    refine List.getLast?_eq_some_iff.mp ?_
    rw [hgaps.last]
    simp
  generalize htopv : u64 (heapTop m it size align +
    (memUnitSize - heapTop m it size align % memUnitSize)) = top
  have htop' : top = heapTop m it size align +
      (memUnitSize - heapTop m it size align % memUnitSize) := by
    have := Nat.mod_lt (heapTop m it size align) hunit
    rw [← htopv]
    exact u64_of_lt (by omega)
  have hmod := Nat.mod_lt (heapTop m it size align) hunit
  have habove := hmust.above
  have hit : it ∈ left ++ [it] := by simp
  have hlow : blockEnd m₁ it ≤ alignedFrom (blockEnd m it) align := by
    unfold blockEnd
    rw [hgaps.sz_old it hit]
    exact le_alignedFrom _ _
  have hheap : heapTop m it size align =
      alignedFrom (blockEnd m it) align + kmemNodeSize + size := rfl
  obtain ⟨hin, hlist⟩ := hgaps.heapList.link_tail size top hlow
    (by omega) ⟨by rw [hgaps.occupiedTo]; omega, by omega⟩
  generalize hb : alignedFrom (blockEnd m it) align = b at *
  generalize hm' : linkTail { m₁ with occupiedTo := top } it b size = m' at *
  have hext' : m'.ext = inner.map (payload m₁) := by
    rw [← hm']
    exact hgaps.ext.trans (by simp [hext])
  have hbsz : m'.sz b = size := hin.sz_new
  have hsz : ∀ x ∈ left₁ ++ [it], m'.sz x = m₁.sz x := hin.sz_old
  have hsub₁ : left₁ ++ [it] ⊆ left₁ ++ [it, b] := by
    intro x hx
    simp only [List.mem_append, List.mem_cons] at hx ⊢
    tauto
  refine ⟨m', b + kmemNodeSize, ⟨max n (left ++ [it]).length + 1,
    fun fuel hfuel => ?_⟩, left₁ ++ [it, b], hlist, ?_, ?_, ?_, ?_⟩
  · obtain ⟨fuel, rfl⟩ := Nat.exists_eq_add_of_le' (Nat.lt_of_lt_of_le (Nat.succ_pos _) hfuel)
    have htail := kmallocAlign_tail
      (reentrantEnv false memUnitSize prog (fuel + 1)) (reentrantEnv_spin _ _)
      h hal hplace hmust.tail (fuel + 1) (by omega)
    have hgrow := growHeap_reentrant prog false fuel m hmust rfl (by omega)
    have hcall := hrun fuel (by omega)
    dsimp only at hcall
    rw [hb, ← hheap, hgrow, hcall] at htail
    simp only [Option.map_some, htopv, hm'] at htail
    exact htail
  · exact fun x hx => hsub₁ (hgaps.sublist.subset hx)
  · intro x hx
    rw [hsz x (hgaps.sublist.subset hx), hgaps.sz_old x hx]
  · intro blk hblk
    rcases List.mem_cons.mp hblk with rfl | hblk
    · exact ⟨by simp, by simpa using hbsz⟩
    · rw [hext'] at hblk
      obtain ⟨x, hx, rfl⟩ := List.mem_map.mp hblk
      have hmem := hgaps.inner_subset hx
      refine ⟨?_, ?_⟩
      · simpa [payload] using hsub₁ hmem
      · simpa [payload] using hsz x hmem
  · have hnew : b ∉ left₁ ++ [it] := by
      have := hlist.nodup
      rw [show left₁ ++ [it, b] = (left₁ ++ [it]) ++ [b] by simp] at this
      intro hbm
      exact (List.nodup_append.mp this).2.2 b hbm b (by simp) rfl
    have hcells : (b + kmemNodeSize, size) :: m'.ext ++ payloads m (left ++ [it]) =
        (b :: inner ++ (left ++ [it]).tail).map (payload m') := by
      have hinner : inner.map (payload m₁) = inner.map (payload m') := by
        refine List.map_congr_left fun x hx => ?_
        simp [payload, hsz x (hgaps.inner_subset hx)]
      have hold : payloads m (left ++ [it]) =
          (left ++ [it]).tail.map (payload m') := by
        refine List.map_congr_left fun x hx => ?_
        have hx := List.mem_of_mem_tail hx
        simp [payload, hsz x (hgaps.sublist.subset hx), hgaps.sz_old x hx]
      rw [hext', hinner, hold]
      simp [payload, hbsz]
    rw [hcells, List.pairwise_map]
    have hmem : ∀ x ∈ b :: inner ++ (left ++ [it]).tail, x ∈ left₁ ++ [it, b] := by
      intro x hx
      simp only [List.cons_append, List.mem_cons, List.mem_append] at hx
      rcases hx with rfl | hx | hx
      · simp
      · exact hsub₁ (hgaps.inner_subset hx)
      · exact hsub₁ (hgaps.sublist.subset (List.mem_of_mem_tail hx))
    have hnodup : (b :: inner ++ (left ++ [it]).tail).Nodup := by
      rw [List.cons_append, List.nodup_cons, List.nodup_append]
      refine ⟨?_, hgaps.inner_nodup, h.nodup.tail, ?_⟩
      · intro hbm
        rcases List.mem_append.mp hbm with hbm | hbm
        · exact hnew (hgaps.inner_subset hbm)
        · exact hnew (hgaps.sublist.subset (List.mem_of_mem_tail hbm))
      · rintro x hx y hy rfl
        exact hgaps.inner_new x hx (List.mem_of_mem_tail hy)
    exact hnodup.imp_of_mem fun {x y} hx hy hxy =>
      hlist.blocksDisjoint (hmem x hx) (hmem y hy) hxy

theorem served_of_growthSafe (prog : Nat → Nat → MapProg) {m m' : Kmem InnerLog} {cells : List Nat}
    {it size align p : Nat} (h : HeapList m cells) (hal : 1 ≤ align)
    (hwrap : NoWrap m size align)
    (hmust : MustExtend memUnitSize m cells it size align)
    (hreq : NoWrapUntilTail m (mapRequests memUnitSize prog m it size align))
    (hret : Returns
      (fun fuel => kmallocReentrant false memUnitSize prog fuel m size align) (m', p))
    (hsafe : GrowthSafe m m' cells (p, size)) :
    ServedInGaps m (mapRequests memUnitSize prog m it size align) := by
  have hplace := hwrap _ h.head h.linked
  have hfound := h.firstGap_found size align
  rw [hmust.tail] at hfound
  obtain ⟨left, rfl⟩ := hfound.tail_eq
  have hlt : heapTop m it size align < 2 ^ 64 := by
    cases hfound with
    | tail _ _ _ hpl =>
        rw [hpl] at hplace
        exact hplace
  obtain ⟨n, hret⟩ := hret
  generalize hfuel : max n (left ++ [it]).length = fuel
  have hcall := hret (fuel + 1) (by omega)
  have htail := kmallocAlign_tail
    (reentrantEnv false memUnitSize prog (fuel + 1)) (reentrantEnv_spin _ _)
    h hal hplace hmust.tail (fuel + 1) (by omega)
  rw [← heapTop, growHeap_reentrant prog false fuel m hmust rfl hlt,
    Option.map_map] at htail
  simp only [kmallocReentrant, htail] at hcall
  obtain ⟨m₁, hrun, hlink⟩ := Option.map_eq_some_iff.mp hcall
  simp only [Function.comp_apply, Prod.mk.injEq] at hlink
  obtain ⟨hm', hp⟩ := hlink
  rcases run_served_or_tail h hreq hrun with hserved | ⟨b, s, hb, hlt'⟩
  · exact hserved
  -- the inner block behind `it` and the outer one both claim to follow `it`
  exfalso
  obtain ⟨cells', hlist, hsub, -, hblocks, hdisj⟩ := hsafe
  generalize hnew : alignedFrom (blockEnd m it) align = new at *
  have hext : m'.ext = m₁.ext := by
    rw [← hm']
    rfl
  have hitnew : it ≠ new := by
    have := le_alignedFrom (blockEnd m it) align
    unfold blockEnd kmemNodeSize at *
    omega
  have hnext : m'.next it = some new := by
    rw [← hm']
    simp [linkTail, hitnew]
  have hend : m'.next new = none := by
    rw [← hm']
    simp [linkTail]
  have hbmem : b ∈ cells' := by
    have := (hblocks _ (List.mem_cons_of_mem _ (hext ▸ hb))).1
    simpa using this
  have hbnew : b ≠ new := by
    have := List.rel_of_pairwise_cons hdisj
      (List.mem_append_left _ (hext ▸ hb : (b + kmemNodeSize, s) ∈ m'.ext))
    unfold BlocksDisjoint at this
    unfold kmemNodeSize at *
    simp only [] at this
    omega
  obtain ⟨s', t, rfl⟩ := List.append_of_mem (hsub (show it ∈ left ++ [it] by simp))
  have hhead : t.head? = some new := by
    have := Segment.next_of_append hlist.linked
    rw [hnext] at this
    simpa using this.symm
  obtain ⟨t', rfl⟩ := List.head?_eq_some_iff.mp hhead
  obtain rfl : t' = [] := by
    have := (Segment.links_of_append hlist.linked).2
    rw [hend] at this
    cases t' with
    | nil => rfl
    | cons c t' => simp at this
  have hap := List.pairwise_append.mp hlist.apart
  rcases List.mem_append.mp hbmem with hbm | hbm
  · have := hap.2.2 b hbm it (by simp)
    unfold blockEnd at this
    omega
  · simp only [List.mem_cons, List.not_mem_nil, or_false] at hbm
    rcases hbm with rfl | rfl
    · omega
    · exact hbnew rfl

/--
Heap growth with a map function that allocates.  With the lock honoured the
call never returns.  With the lock calls ignored it returns with all blocks
linked and disjoint exactly when every inner request fits into a gap below the
last node.
-/
theorem kmalloc_growth_safe_iff (prog : Nat → Nat → MapProg) {m : Kmem InnerLog} {cells : List Nat}
    {it size align s a : Nat} {k : Nat → MapProg} (h : HeapList m cells)
    (hext : m.ext = []) (hunit : 0 < memUnitSize) (hal : 1 ≤ align)
    (hwrap : NoWrap m size align)
    (hmust : MustExtend memUnitSize m cells it size align)
    (htop : heapTop m it size align + memUnitSize < 2 ^ 64)
    (hprog : mapRequests memUnitSize prog m it size align = .kmallocAlign s a k)
    (hreq : NoWrapUntilTail m (mapRequests memUnitSize prog m it size align)) :
    (∀ fuel, kmallocReentrant true memUnitSize prog fuel m size align = none) ∧
    ((∃ m' p,
      Returns (fun fuel => kmallocReentrant false memUnitSize prog fuel m size align)
        (m', p) ∧ GrowthSafe m m' cells (p, size)) ↔
      ServedInGaps m (mapRequests memUnitSize prog m it size align)) := by
  refine ⟨kmallocReentrant_deadlock h hal hwrap hmust hprog, ?_, ?_⟩
  · rintro ⟨m', p, hret, hsafe⟩
    exact served_of_growthSafe prog h hal hwrap hmust hreq hret hsafe
  · exact growthSafe_of_served h hext hunit hal hwrap hmust htop hreq

/-- A map function that takes one tree node, as `alloc_node` does. -/
def allocNodeProg : Nat → Nat → MapProg :=
  fun _ _ => .kmallocAlign 40 1 fun _ => .done

theorem initial_findsGap (it b a : Nat) :
    ¬ FindsGap (kmemInit []) 40 1 it b a := by
  have hlist := (holdsLive_init ([] : InnerLog)).1
  rw [hlist.findsGap (by decide) (hlist.noWrap (by decide))]
  intro hgap
  cases hgap

theorem initial_noWrapUntilTail :
    NoWrapUntilTail (kmemInit []) (.kmallocAlign 40 1 fun _ => .done) :=
  ⟨by decide, (holdsLive_init _).1.noWrap (by decide),
    fun it b a hfind => absurd hfind (initial_findsGap it b a)⟩

theorem initial_mustExtend :
    MustExtend 4096 (kmemInit []) [kmemHeapBase] kmemHeapBase 8192 1 :=
  ⟨rfl, by decide, by decide⟩

/--
The first large request of a fresh heap, with a map function that takes one
node: ignoring the lock, the outer and the inner block get the same address;
honouring it, the call never returns.
-/
theorem kmalloc_growth_overlap :
    (kmallocReentrant false 4096 allocNodeProg 4 (kmemInit []) 8192 1).map
        (fun r => (r.2, r.1.ext)) = some (0x200030, [(0x200030, 40)]) ∧
      (∀ m' p, Returns
        (fun fuel => kmallocReentrant false 4096 allocNodeProg fuel (kmemInit []) 8192 1)
        (m', p) → ¬ GrowthSafe (kmemInit []) m' [kmemHeapBase] (p, 8192)) ∧
      ∀ fuel, kmallocReentrant true 4096 allocNodeProg fuel (kmemInit []) 8192 1 =
        none := by
  have hlist := (holdsLive_init ([] : InnerLog)).1
  refine ⟨by decide +kernel, ?_, ?_⟩
  · intro m' p hret hsafe
    have hserved := served_of_growthSafe allocNodeProg hlist (by decide) (hlist.noWrap (by decide))
      initial_mustExtend initial_noWrapUntilTail hret hsafe
    obtain ⟨it, b, a, hfind, -⟩ := hserved
    exact initial_findsGap it b a hfind
  · exact kmallocReentrant_deadlock hlist (by decide) (hlist.noWrap (by decide))
      initial_mustExtend rfl

/-- A heap with one block of 8 bytes and free memory ahead of it. -/
def freedAhead : Kmem InnerLog :=
  linkTail { kmemInit [] with occupiedTo := 0x200120 } kmemHeapBase 0x200100 8

theorem freedAhead_heapList : HeapList freedAhead [kmemHeapBase, 0x200100] := by
  have hinit : HeapList (kmemInit ([] : InnerLog)) ([] ++ [kmemHeapBase]) := (holdsLive_init []).1
  exact (hinit.link_tail 8 0x200120 (by decide) (by decide) (by decide)).2

theorem freedAhead_findsGap : FindsGap freedAhead 40 1 kmemHeapBase 0x200018 0x200100 :=
  (freedAhead_heapList.findsGap le_rfl (freedAhead_heapList.noWrap (by decide))).mpr rfl

theorem freedAhead_mustExtend :
    MustExtend 4096 freedAhead [kmemHeapBase, 0x200100] 0x200100 8192 1 :=
  ⟨by decide +kernel, by decide, by decide⟩

/-- A large request behind that block: the node of the map function goes into the gap. -/
theorem kmalloc_growth_safe_iff_gapAhead :
    (∀ fuel, kmallocReentrant true 4096 allocNodeProg fuel freedAhead 8192 1 = none) ∧
    ∃ m' p, Returns
      (fun fuel => kmallocReentrant false 4096 allocNodeProg fuel freedAhead 8192 1)
      (m', p) ∧ GrowthSafe freedAhead m' [kmemHeapBase, 0x200100] (p, 8192) := by
  have hlist := freedAhead_heapList
  have hiff := kmalloc_growth_safe_iff allocNodeProg hlist rfl (by decide) le_rfl
    (hlist.noWrap (by decide)) freedAhead_mustExtend (by decide) rfl
    ⟨le_rfl, hlist.noWrap (by decide), fun _ _ _ _ => trivial⟩
  exact ⟨hiff.1, hiff.2.mpr ⟨_, _, _, freedAhead_findsGap, trivial⟩⟩

end UntitledOs.Kernlib
