import UntitledOs.Kernlib.Kmalloc
import UntitledOs.Lib.Fuel

/-!
# Heap calls of the boot phase

Each call is described once against `HeapList`; `KmemHistory` then collects the
states any sequence of requests and `kfree`s of live blocks can reach.
-/

namespace UntitledOs.Kernlib

open UntitledOs.Lib

variable {σ : Type}

/-- No map function is installed and lock calls do nothing. -/
def bootEnv : KmemEnv σ := ⟨false, none⟩

@[simp] theorem bootEnv_spin : (bootEnv : KmemEnv σ).spin = false := rfl

/-- The block `kmalloc_align(size, align)` would be given ends below `2^64`. -/
def NoWrap (m : Kmem σ) (size align : Nat) : Prop :=
  ∀ cells, cells.head? = some kmemHeapBase → LinkedList m.next m.prev cells →
    placement m size align cells + kmemNodeSize + size < 2 ^ 64

theorem HeapList.noWrap {m : Kmem σ} {cells : List Nat} {size align : Nat}
    (h : HeapList m cells)
    (hplace : placement m size align cells + kmemNodeSize + size < 2 ^ 64) :
    NoWrap m size align := by
  intro cells' hhead hlinked
  rwa [← Segment.unique h.linked hlinked (h.head.trans hhead.symm)]

theorem kmallocAlign_boot {m : Kmem σ} {cells : List Nat} {size align : Nat}
    (h : HeapList m cells) (hal : 1 ≤ align)
    (hwrap : placement m size align cells + kmemNodeSize + size < 2 ^ 64) :
    ∃ left it b right m', cells = left ++ it :: right ∧
      Allocated m m' left it b right size align ∧
      ∀ fuel ≥ cells.length,
        kmallocAlign bootEnv fuel m size align = some (m', b + kmemNodeSize) := by
  have hfound := h.firstGap_found size align
  have hgap := fun it b a : Nat =>
    @kmallocAlign_gap σ bootEnv rfl m cells size align it b a h hal hwrap
  have htail := fun it : Nat =>
    @kmallocAlign_tail σ bootEnv rfl m cells size align it h hal hwrap
  generalize firstGap m size align kmemHeapBase cells.tail = outcome
    at hfound hgap htail
  cases hfound with
  | gap left right it a hcells hfit hplace =>
      obtain ⟨left', right', hcells', halloc, hret⟩ := hgap _ _ _ rfl
      exact ⟨left', it, _, a :: right', _, hcells', halloc, hret⟩
  | tail left it hcells hplace =>
      rw [hplace] at hwrap
      have hret := htail it rfl
      subst hcells
      generalize hb : alignedFrom (blockEnd m it) align = b at *
      have hlow : blockEnd m it ≤ b := by
        rw [← hb]
        exact le_alignedFrom _ _
      obtain ⟨top, hgrow, htop, hocc⟩ : ∃ top,
          growHeap bootEnv m (b + kmemNodeSize + size) =
            some { m with occupiedTo := top } ∧
          b + kmemNodeSize + size ≤ top ∧
          m.occupiedTo ≤ top ∧ top < 2 ^ 64 := by
        unfold growHeap
        split
        · exact ⟨_, rfl, Nat.le_refl _, by omega, hwrap⟩
        · exact ⟨m.occupiedTo, rfl, by omega, Nat.le_refl _, h.limit.2⟩
      obtain ⟨hin, hlist⟩ := h.link_tail size top hlow htop hocc
      refine ⟨left, it, b, [], _, rfl, ⟨hin, hlist, ?_, hplace.symm⟩, ?_⟩
      · rw [← hb]
        exact dvd_alignedFrom _ hal
      · intro fuel hfuel
        rw [hret fuel hfuel, hgrow]
        rfl

/-- What `kfree` of the block `b` behind `it` has done. -/
structure Freed (m m' : Kmem σ) (left : List Nat) (it : Nat)
    (right : List Nat) : Prop where
  heapList : HeapList m' (left ++ it :: right)
  sz_old : ∀ x, m'.sz x = m.sz x
  next_it : m'.next it = right.head?
  prev_succ : ∀ x, right.head? = some x → m'.prev x = some it
  next_old : ∀ x, x ≠ it → m'.next x = m.next x
  prev_old : ∀ x, right.head? ≠ some x → m'.prev x = m.prev x

/-- `it` and the node behind the freed one, if any, linked to each other. -/
def unlinked (m : Kmem σ) (it : Nat) : Option Nat → Kmem σ
  | none => m.setNext it none
  | some c => (m.setNext it (some c)).setPrev c (some it)

theorem unlinked_freed {m : Kmem σ} {left right : List Nat} {it b : Nat}
    (h : HeapList m (left ++ it :: b :: right)) :
    Freed m (unlinked m it right.head?) left it right := by
  have hnodup := h.nodup
  have hfreed : ∀ m' : Kmem σ, m'.occupiedTo = m.occupiedTo →
      (∀ x, m'.sz x = m.sz x) → m'.next it = right.head? →
      (∀ x, right.head? = some x → m'.prev x = some it) →
      (∀ x, x ≠ it → m'.next x = m.next x) →
      (∀ x, right.head? ≠ some x → m'.prev x = m.prev x) →
      Freed m m' left it right := by
    intro m' hocc hszs hit hsucc hnexts hprevs
    refine ⟨h.unlink hocc hszs hit hsucc ?_ (fun x _ => hprevs x), hszs, hit,
      hsucc, hnexts, hprevs⟩
    intro x hx
    refine hnexts x ?_
    rintro rfl
    have hd := List.nodup_append.mp hnodup
    rcases List.mem_append.mp hx with hx | hx
    · exact hd.2.2 x hx x (by simp) rfl
    · have := (List.nodup_cons.mp hd.2.1).1
      exact this (List.mem_cons_of_mem _ hx)
  cases right with
  | nil => apply hfreed <;> simp +contextual [unlinked]
  | cons c right =>
      apply hfreed
      · rfl
      · simp [unlinked]
      · simp [unlinked]
      · simp +contextual [unlinked]
      · simp +contextual [unlinked]
      · intro x hx
        have : x ≠ c := by
          rintro rfl
          exact hx rfl
        simp [unlinked, this]

theorem kfree_eq {m : Kmem σ} {left right : List Nat} {it b : Nat}
    (h : HeapList m (left ++ it :: b :: right)) :
    kfree bootEnv m (b + kmemNodeSize) = some (unlinked m it right.head?) := by
  obtain ⟨hprev, hnext⟩ := Segment.links_of_append h.linked
  rw [Option.or_none] at hnext
  have hbit : b ≠ it := by
    rintro rfl
    have := (List.nodup_append.mp h.nodup).2.1
    simp at this
  cases right with
  | nil =>
      simp only [kfree, spinlockLock_ignored bootEnv_spin,
        spinlockUnlock_ignored bootEnv_spin, Option.bind_eq_bind,
        Option.bind_some, Nat.add_sub_cancel, hprev, Kmem.next_setNext,
        if_neg hbit, hnext, List.head?_nil, unlinked]
  | cons c right =>
      simp only [kfree, spinlockLock_ignored bootEnv_spin,
        spinlockUnlock_ignored bootEnv_spin, Option.bind_eq_bind,
        Option.bind_some, Nat.add_sub_cancel, hprev, Kmem.next_setNext,
        Kmem.prev_setNext, if_neg hbit, hnext, List.head?_cons, unlinked]

theorem kfree_boot {m : Kmem σ} {left right : List Nat} {it b : Nat}
    (h : HeapList m (left ++ it :: b :: right)) :
    ∃ m', kfree bootEnv m (b + kmemNodeSize) = some m' ∧
      Freed m m' left it right :=
  ⟨_, kfree_eq h, unlinked_freed h⟩

/-! ## Live blocks -/

/-- The payload addresses and sizes of the blocks behind `kmem_head`. -/
def payloads (m : Kmem σ) (cells : List Nat) : List (Nat × Nat) :=
  cells.tail.map fun a => (a + kmemNodeSize, m.sz a)

theorem tail_insert_perm (left right : List Nat) (it b : Nat) :
    (left ++ it :: b :: right).tail.Perm (b :: (left ++ it :: right).tail) := by
  cases left with
  | nil => exact List.Perm.refl _
  | cons l left =>
      simp only [List.cons_append, List.tail_cons]
      rw [show left ++ it :: b :: right = (left ++ [it]) ++ b :: right by simp,
        show left ++ it :: right = (left ++ [it]) ++ right by simp]
      exact List.perm_middle

theorem payloads_insert {m m' : Kmem σ} (b : Nat) {left right : List Nat}
    {it : Nat}
    (hszs : ∀ x ∈ left ++ it :: right, m'.sz x = m.sz x) :
    (payloads m' (left ++ it :: b :: right)).Perm
      ((b + kmemNodeSize, m'.sz b) :: payloads m (left ++ it :: right)) := by
  have hmap : payloads m' (left ++ it :: right) = payloads m (left ++ it :: right) := by
    refine List.map_congr_left fun x hx => ?_
    rw [hszs x (List.mem_of_mem_tail hx)]
  rw [← hmap]
  exact (tail_insert_perm left right it b).map _

theorem HeapList.exists_pred {m : Kmem σ} {cells : List Nat} {b : Nat}
    (h : HeapList m cells) (hb : b ∈ cells.tail) :
    ∃ left it right, cells = left ++ it :: b :: right := by
  obtain ⟨s, t, hst⟩ := List.append_of_mem hb
  have hcells : cells = (kmemHeapBase :: s) ++ b :: t := by
    rw [h.eq_cons, hst]
    rfl
  refine ⟨(kmemHeapBase :: s).dropLast,
    (kmemHeapBase :: s).getLast (by simp), t, ?_⟩
  calc cells = (kmemHeapBase :: s) ++ b :: t := hcells
    _ = ((kmemHeapBase :: s).dropLast ++ [(kmemHeapBase :: s).getLast (by simp)])
          ++ b :: t := by rw [List.dropLast_append_getLast]
    _ = _ := by simp

theorem HeapList.resize {m : Kmem σ} {left right : List Nat} {b c size : Nat}
    (h : HeapList m (left ++ b :: c :: right)) (hb : b ≠ kmemHeapBase)
    (hfit : b + kmemNodeSize + size + kmemNodeSize ≤ c) :
    HeapList (m.setSz b size) (left ++ b :: c :: right) := by
  have hend : ∀ x, x ≠ b → blockEnd (m.setSz b size) x = blockEnd m x := by
    intro x hx
    simp [blockEnd, hx]
  have hbend : blockEnd (m.setSz b size) b = b + kmemNodeSize + size := by
    simp [blockEnd]
  have hnodup := h.nodup
  have hap := h.apart
  have hlt : ∀ x ∈ right, c ≤ x := by
    intro x hx
    have := List.rel_of_pairwise_cons
      (List.pairwise_append.mp hap).2.1.of_cons hx
    unfold blockEnd at this
    omega
  refine ⟨h.head, ?_, ?_, ?_, ?_, h.limit⟩
  · simp [h.head_sz, hb.symm]
  · exact Segment.congr h.linked (by simp) (by simp)
  · rw [Apart, List.pairwise_append] at hap ⊢
    have hd := List.nodup_append.mp hnodup
    refine ⟨?_, ?_, ?_⟩
    · refine hap.1.imp_of_mem fun {x y} hx _ hxy => ?_
      rwa [hend x (fun hxb => hd.2.2 x hx b (by simp) hxb)]
    · refine List.Pairwise.cons ?_ ?_
      · intro x hx
        rw [hbend]
        rcases List.mem_cons.mp hx with rfl | hx
        · omega
        · have := hlt x hx
          omega
      · refine hap.2.1.of_cons.imp_of_mem fun {x y} hx _ hxy => ?_
        rwa [hend x (fun hxb => (List.nodup_cons.mp hd.2.1).1 (hxb ▸ hx))]
    · intro x hx y hy
      rw [hend x (fun hxb => hd.2.2 x hx b (by simp) hxb)]
      exact hap.2.2 x hx y hy
  · intro x hx
    by_cases hxb : x = b
    · subst hxb
      have hc : c ∈ (left ++ x :: c :: right).tail := by
        cases left <;> simp
      have := h.below c hc
      rw [hbend]
      simp only [Kmem.occupiedTo_setSz]
      unfold blockEnd at this
      omega
    · rw [hend x hxb]
      exact h.below x hx

/-! ## Histories -/

/--
The states of the heap after any sequence of calls that give the lock back,
together with the blocks (address and size) that were handed out and not freed.
-/
inductive KmemHistory (ext : σ) : Kmem σ → List (Nat × Nat) → Prop
  | init : KmemHistory ext (kmemInit ext) []
  | kmalloc {m m' : Kmem σ} {live : List (Nat × Nat)} {size align p : Nat} :
      KmemHistory ext m live → 1 ≤ align → NoWrap m size align →
      Returns (fun fuel => kmallocAlign bootEnv fuel m size align) (m', p) →
      KmemHistory ext m' ((p, size) :: live)
  | kfree {m m' : Kmem σ} {live : List (Nat × Nat)} {ptr old : Nat} :
      KmemHistory ext m live → (ptr, old) ∈ live →
      kfree bootEnv m ptr = some m' →
      KmemHistory ext m' (live.erase (ptr, old))

/-- The heap list holds exactly the live blocks. -/
def HoldsLive (m : Kmem σ) (cells : List Nat) (live : List (Nat × Nat)) :
    Prop :=
  HeapList m cells ∧ (payloads m cells).Perm live

theorem holdsLive_init (ext : σ) : HoldsLive (kmemInit ext) [kmemHeapBase] [] := by
  refine ⟨⟨rfl, rfl, ?_, ?_, ?_, ?_⟩, List.Perm.refl _⟩
  · exact ⟨rfl, rfl, trivial⟩
  · exact List.pairwise_singleton _ _
  · simp
  · simp [kmemInit, kmemHeapBase]

theorem holdsLive_kmalloc {m : Kmem σ} {cells : List Nat}
    {live : List (Nat × Nat)} {size align : Nat} (h : HoldsLive m cells live)
    (hal : 1 ≤ align) (hwrap : NoWrap m size align) :
    ∃ left it b right m', cells = left ++ it :: right ∧
      Allocated m m' left it b right size align ∧
      HoldsLive m' (left ++ it :: b :: right)
        ((b + kmemNodeSize, size) :: live) ∧
      Returns (fun fuel => kmallocAlign bootEnv fuel m size align)
        (m', b + kmemNodeSize) := by
  obtain ⟨left, it, b, right, m', hcells, halloc, hret⟩ :=
    kmallocAlign_boot h.1 hal (hwrap cells h.1.head h.1.linked)
  refine ⟨left, it, b, right, m', hcells, halloc, ⟨halloc.heapList, ?_⟩,
    _, hret⟩
  have hperm := payloads_insert b halloc.linkedIn.sz_old
  rw [halloc.linkedIn.sz_new, ← hcells] at hperm
  exact hperm.trans (List.Perm.cons _ h.2)

/-- The live pointer `ptr` is the payload of a node behind `it`. -/
theorem HoldsLive.split {m : Kmem σ} {cells : List Nat}
    {live : List (Nat × Nat)} {ptr old : Nat} (h : HoldsLive m cells live)
    (hptr : (ptr, old) ∈ live) :
    ∃ left it b right, cells = left ++ it :: b :: right ∧
      ptr = b + kmemNodeSize ∧ old = m.sz b := by
  have hmem := h.2.symm.subset hptr
  obtain ⟨b, hb, hpair⟩ := List.mem_map.mp hmem
  obtain ⟨left, it, right, hcells⟩ := h.1.exists_pred hb
  simp only [Prod.mk.injEq] at hpair
  exact ⟨left, it, b, right, hcells, hpair.1.symm, hpair.2.symm⟩

theorem holdsLive_kfree {m : Kmem σ} {cells : List Nat}
    {live : List (Nat × Nat)} {ptr old : Nat} (h : HoldsLive m cells live)
    (hptr : (ptr, old) ∈ live) :
    ∃ cells' m', kfree bootEnv m ptr = some m' ∧
      HoldsLive m' cells' (live.erase (ptr, old)) := by
  obtain ⟨left, it, b, right, rfl, rfl, rfl⟩ := h.split hptr
  obtain ⟨m', hfree, hfreed⟩ := kfree_boot h.1
  refine ⟨left ++ it :: right, m', hfree, hfreed.heapList, ?_⟩
  have hold : ∀ x ∈ left ++ it :: right, m.sz x = m'.sz x :=
    fun x _ => (hfreed.sz_old x).symm
  have hperm := payloads_insert b hold
  have hlive := (hperm.symm.trans h.2).trans (List.perm_cons_erase hptr)
  exact hlive.cons_inv

/-- Every state of a history is a list that holds exactly the live blocks. -/
theorem kmemHistory_holdsLive {ext : σ} {m : Kmem σ} {live : List (Nat × Nat)}
    (h : KmemHistory ext m live) : ∃ cells, HoldsLive m cells live := by
  induction h with
  | init => exact ⟨_, holdsLive_init ext⟩
  | kmalloc _ hal hwrap hret ih =>
      obtain ⟨cells, hlive⟩ := ih
      obtain ⟨_, _, _, _, _, -, -, hlive', hret'⟩ :=
        holdsLive_kmalloc hlive hal hwrap
      obtain ⟨rfl, rfl⟩ := Prod.mk.inj (hret'.unique hret)
      exact ⟨_, hlive'⟩
  | kfree _ hptr hfree ih =>
      obtain ⟨cells, hlive⟩ := ih
      obtain ⟨cells', m', hfree', hlive'⟩ := holdsLive_kfree hlive hptr
      rw [hfree, Option.some.injEq] at hfree'
      exact ⟨cells', hfree' ▸ hlive'⟩

end UntitledOs.Kernlib
