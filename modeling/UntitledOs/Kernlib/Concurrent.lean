import UntitledOs.Lib.Lock
import UntitledOs.Kernlib.LockDiscipline

/-!
# The heap called from several CPUs

The calls of `kernlib/kernmem.c` one statement at a time, before map functions
are installed.  The lock word is the world's, not the field of `Kmem`.  A call
served behind the last node reads `it->next` for its result when it has already
cleared the lock; the other ways out of a call leave the lock taken.
-/

namespace UntitledOs.Kernlib

open UntitledOs.Lib UntitledOs.Lib.Lock

variable {σ ι : Type}

/-- Where a CPU is that has taken `kmem_spinlock`. -/
inductive HeapPlace
  | walk (size align it : Nat)
  | gapNext (it gapBeg itNext size : Nat)
  | gapPrev (it gapBeg itNext size : Nat)
  | gapFill (it gapBeg itNext size : Nat)
  | gapReturn (gapBeg : Nat)
  | grow (it nblk size : Nat)
  | tailNext (it nblk size : Nat)
  | tailFill (it nblk size : Nat)
  | tailUnlock (it nblk : Nat)
  | resize (ptr size align : Nat)
  | resized (ptr : Nat)
  /-- `kmalloc_align` inside `krealloc_align`, which waits for the lock its own CPU holds -/
  | spin
  | freeNext (it : Nat)
  | freePrev (it : Nat)
  | freeUnlock

/-- What a call comes back with. -/
inductive HeapResult
  | pointer (p : Nat)
  /-- `it->next + 1`, still to be read; the call has linked `nblk` there -/
  | behind (it nblk : Nat)
  | freed
  deriving DecidableEq

/-- `occupied_to` raised to `top`, with no map function. -/
def raised (m : Kmem σ) (top : Nat) : Kmem σ :=
  if top > m.occupiedTo then { m with occupiedTo := top } else m

def heapEnter : HeapCall → HeapPlace
  | .kmalloc size align => .walk size align kmemHeapBase
  | .krealloc none size align => .walk size align kmemHeapBase
  | .krealloc (some ptr) size align => .resize ptr size align
  | .kfree ptr => .freeNext (ptr - kmemNodeSize)

def heapTurn (m : Kmem σ) : HeapPlace → Turn (Kmem σ) HeapPlace HeapResult
  | .walk size align it =>
      match m.next it with
      | none => .go (.grow it (gapBegin m it align) size) m
      | some gapEnd =>
          let gapBeg := gapBegin m it align
          if gapEnd > gapBeg ∧ gapEnd - gapBeg ≥ u64 (size + kmemNodeSize) then
            .go (.gapNext it gapBeg gapEnd size) m
          else .go (.walk size align gapEnd) m
  | .gapNext it gapBeg itNext size =>
      .go (.gapPrev it gapBeg itNext size) (m.setNext it (some gapBeg))
  | .gapPrev it gapBeg itNext size =>
      .go (.gapFill it gapBeg itNext size) (m.setPrev itNext (some gapBeg))
  | .gapFill it gapBeg itNext size =>
      .go (.gapReturn gapBeg) (m.setNode gapBeg ⟨size, some itNext, some it⟩)
  | .gapReturn gapBeg => .leave (.pointer (u64 (gapBeg + kmemNodeSize)))
  | .grow it nblk size =>
      .go (.tailNext it nblk size) (raised m (u64 (nblk + kmemNodeSize + size)))
  | .tailNext it nblk size => .go (.tailFill it nblk size) (m.setNext it (some nblk))
  | .tailFill it nblk size =>
      .go (.tailUnlock it nblk) (m.setNode nblk ⟨size, none, some it⟩)
  | .tailUnlock it nblk => .unlock (.behind it nblk)
  | .resize ptr size _ =>
      let kn := ptr - kmemNodeSize
      match m.next kn with
      | some gapEnd =>
          if sub64 gapEnd ptr ≥ u64 (size + kmemNodeSize) then
            .go (.resized ptr) (m.setSz kn size)
          else .go .spin m
      | none => .go .spin m
  | .resized ptr => .leave (.pointer ptr)
  | .spin => .go .spin m
  | .freeNext it =>
      .go (.freePrev it) (match m.prev it with
        | some p => m.setNext p (m.next it)
        | none => m)
  | .freePrev it =>
      .go .freeUnlock (match m.next it with
        | some n => m.setPrev n (m.prev it)
        | none => m)
  | .freeUnlock => .unlock .freed

def heapCode : Code (Kmem σ) HeapCall HeapPlace HeapResult where
  enter := heapEnter
  turn l m := heapTurn m l

abbrev HeapWorld (ι σ : Type) := World ι (Kmem σ) HeapCall HeapPlace HeapResult

/-- What the caller of a request served behind `it` reads for its pointer. -/
def lateRead (m : Kmem σ) (it : Nat) : Option Nat := (m.next it).map (· + kmemNodeSize)

/-! ## One call -/

/-- The places of a request for `size` bytes that found `m`, with what it has done so far. -/
inductive AllocAt (m : Kmem σ) (size align : Nat) : HeapPlace → Kmem σ → Prop
  | walk {it : Nat} (h : ∀ r, Returns (fun fuel => gapSearch m size align fuel it) r →
      Returns (fun fuel => gapSearch m size align fuel kmemHeapBase) r) :
      AllocAt m size align (.walk size align it) m
  | gapNext {it b a : Nat}
      (h : Returns (fun fuel => gapSearch m size align fuel kmemHeapBase) (.gap it b a)) :
      AllocAt m size align (.gapNext it b a size) m
  | gapPrev {it b a : Nat}
      (h : Returns (fun fuel => gapSearch m size align fuel kmemHeapBase) (.gap it b a)) :
      AllocAt m size align (.gapPrev it b a size) (m.setNext it (some b))
  | gapFill {it b a : Nat}
      (h : Returns (fun fuel => gapSearch m size align fuel kmemHeapBase) (.gap it b a)) :
      AllocAt m size align (.gapFill it b a size)
        ((m.setNext it (some b)).setPrev a (some b))
  | gapReturn {it b a : Nat}
      (h : Returns (fun fuel => gapSearch m size align fuel kmemHeapBase) (.gap it b a)) :
      AllocAt m size align (.gapReturn b) (linkGap m it b a size)
  | grow {it : Nat}
      (h : Returns (fun fuel => gapSearch m size align fuel kmemHeapBase) (.tail it)) :
      AllocAt m size align (.grow it (gapBegin m it align) size) m
  | tailNext {it : Nat}
      (h : Returns (fun fuel => gapSearch m size align fuel kmemHeapBase) (.tail it)) :
      AllocAt m size align (.tailNext it (gapBegin m it align) size)
        (raised m (u64 (gapBegin m it align + kmemNodeSize + size)))
  | tailFill {it : Nat}
      (h : Returns (fun fuel => gapSearch m size align fuel kmemHeapBase) (.tail it)) :
      AllocAt m size align (.tailFill it (gapBegin m it align) size)
        ((raised m (u64 (gapBegin m it align + kmemNodeSize + size))).setNext it
          (some (gapBegin m it align)))
  | tailUnlock {it : Nat}
      (h : Returns (fun fuel => gapSearch m size align fuel kmemHeapBase) (.tail it)) :
      AllocAt m size align (.tailUnlock it (gapBegin m it align))
        (linkTail (raised m (u64 (gapBegin m it align + kmemNodeSize + size))) it
          (gapBegin m it align) size)

variable {m m' : Kmem σ} {size align : Nat} {l : HeapPlace}

/-- The walk ends at `it`, or goes on from the next node. -/
theorem gapSearch_returns_of_step {it : Nat} {r : GapSearch}
    (h : ∀ fuel, gapSearch m size align (fuel + 1) it = some r) :
    Returns (fun fuel => gapSearch m size align fuel it) r := by
  refine ⟨1, fun fuel hfuel => ?_⟩
  obtain ⟨k, rfl⟩ : ∃ k, fuel = k + 1 := ⟨fuel - 1, by omega⟩
  exact h k

theorem AllocAt.step {l' : HeapPlace} {m'' : Kmem σ} (h : AllocAt m size align l m')
    (hturn : heapTurn m' l = .go l' m'') : AllocAt m size align l' m'' := by
  cases h with
  | @walk it hwalk =>
      simp only [heapTurn] at hturn
      cases hnext : m.next it with
      | none =>
          simp only [hnext, Turn.go.injEq] at hturn
          obtain ⟨rfl, rfl⟩ := hturn
          exact .grow (hwalk _ (gapSearch_returns_of_step fun fuel => by simp [gapSearch, hnext]))
      | some gapEnd =>
          simp only [hnext] at hturn
          by_cases hfit : gapEnd > gapBegin m it align ∧
              gapEnd - gapBegin m it align ≥ u64 (size + kmemNodeSize)
          · rw [if_pos hfit, Turn.go.injEq] at hturn
            obtain ⟨rfl, rfl⟩ := hturn
            exact .gapNext (hwalk _ (gapSearch_returns_of_step fun fuel => by
              simp only [gapSearch, hnext, if_pos hfit]))
          · rw [if_neg hfit, Turn.go.injEq] at hturn
            obtain ⟨rfl, rfl⟩ := hturn
            refine .walk fun r hr => hwalk r (Returns.of_succ (g := fun fuel =>
              gapSearch m size align (fuel - 1) gapEnd) ?_ ?_)
            · intro fuel
              simp only [gapSearch, hnext, if_neg hfit, Nat.add_sub_cancel]
            · obtain ⟨n, hn⟩ := hr
              exact ⟨n + 1, fun fuel hfuel => hn (fuel - 1) (by omega)⟩
  | gapNext hr => cases hturn; exact .gapPrev hr
  | gapPrev hr => cases hturn; exact .gapFill hr
  | gapFill hr => cases hturn; exact .gapReturn hr
  | gapReturn hr => cases hturn
  | grow hr => cases hturn; exact .tailNext hr
  | tailNext hr => cases hturn; exact .tailFill hr
  | tailFill hr => cases hturn; exact .tailUnlock hr
  | tailUnlock hr => cases hturn

theorem allocAt_solo (h : Solo heapCode (.walk size align kmemHeapBase) m l m') :
    AllocAt m size align l m' := by
  induction h with
  | nil => exact .walk fun _ hr => hr
  | snoc _ hturn ih => exact ih.step hturn

/-- The places of a `kfree` that found `m`. -/
inductive FreeAt (m : Kmem σ) (it : Nat) : HeapPlace → Kmem σ → Prop
  | freeNext : FreeAt m it (.freeNext it) m
  | freePrev : FreeAt m it (.freePrev it) (match m.prev it with
      | some p => m.setNext p (m.next it)
      | none => m)
  | freeUnlock (m' : Kmem σ) (h : kfree bootEnv m (it + kmemNodeSize) = some m') :
      FreeAt m it .freeUnlock m'

theorem freeAt_solo {it : Nat} (h : Solo heapCode (.freeNext it) m l m') : FreeAt m it l m' := by
  induction h with
  | nil => exact .freeNext
  | snoc _ hturn ih =>
      cases ih with
      | freeNext => cases hturn; exact .freePrev
      | freePrev =>
          cases hturn
          refine .freeUnlock _ ?_
          unfold kfree
          rw [spinlockLock_ignored bootEnv_spin, Nat.add_sub_cancel]
          rfl
      | freeUnlock _ _ => cases hturn

/-- The places of a `krealloc` of a block that found `m`. -/
inductive ResizeAt (m : Kmem σ) (ptr size align : Nat) : HeapPlace → Kmem σ → Prop
  | resize : ResizeAt m ptr size align (.resize ptr size align) m
  | resized (c : Nat) (hnext : m.next (ptr - kmemNodeSize) = some c)
      (hfit : sub64 c ptr ≥ u64 (size + kmemNodeSize)) :
      ResizeAt m ptr size align (.resized ptr) (m.setSz (ptr - kmemNodeSize) size)
  | spin : ResizeAt m ptr size align .spin m

theorem resizeAt_solo {ptr : Nat} (h : Solo heapCode (.resize ptr size align) m l m') :
    ResizeAt m ptr size align l m' := by
  induction h with
  | nil => exact .resize
  | snoc _ hturn ih =>
      cases ih with
      | resize =>
          simp only [heapCode, heapTurn] at hturn
          cases hnext : m.next (ptr - kmemNodeSize) with
          | none =>
              simp only [hnext] at hturn
              cases hturn
              exact .spin
          | some c =>
              simp only [hnext] at hturn
              split at hturn
              · rename_i hfit
                cases hturn
                exact .resized c hnext hfit
              · cases hturn
                exact .spin
      | resized _ _ _ => cases hturn
      | spin => cases hturn; exact .spin

/-! ## Finished calls -/

/-- Size and alignment, of a call that asks for a new block. -/
def HeapCall.request : HeapCall → Option (Nat × Nat)
  | .kmalloc size align => some (size, align)
  | .krealloc none size align => some (size, align)
  | .krealloc (some _) _ _ => none
  | .kfree _ => none

/-- A call that gave the lock back, as the calls of one CPU are modelled. -/
inductive Unlocked (m m' : Kmem σ) : HeapCall → HeapResult → Prop
  | served {call : HeapCall} {size align it : Nat} (hcall : call.request = some (size, align))
      (h : Returns (fun fuel => gapSearch m size align fuel kmemHeapBase) (.tail it))
      (hm : m' = linkTail (raised m (u64 (gapBegin m it align + kmemNodeSize + size))) it
        (gapBegin m it align) size) :
      Unlocked m m' call (.behind it (gapBegin m it align))
  | freed {ptr : Nat} (h : kfree bootEnv m (ptr - kmemNodeSize + kmemNodeSize) = some m') :
      Unlocked m m' (.kfree ptr) .freed

/-- A call that left with the lock taken. -/
inductive Left (m m' : Kmem σ) : HeapCall → HeapResult → Prop
  | served {call : HeapCall} {size align it b a : Nat}
      (hcall : call.request = some (size, align))
      (h : Returns (fun fuel => gapSearch m size align fuel kmemHeapBase) (.gap it b a))
      (hm : m' = linkGap m it b a size) :
      Left m m' call (.pointer (u64 (b + kmemNodeSize)))
  | resized {ptr size align c : Nat} (hnext : m.next (ptr - kmemNodeSize) = some c)
      (hfit : sub64 c ptr ≥ u64 (size + kmemNodeSize))
      (hm : m' = m.setSz (ptr - kmemNodeSize) size) :
      Left m m' (.krealloc (some ptr) size align) (.pointer ptr)

variable {call : HeapCall} {r : HeapResult}

/-- The three ways a call can be taken. -/
theorem solo_cases (h : Solo heapCode (heapEnter call) m l m') :
    (∃ size align, call.request = some (size, align) ∧ AllocAt m size align l m') ∨
    (∃ ptr, call = .kfree ptr ∧ FreeAt m (ptr - kmemNodeSize) l m') ∨
    (∃ ptr size align, call = .krealloc (some ptr) size align ∧
      ResizeAt m ptr size align l m') := by
  cases call with
  | kmalloc size align => exact .inl ⟨size, align, rfl, allocAt_solo h⟩
  | krealloc ptr size align =>
      cases ptr with
      | none => exact .inl ⟨size, align, rfl, allocAt_solo h⟩
      | some ptr => exact .inr (.inr ⟨ptr, size, align, rfl, resizeAt_solo h⟩)
  | kfree ptr => exact .inr (.inl ⟨ptr, rfl, freeAt_solo h⟩)

theorem unlocked_of_solo (h : Solo heapCode (heapEnter call) m l m')
    (hturn : heapTurn m' l = .unlock r) : Unlocked m m' call r := by
  obtain ⟨size, align, hcall, hat⟩ | ⟨ptr, rfl, hat⟩ | ⟨ptr, size, align, rfl, hat⟩ :=
    solo_cases h
  · cases hat with
    | tailUnlock hr =>
        cases hturn
        exact .served hcall hr rfl
    | @walk it hwalk =>
        simp only [heapTurn] at hturn
        split at hturn
        · cases hturn
        · split at hturn <;> cases hturn
    | _ => cases hturn
  · cases hat with
    | freeUnlock _ hfree =>
        cases hturn
        exact .freed hfree
    | _ => cases hturn
  · cases hat with
    | resize =>
        simp only [heapTurn] at hturn
        split at hturn
        · split at hturn <;> cases hturn
        · cases hturn
    | _ => cases hturn

theorem left_of_solo (h : Solo heapCode (heapEnter call) m l m')
    (hturn : heapTurn m' l = .leave r) : Left m m' call r := by
  obtain ⟨size, align, hcall, hat⟩ | ⟨ptr, rfl, hat⟩ | ⟨ptr, size, align, rfl, hat⟩ :=
    solo_cases h
  · cases hat with
    | gapReturn hr =>
        cases hturn
        exact .served hcall hr rfl
    | @walk it hwalk =>
        simp only [heapTurn] at hturn
        split at hturn
        · cases hturn
        · split at hturn <;> cases hturn
    | _ => cases hturn
  · cases hat with
    | _ => cases hturn
  · cases hat with
    | resized _ hnext hfit =>
        cases hturn
        exact .resized hnext hfit rfl
    | resize =>
        simp only [heapTurn] at hturn
        split at hturn
        · split at hturn <;> cases hturn
        · cases hturn
    | _ => cases hturn

/-! ## Calls in the order they left -/

/-- A finished call. -/
abbrev HeapEntry (ι : Type) := ι × HeapCall × HeapResult

def HeapResult.address : HeapResult → Option Nat
  | .pointer p => some p
  | .behind _ nblk => some (nblk + kmemNodeSize)
  | .freed => none

/-- The blocks handed out and not given back, after one more call. -/
def liveStep (live : List (Nat × Nat)) (e : HeapEntry ι) : List (Nat × Nat) :=
  match e.2.1 with
  | .kfree ptr => live.filter (·.1 ≠ ptr)
  | .krealloc (some ptr) size _ => (ptr, size) :: live.filter (·.1 ≠ ptr)
  | .krealloc none size _ => (e.2.2.address.toList.map (·, size)) ++ live
  | .kmalloc size _ => (e.2.2.address.toList.map (·, size)) ++ live

def liveBlocks (hist : List (HeapEntry ι)) : List (Nat × Nat) := hist.foldl liveStep []

/-- The most a call adds to the top of the heap. -/
def HeapCall.cost (call : HeapCall) : Nat :=
  match call.request with
  | some (size, align) => kmemNodeSize + size + align
  | none => 0

def costTop (hist : List (HeapEntry ι)) : Nat :=
  kmemHeapBase + kmemNodeSize + (hist.map fun e => e.2.1.cost).sum

/-- A call on an alignment that is not zero, or on a block that is handed out. -/
def Proper (live : List (Nat × Nat)) : HeapCall → Prop
  | .kmalloc _ align => 1 ≤ align
  | .krealloc none _ align => 1 ≤ align
  | .krealloc (some ptr) _ _ => ∃ size, (ptr, size) ∈ live
  | .kfree ptr => ∃ size, (ptr, size) ∈ live

/-- Each call was proper when it took the lock. -/
def WellUsed (hist : List (HeapEntry ι)) : Prop :=
  ∀ before e, before ++ [e] <+: hist → Proper (liveBlocks before) e.2.1

theorem WellUsed.init {hist : List (HeapEntry ι)} {e : HeapEntry ι}
    (h : WellUsed (hist ++ [e])) : WellUsed hist ∧ Proper (liveBlocks hist) e.2.1 :=
  ⟨fun before e' hp => h before e' (hp.trans (List.prefix_append hist [e])),
    h hist e (List.prefix_refl _)⟩

theorem WellUsed.nil : WellUsed ([] : List (HeapEntry ι)) := by
  intro before e hp
  simp at hp

theorem WellUsed.snoc {hist : List (HeapEntry ι)} {e : HeapEntry ι} (h : WellUsed hist)
    (he : Proper (liveBlocks hist) e.2.1) : WellUsed (hist ++ [e]) := by
  intro before e' hp
  rcases List.prefix_concat_iff.mp hp with hp | hp
  · obtain ⟨rfl, hlast⟩ := List.append_inj' hp rfl
    rw [List.cons.inj hlast |>.1]
    exact he
  · exact h before e' hp

@[simp] theorem liveBlocks_snoc (hist : List (HeapEntry ι)) (e : HeapEntry ι) :
    liveBlocks (hist ++ [e]) = liveStep (liveBlocks hist) e := by
  simp [liveBlocks]

@[simp] theorem costTop_snoc (hist : List (HeapEntry ι)) (e : HeapEntry ι) :
    costTop (hist ++ [e]) = costTop hist + e.2.1.cost := by
  simp [costTop, Nat.add_assoc]

/-- The pointer was passed to `kfree`. -/
def FreedIn (hist : List (HeapEntry ι)) (ptr : Nat) : Prop :=
  ∃ i r, (i, HeapCall.kfree ptr, r) ∈ hist

/-- What the calls `hist` leave behind: the list of live blocks, and `nblk` next to `it` for each
block that was linked there. -/
structure Tidy (hist : List (HeapEntry ι)) (m : Kmem σ) (cells : List Nat) : Prop where
  holds : HoldsLive m cells (liveBlocks hist)
  top : ∀ a ∈ cells, blockEnd m a ≤ costTop hist
  linked : ∀ i call it nblk, (i, call, HeapResult.behind it nblk) ∈ hist →
    FreedIn hist (it + kmemNodeSize) ∨ FreedIn hist (nblk + kmemNodeSize) ∨
      m.next it = some nblk ∧ it ∈ cells ∧ nblk ∈ cells

variable {hist : List (HeapEntry ι)} {cells : List Nat}

theorem tidy_init (ext : σ) : Tidy ([] : List (HeapEntry ι)) (kmemInit ext) [kmemHeapBase] where
  holds := holdsLive_init ext
  top := by
    intro a ha
    rw [List.mem_singleton.mp ha]
    simp [blockEnd, costTop, kmemInit, Kmem.sz]
  linked := by
    intro i call it nblk hmem
    cases hmem

theorem alignedFrom_le (e align : Nat) : alignedFrom e align ≤ e + align := by
  unfold alignedFrom
  split <;> omega

theorem raised_eq (m : Kmem σ) (top : Nat) :
    raised m top = { m with occupiedTo := max m.occupiedTo top } := by
  unfold raised
  split
  · rw [Nat.max_eq_right (by omega)]
  · rw [Nat.max_eq_left (by omega)]

theorem HeapList.placement_le {t : Nat} (h : HeapList m cells) (size align : Nat)
    (htop : ∀ a ∈ cells, blockEnd m a ≤ t) : placement m size align cells ≤ t + align := by
  have hfound := h.firstGap_found size align
  generalize firstGap m size align kmemHeapBase cells.tail = outcome at hfound
  cases hfound with
  | gap left right a _ hcells _ hplace =>
      rw [hplace]
      have := htop a (by simp [hcells])
      exact (alignedFrom_le _ align).trans (by omega)
  | tail left a hcells hplace =>
      rw [hplace]
      have := htop a (by simp [hcells])
      exact (alignedFrom_le _ align).trans (by omega)

/-- A request served behind the last node `it`. -/
theorem HeapList.tail_served {t it : Nat} (h : HeapList m cells)
    (htop : ∀ a ∈ cells, blockEnd m a ≤ t) (hal : 1 ≤ align)
    (hlt : t + kmemNodeSize + size + align < 2 ^ 64)
    (hret : Returns (fun fuel => gapSearch m size align fuel kmemHeapBase) (.tail it)) :
    ∃ left, cells = left ++ [it] ∧ m.next it = none ∧
      blockEnd m it ≤ gapBegin m it align ∧ gapBegin m it align ≤ t + align ∧
      LinkedIn m (linkTail (raised m (u64 (gapBegin m it align + kmemNodeSize + size))) it
        (gapBegin m it align) size) left it (gapBegin m it align) [] size ∧
      HeapList (linkTail (raised m (u64 (gapBegin m it align + kmemNodeSize + size))) it
        (gapBegin m it align) size) (left ++ [it, gapBegin m it align]) := by
  have hplaced := h.placement_le size align htop
  have hwrap : placement m size align cells + kmemNodeSize + size < 2 ^ 64 := by omega
  have hfirst : firstGap m size align kmemHeapBase cells.tail = .tail it :=
    Returns.unique ⟨cells.length, h.gapSearch_eq hal hwrap⟩ hret
  have hfound := h.firstGap_found size align
  rw [hfirst] at hfound
  cases hfound with
  | tail left _ hcells hplace =>
      subst hcells
      have hbegin : gapBegin m it align = alignedFrom (blockEnd m it) align :=
        gapBegin_eq (by omega)
      have hlow : blockEnd m it ≤ gapBegin m it align := by
        rw [hbegin]
        exact le_alignedFrom _ _
      have hnext : m.next it = none := by simpa using h.linked.next_of_append
      rw [hplace, ← hbegin] at hplaced hwrap
      rw [u64_of_lt hwrap, raised_eq]
      obtain ⟨hin, hlist⟩ := h.link_tail size
        (max m.occupiedTo (gapBegin m it align + kmemNodeSize + size)) hlow
        (Nat.le_max_right _ _) ⟨Nat.le_max_left _ _, by have := h.limit.2; omega⟩
      exact ⟨left, rfl, hnext, hlow, hplaced, hin, hlist⟩

theorem HoldsLive.request {m' : Kmem σ} {live : List (Nat × Nat)} {left right : List Nat}
    {it b : Nat} (h : HoldsLive m (left ++ it :: right) live)
    (hin : LinkedIn m m' left it b right size) (hlist : HeapList m' (left ++ it :: b :: right)) :
    HoldsLive m' (left ++ it :: b :: right) ((b + kmemNodeSize, size) :: live) := by
  have hperm := payloads_insert b hin.sz_old
  rw [hin.sz_new] at hperm
  exact ⟨hlist, hperm.trans (List.Perm.cons _ h.2)⟩

theorem liveStep_request {live : List (Nat × Nat)} {i : ι} {call : HeapCall} {r : HeapResult}
    {p : Nat} (hcall : call.request = some (size, align)) (hr : r.address = some p) :
    liveStep live (i, call, r) = (p, size) :: live := by
  cases call with
  | kmalloc s a =>
      cases hcall
      simp [liveStep, hr]
  | krealloc ptr s a =>
      cases ptr with
      | none =>
          cases hcall
          simp [liveStep, hr]
      | some ptr => cases hcall
  | kfree ptr => cases hcall

theorem Proper.one_le {live : List (Nat × Nat)} {call : HeapCall} (h : Proper live call)
    (hcall : call.request = some (size, align)) : 1 ≤ align := by
  cases call with
  | kmalloc s a => cases hcall; exact h
  | krealloc ptr s a =>
      cases ptr with
      | none => cases hcall; exact h
      | some ptr => cases hcall
  | kfree ptr => cases hcall

theorem HeapCall.cost_request {call : HeapCall} (h : call.request = some (size, align)) :
    call.cost = kmemNodeSize + size + align := by
  simp [HeapCall.cost, h]

theorem costTop_le_snoc (e : HeapEntry ι) : costTop hist ≤ costTop (hist ++ [e]) := by
  rw [costTop_snoc]
  omega

theorem FreedIn.snoc {ptr : Nat} (h : FreedIn hist ptr) (e : HeapEntry ι) :
    FreedIn (hist ++ [e]) ptr := by
  obtain ⟨i, r, hmem⟩ := h
  exact ⟨i, r, List.mem_append_left _ hmem⟩

/-- A pending block stays next to its predecessor when a request goes behind the last node. -/
theorem Tidy.served {i : ι} {call : HeapCall} {it : Nat} (h : Tidy hist m cells)
    (hproper : Proper (liveBlocks hist) call) (hcall : call.request = some (size, align))
    (hlt : costTop hist + call.cost < 2 ^ 64)
    (hret : Returns (fun fuel => gapSearch m size align fuel kmemHeapBase) (.tail it)) :
    Tidy (hist ++ [(i, call, .behind it (gapBegin m it align))])
      (linkTail (raised m (u64 (gapBegin m it align + kmemNodeSize + size))) it
        (gapBegin m it align) size) (cells ++ [gapBegin m it align]) := by
  rw [HeapCall.cost_request hcall] at hlt
  obtain ⟨left, rfl, hnext, hlow, hhigh, hin, hlist⟩ :=
    h.holds.1.tail_served h.top (hproper.one_le hcall) (by omega) hret
  generalize gapBegin m it align = b at *
  generalize hm : linkTail _ it b size = m' at *
  have hnodup := hlist.nodup
  have hitb : it ≠ b := by
    rintro rfl
    have := (List.nodup_append.mp hnodup).2.1
    simp at this
  have hfresh : ∀ x ∈ left ++ [it], x ≠ b := by
    intro x hx hxb
    rw [show left ++ [it, b] = (left ++ [it]) ++ [b] by simp] at hnodup
    exact (List.nodup_append.mp hnodup).2.2 x hx b (by simp) hxb
  constructor
  · rw [liveBlocks_snoc, liveStep_request hcall rfl, List.append_assoc]
    exact h.holds.request hin hlist
  · intro a ha
    rw [costTop_snoc, HeapCall.cost_request hcall]
    rcases List.mem_append.mp ha with ha | ha
    · have := h.top a ha
      unfold blockEnd at *
      rw [hin.sz_old a ha]
      omega
    · rw [List.mem_singleton.mp ha]
      unfold blockEnd
      rw [hin.sz_new]
      omega
  · intro j call' it' nblk hmem
    rcases List.mem_append.mp hmem with hmem | hmem
    · rcases h.linked j call' it' nblk hmem with hfreed | hfreed | ⟨hnext', hit', hnblk⟩
      · exact .inl (hfreed.snoc _)
      · exact .inr (.inl (hfreed.snoc _))
      · refine .inr (.inr ⟨?_, List.mem_append_left _ hit', List.mem_append_left _ hnblk⟩)
        have hne : it' ≠ it := by
          rintro rfl
          rw [hnext] at hnext'
          cases hnext'
        rw [hin.next_old it' hit' hne, hnext']
    · obtain ⟨rfl, rfl, rfl⟩ : j = i ∧ it' = it ∧ nblk = b := by
        simp only [List.mem_singleton, Prod.mk.injEq, HeapResult.behind.injEq] at hmem
        exact ⟨hmem.1, hmem.2.2⟩
      exact .inr (.inr ⟨hin.next_new.1, by simp, by simp⟩)

/-- And when another block is freed. -/
theorem Tidy.freed {i : ι} {m' : Kmem σ} {ptr : Nat} (h : Tidy hist m cells)
    (hproper : Proper (liveBlocks hist) (.kfree ptr))
    (hfree : kfree bootEnv m (ptr - kmemNodeSize + kmemNodeSize) = some m') :
    ∃ cells', Tidy (hist ++ [(i, .kfree ptr, .freed)]) m' cells' := by
  obtain ⟨old, hlive⟩ := hproper
  obtain ⟨left, it, b, right, rfl, rfl, rfl⟩ := h.holds.split hlive
  obtain ⟨m₁, hfree₁, hfreed⟩ := kfree_boot h.holds.1
  obtain rfl : m₁ = m' := by
    rw [Nat.add_sub_cancel, hfree₁] at hfree
    exact Option.some.inj hfree
  have hnodup := h.holds.1.nodup
  have hb : b ∉ left ++ it :: right := by
    intro hmem
    have hd := List.nodup_append.mp hnodup
    rcases List.mem_append.mp hmem with hmem | hmem
    · exact hd.2.2 b hmem b (by simp) rfl
    · rcases List.mem_cons.mp hmem with rfl | hmem
      · exact (List.nodup_cons.mp hd.2.1).1 (by simp)
      · exact (List.nodup_cons.mp (List.nodup_cons.mp hd.2.1).2).1 hmem
  refine ⟨left ++ it :: right, ⟨hfreed.heapList, ?_⟩, ?_, ?_⟩
  · have hperm := (payloads_insert b fun x _ => (hfreed.sz_old x).symm).symm.trans h.holds.2
    have hkept := hperm.filter fun p => p.1 ≠ b + kmemNodeSize
    have hself : (payloads m₁ (left ++ it :: right)).filter
        (fun p => p.1 ≠ b + kmemNodeSize) = payloads m₁ (left ++ it :: right) := by
      refine List.filter_eq_self.mpr fun p hp => ?_
      obtain ⟨x, hx, rfl⟩ := List.mem_map.mp hp
      have : x ≠ b := fun e => hb (e ▸ List.mem_of_mem_tail hx)
      simpa using this
    rw [List.filter_cons_of_neg (by simp), hself] at hkept
    rw [liveBlocks_snoc]
    exact hkept
  · intro a ha
    have := h.top a (by
      rcases List.mem_append.mp ha with ha | ha
      · exact List.mem_append_left _ ha
      · rcases List.mem_cons.mp ha with rfl | ha <;> simp [*])
    rw [costTop_snoc]
    unfold blockEnd at *
    rw [hfreed.sz_old]
    omega
  · intro j call it' nblk hmem
    rcases List.mem_append.mp hmem with hmem | hmem
    · rcases h.linked j call it' nblk hmem with hf | hf | ⟨hnext, hit', hnblk⟩
      · exact .inl (hf.snoc _)
      · exact .inr (.inl (hf.snoc _))
      · have hkept : ∀ x ∈ left ++ it :: b :: right, x ≠ b → x ∈ left ++ it :: right := by
          intro x hx hxb
          simpa [hxb] using hx
        by_cases hitb : it' = b
        · exact .inl ⟨i, .freed, by simp [hitb]⟩
        · by_cases hnb : nblk = b
          · exact .inr (.inl ⟨i, .freed, by simp [hnb]⟩)
          · refine .inr (.inr ⟨?_, hkept it' hit' hitb, hkept nblk hnblk hnb⟩)
            have hne : it' ≠ it := by
              rintro rfl
              have hsucc : m.next it' = some b := by
                simpa using h.holds.1.linked.next_of_append
              rw [hsucc] at hnext
              exact hnb (Option.some.inj hnext).symm
            rw [hfreed.next_old it' hne, hnext]
    · cases List.mem_singleton.mp hmem

/-- Calls that gave the lock back, one after the other. -/
theorem serial_tidy {ext : σ} (h : Serial heapCode (kmemInit ext) hist m) (huse : WellUsed hist)
    (hlt : costTop hist < 2 ^ 64) : ∃ cells, Tidy hist m cells := by
  induction h with
  | nil => exact ⟨_, tidy_init ext⟩
  | @snoc hist i call r l m' m'' _ hsolo hturn ih =>
      obtain ⟨hbefore, hproper⟩ := huse.init
      rw [costTop_snoc] at hlt
      obtain ⟨cells, htidy⟩ := ih hbefore (by omega)
      have hout := unlocked_of_solo hsolo hturn
      cases hout with
      | served hcall hret hm =>
          subst hm
          exact ⟨_, htidy.served hproper hcall hlt hret⟩
      | freed hfree => exact htidy.freed hproper hfree

theorem growHeap_boot (m : Kmem σ) (top : Nat) : growHeap bootEnv m top = some (raised m top) := by
  unfold growHeap raised
  split <;> rfl

/-- The call of one CPU that goes behind the last node. -/
theorem kmallocAlign_behind {it : Nat}
    (hret : Returns (fun fuel => gapSearch m size align fuel kmemHeapBase) (.tail it)) :
    Returns (fun fuel => kmallocAlign bootEnv fuel m size align)
      (linkTail (raised m (u64 (gapBegin m it align + kmemNodeSize + size))) it
        (gapBegin m it align) size, u64 (gapBegin m it align + kmemNodeSize)) := by
  obtain ⟨n, hn⟩ := hret
  refine ⟨n, fun fuel hfuel => ?_⟩
  simp only [kmallocAlign, spinlockLock_ignored bootEnv_spin, spinlockUnlock_ignored bootEnv_spin,
    Option.bind_eq_bind, Option.bind_some, hn fuel hfuel, growHeap_boot]

theorem HoldsLive.erase_eq {live : List (Nat × Nat)} {ptr old : Nat} (h : HoldsLive m cells live)
    (hptr : (ptr, old) ∈ live) : live.erase (ptr, old) = live.filter (·.1 ≠ ptr) := by
  have hfst : (live.map Prod.fst).Nodup := by
    rw [← (h.2.map Prod.fst).nodup_iff, payloads, List.map_map]
    exact ((List.tail_sublist cells).nodup h.1.nodup).map fun x y hxy =>
      Nat.add_right_cancel (m := kmemNodeSize) hxy
  rw [(List.Nodup.of_map Prod.fst hfst).erase_eq_filter]
  refine List.filter_congr fun p hp => ?_
  have : p = (ptr, old) ↔ p.1 = ptr :=
    ⟨fun e => congrArg Prod.fst e, fun e => List.inj_on_of_nodup_map hfst hp hptr e⟩
  rw [Bool.eq_iff_iff]
  simpa using this.not

/-- Calls that gave the lock back are a history of one CPU. -/
theorem serial_history {ext : σ} (h : Serial heapCode (kmemInit ext) hist m) (huse : WellUsed hist)
    (hlt : costTop hist < 2 ^ 64) : KmemHistory ext m (liveBlocks hist) := by
  induction h with
  | nil => exact .init
  | @snoc hist i call r l m' m'' hserial hsolo hturn ih =>
      obtain ⟨hbefore, hproper⟩ := huse.init
      rw [costTop_snoc] at hlt
      have hlow : costTop hist < 2 ^ 64 := by omega
      obtain ⟨cells, htidy⟩ := serial_tidy hserial hbefore hlow
      have hpast := ih hbefore hlow
      rw [liveBlocks_snoc]
      have hout := unlocked_of_solo hsolo hturn
      cases hout with
      | @served _ size align it hcall hret hm =>
          rw [HeapCall.cost_request hcall] at hlt
          have hplace := htidy.holds.1.placement_le size align htidy.top
          obtain ⟨left, hcells, -, -, hhigh, -⟩ :=
            htidy.holds.1.tail_served htidy.top (hproper.one_le hcall) (by omega) hret
          have hrun := kmallocAlign_behind hret
          rw [u64_of_lt (show gapBegin m' it align + kmemNodeSize < 2 ^ 64 by omega), ← hm] at hrun
          rw [liveStep_request hcall rfl]
          exact .kmalloc hpast (hproper.one_le hcall) (htidy.holds.1.noWrap (by omega)) hrun
      | @freed ptr hfree =>
          obtain ⟨old, hptr⟩ := hproper
          obtain ⟨left, it, b, right, -, rfl, -⟩ := htidy.holds.split hptr
          rw [Nat.add_sub_cancel] at hfree
          have := KmemHistory.kfree hpast hptr hfree
          rwa [htidy.holds.erase_eq hptr] at this

theorem serial_pointer {i : ι} {call : HeapCall} {p : Nat} {m₀ : Kmem σ}
    (h : Serial heapCode m₀ hist m) : (i, call, HeapResult.pointer p) ∉ hist := by
  induction h with
  | nil => exact List.not_mem_nil
  | snoc _ hsolo hturn ih =>
      intro hmem
      rcases List.mem_append.mp hmem with hmem | hmem
      · exact ih hmem
      · have hout := unlocked_of_solo hsolo hturn
        cases List.mem_singleton.mp hmem
        cases hout

/-- The block a call links into a gap, from its first write on. -/
def HeapPlace.gapBlock : HeapPlace → Option Nat
  | .gapPrev _ b _ _ => some b
  | .gapFill _ b _ _ => some b
  | .gapReturn b => some b
  | _ => none

/-- What a call does to the link between two nodes of the list on its way. -/
theorem Tidy.link_solo {call : HeapCall} {it nblk : Nat} (h : Tidy hist m cells)
    (hproper : Proper (liveBlocks hist) call) (hlt : costTop hist + call.cost < 2 ^ 64)
    (hsolo : Solo heapCode (heapEnter call) m l m') (hnext : m.next it = some nblk)
    (hit : it ∈ cells) (hkept : call ≠ .kfree (nblk + kmemNodeSize)) :
    m'.next it = some nblk ∨ ∃ b, l.gapBlock = some b ∧ m'.next it = some b := by
  obtain ⟨size, align, hcall, hat⟩ | ⟨ptr, rfl, hat⟩ | ⟨ptr, size, align, rfl, hat⟩ :=
    solo_cases hsolo
  · rw [HeapCall.cost_request hcall] at hlt
    have hplace := h.holds.1.placement_le size align h.top
    have hal := hproper.one_le hcall
    have htail : ∀ it', Returns (fun fuel => gapSearch m size align fuel kmemHeapBase)
        (.tail it') → it ≠ it' ∧ it ≠ gapBegin m it' align := by
      intro it' hret
      obtain ⟨left, rfl, hlast, hlow, -, -, hlist⟩ :=
        h.holds.1.tail_served h.top hal (by omega) hret
      have hnodup := hlist.nodup
      refine ⟨?_, ?_⟩
      · rintro rfl
        rw [hlast] at hnext
        cases hnext
      · intro e
        rw [show left ++ [it', gapBegin m it' align] = (left ++ [it']) ++ [gapBegin m it' align] by
          simp] at hnodup
        exact (List.nodup_append.mp hnodup).2.2 it hit _ (by simp) e
    cases hat with
    | walk _ => exact .inl hnext
    | gapNext _ => exact .inl hnext
    | @gapPrev it' b a hret =>
        by_cases hii : it = it'
        · exact .inr ⟨b, rfl, by simp [hii]⟩
        · exact .inl (by simpa [hii] using hnext)
    | @gapFill it' b a hret =>
        by_cases hii : it = it'
        · exact .inr ⟨b, rfl, by simp [hii]⟩
        · exact .inl (by simpa [hii] using hnext)
    | @gapReturn it' b a hret =>
        have hfirst : firstGap m size align kmemHeapBase cells.tail = .gap it' b a :=
          Returns.unique ⟨cells.length, h.holds.1.gapSearch_eq hal (by omega)⟩ hret
        obtain ⟨left, right, rfl, halloc, -⟩ := h.holds.1.gap_allocated hal hfirst
        by_cases hii : it = it'
        · exact .inr ⟨b, rfl, by rw [hii]; exact halloc.linkedIn.next_new.1⟩
        · exact .inl ((halloc.linkedIn.next_old it hit hii).trans hnext)
    | grow _ => exact .inl hnext
    | tailNext _ =>
        rw [raised_eq]
        exact .inl hnext
    | tailFill hret =>
        rw [raised_eq, Kmem.next_setNext, if_neg (htail _ hret).1]
        exact .inl hnext
    | tailUnlock hret =>
        have hne := htail _ hret
        rw [raised_eq]
        refine .inl ?_
        simp only [linkTail, Kmem.next_setNode, Kmem.next_setNext, if_neg hne.1, if_neg hne.2]
        exact hnext
  · obtain ⟨old, hptr⟩ := hproper
    obtain ⟨left, pre, b, right, rfl, rfl, -⟩ := h.holds.split hptr
    rw [Nat.add_sub_cancel] at hat
    have hprev := (Segment.links_of_append h.holds.1.linked).1
    have hpre : it ≠ pre := by
      rintro rfl
      have hsucc : m.next it = some b := by simpa using h.holds.1.linked.next_of_append
      rw [hsucc] at hnext
      exact hkept (by rw [Option.some.inj hnext])
    cases hat with
    | freeNext => exact .inl hnext
    | freePrev =>
        simp only [hprev]
        exact .inl (by simpa [hpre] using hnext)
    | freeUnlock _ hfree =>
        obtain ⟨m₁, hfree₁, hfreed⟩ := kfree_boot h.holds.1
        obtain rfl : m₁ = m' := Option.some.inj (hfree₁.symm.trans hfree)
        exact .inl ((hfreed.next_old it hpre).trans hnext)
  · cases hat with
    | resize => exact .inl hnext
    | resized _ _ _ => exact .inl (by simpa using hnext)
    | spin => exact .inl hnext

/-! ## Every interleaving -/

variable [DecidableEq ι] {w w' : HeapWorld ι σ}

/-- How the heap stands between the calls of all CPUs: as one CPU leaves it that makes the finished
calls, but for the steps of the CPU inside, or of the one that left with the lock. -/
inductive HeapStands (ext : σ) (hist : List (HeapEntry ι)) (w : HeapWorld ι σ) : Prop
  | free (hword : w.word = false) (hout : ∀ j, ¬ w.Inside j)
      (hpast : KmemHistory ext w.shared (liveBlocks hist))
  | held (i : ι) (call : HeapCall) (l : HeapPlace) (m : Kmem σ)
      (hin : w.phase i = .inside call l) (hout : ∀ j, j ≠ i → ¬ w.Inside j)
      (hpast : KmemHistory ext m (liveBlocks hist))
      (hsolo : Solo heapCode (heapEnter call) m l w.shared)
  | lost (before : List (HeapEntry ι)) (i : ι) (call : HeapCall) (p : Nat) (m : Kmem σ)
      (hlast : hist = before ++ [(i, call, .pointer p)]) (hout : ∀ j, ¬ w.Inside j)
      (hpast : KmemHistory ext m (liveBlocks before))
      (hleft : Left m w.shared call (.pointer p))

theorem Left.pointer {call : HeapCall} {r : HeapResult} (h : Left m m' call r) :
    ∃ p, r = .pointer p := by
  cases h with
  | served => exact ⟨_, rfl⟩
  | resized => exact ⟨_, rfl⟩

/-- The request of the CPU inside, if any, is proper too, and the heap has room for it. -/
def RoomInside (hist : List (HeapEntry ι)) (w : HeapWorld ι σ) : Prop :=
  ∀ i call l, w.phase i = .inside call l →
    Proper (liveBlocks hist) call ∧ costTop hist + call.cost < 2 ^ 64

/-- The pointer was passed to `kfree` by a call that has finished or is inside. -/
def PassedToKfree (hist : List (HeapEntry ι)) (w : HeapWorld ι σ) (ptr : Nat) : Prop :=
  FreedIn hist ptr ∨ ∃ i l, w.phase i = .inside (.kfree ptr) l

/-- A CPU is putting `b` into a gap, or has left with the lock for having done so. -/
def FillsGap (hist : List (HeapEntry ι)) (w : HeapWorld ι σ) (b : Nat) : Prop :=
  (∃ i call l, w.phase i = .inside call l ∧ l.gapBlock = some b) ∨
    ∃ before i call, hist = before ++ [(i, call, .pointer (u64 (b + kmemNodeSize)))]

theorem gapBlock_leave {b : Nat} {r : HeapResult} (hl : l.gapBlock = some b)
    (hturn : heapTurn m l = .leave r) : r = .pointer (u64 (b + kmemNodeSize)) := by
  cases l with
  | gapReturn c =>
      cases hl
      cases hturn
      rfl
  | gapPrev => cases hturn
  | gapFill => cases hturn
  | _ => cases hl

/-- Two CPUs that ask for a block at the same time, the first for an aligned one. -/
def twoRequests : HeapWorld Bool Unit :=
  ((World.initial (kmemInit ())).setPhase false (.spinning (.kmalloc 8 256))).setPhase true
    (.spinning (.kmalloc 8 1))

/-- The second CPU runs between the unlock of the first one and its read. -/
def overtakenOrder : List Bool := List.replicate 6 false ++ List.replicate 6 true

def overtaken : List (HeapEntry Bool) × HeapWorld Bool Unit :=
  twoRequests.play heapCode overtakenOrder

theorem overtaken_run :
    Run heapCode (World.initial (kmemInit ())) overtaken.1 overtaken.2 := by
  have hcalls : Run heapCode (World.initial (kmemInit ())) [] twoRequests :=
    .snoc (.snoc .nil (.call false (HeapCall.kmalloc 8 256) rfl))
      (.call true (HeapCall.kmalloc 8 1) rfl)
  exact hcalls.play overtakenOrder

theorem overtaken_hist :
    overtaken.1 = [(false, .kmalloc 8 256, .behind kmemHeapBase 0x2000E8),
      (true, .kmalloc 8 1, .pointer 0x200030)] := rfl

theorem overtaken_wellUsed : WellUsed overtaken.1 := by
  rw [overtaken_hist]
  exact @WellUsed.snoc _ [_] _ (@WellUsed.snoc _ [] _ .nil (by decide : 1 ≤ 256))
    (by decide : 1 ≤ 1)

theorem overtaken_costTop : costTop overtaken.1 < 2 ^ 64 := by
  rw [overtaken_hist]
  decide

end UntitledOs.Kernlib
