import Mathlib.Order.Bounds.Basic
import UntitledOs.Kernlib.Kmalloc
import UntitledOs.Lib.Fuel

/-!
# First fit

`kmalloc_align` takes the first gap of the list that can hold the block, and the
place behind the last node when there is none.
-/

namespace UntitledOs.Kernlib

open UntitledOs.Lib

variable {σ : Type} {m m' : Kmem σ} {env : KmemEnv σ} {cells rest : List Nat}
  {size align i it a b e : Nat}

/-- Where a header may stand behind a block that ends at `e`. -/
def HeaderPlaces (e align : Nat) : Set Nat := {b | e ≤ b ∧ align ∣ b + kmemNodeSize}

/-- Between node `i` and the next one a block can be placed, with its header at `b`. -/
def GapFits (m : Kmem σ) (size align : Nat) (cells : List Nat) (i b : Nat) : Prop :=
  ∃ it a, cells[i]? = some it ∧ cells[i + 1]? = some a ∧
    IsLeast (HeaderPlaces (blockEnd m it) align) b ∧ b + kmemNodeSize + size ≤ a

theorem isLeast_alignedFrom (hal : 1 ≤ align) (e : Nat) :
    IsLeast (HeaderPlaces e align) (alignedFrom e align) := by
  refine ⟨⟨le_alignedFrom e align, dvd_alignedFrom e hal⟩, ?_⟩
  rintro b ⟨hb, hdvd⟩
  have := alignedFrom_least (e := e) hdvd (by omega)
  omega

theorem gapFits_zero (hal : 1 ≤ align) :
    GapFits m size align (it :: a :: rest) 0 b ↔
      b = alignedFrom (blockEnd m it) align ∧ b + kmemNodeSize + size ≤ a := by
  constructor
  · rintro ⟨x, y, hx, hy, hleast, hfit⟩
    obtain rfl : it = x := by simpa using hx
    obtain rfl : a = y := by simpa using hy
    exact ⟨hleast.unique (isLeast_alignedFrom hal _), hfit⟩
  · rintro ⟨rfl, hfit⟩
    exact ⟨it, a, rfl, rfl, isLeast_alignedFrom hal _, hfit⟩

theorem gapFits_succ :
    GapFits m size align (it :: rest) (i + 1) b ↔ GapFits m size align rest i b := by
  simp [GapFits]

theorem not_gapFits_single : ¬ GapFits m size align [it] i b := by
  rintro ⟨x, y, -, hy, -⟩
  simp at hy

theorem firstGap_first (hal : 1 ≤ align) (hfit : GapFits m size align (it :: rest) i b)
    (hfirst : ∀ j < i, ∀ b', ¬ GapFits m size align (it :: rest) j b') :
    ∃ x y, firstGap m size align it rest = .gap x b y ∧ (it :: rest)[i]? = some x := by
  induction rest generalizing it i with
  | nil => exact absurd hfit not_gapFits_single
  | cons a rest ih =>
      rw [firstGap]
      cases i with
      | zero =>
          obtain ⟨rfl, hle⟩ := (gapFits_zero hal).mp hfit
          exact ⟨it, a, by rw [if_pos hle], rfl⟩
      | succ i =>
          have hnot := hfirst 0 (Nat.succ_pos i) (alignedFrom (blockEnd m it) align)
          rw [gapFits_zero hal] at hnot
          rw [if_neg fun hle => hnot ⟨rfl, hle⟩]
          refine ih (gapFits_succ.mp hfit) fun j hj b' hb' => ?_
          exact hfirst (j + 1) (by omega) b' (gapFits_succ.mpr hb')

theorem firstGap_last (hal : 1 ≤ align)
    (hnone : ∀ i b', ¬ GapFits m size align (it :: rest) i b') :
    ∃ x, firstGap m size align it rest = .tail x ∧ (it :: rest).getLast? = some x := by
  induction rest generalizing it with
  | nil => exact ⟨it, rfl, rfl⟩
  | cons a rest ih =>
      have hnot := hnone 0 (alignedFrom (blockEnd m it) align)
      rw [gapFits_zero hal] at hnot
      rw [firstGap, if_neg fun hle => hnot ⟨rfl, hle⟩, List.getLast?_cons_cons]
      exact ih fun i b' hb' => hnone (i + 1) b' (gapFits_succ.mpr hb')

theorem spinlockLock_free (hfree : env.spin = true → m.kmemSpinlock = false) :
    ∃ m₁, spinlockLock env m = some m₁ ∧ m₁.node = m.node ∧ m₁.occupiedTo = m.occupiedTo := by
  cases hspin : env.spin with
  | false => exact ⟨m, spinlockLock_ignored hspin m, rfl, rfl⟩
  | true =>
      refine ⟨{ m with kmemSpinlock := true }, ?_, rfl, rfl⟩
      rw [spinlockLock, if_pos hspin, hfree hspin]
      rfl

theorem spinlockUnlock_frame (env : KmemEnv σ) (m : Kmem σ) :
    (spinlockUnlock env m).node = m.node ∧ (spinlockUnlock env m).occupiedTo = m.occupiedTo := by
  unfold spinlockUnlock
  split <;> exact ⟨rfl, rfl⟩

theorem HeapList.congr (h : HeapList m cells) (hnode : m'.node = m.node)
    (hocc : m'.occupiedTo = m.occupiedTo) : HeapList m' cells := by
  obtain ⟨node, occ, lock, ext⟩ := m
  obtain ⟨node', occ', lock', ext'⟩ := m'
  obtain rfl : node' = node := hnode
  obtain rfl : occ' = occ := hocc
  exact ⟨h.head, h.head_sz, h.linked, h.apart, h.below, h.limit⟩

theorem GapFits.congr (hnode : m'.node = m.node) :
    GapFits m' size align cells i b ↔ GapFits m size align cells i b := by
  have hend : ∀ x, blockEnd m' x = blockEnd m x := fun x => by
    rw [blockEnd, blockEnd, Kmem.sz, Kmem.sz, hnode]
  simp only [GapFits, hend]

theorem insertIdx_behind {left right : List Nat} (hnodup : (left ++ it :: right).Nodup)
    (hi : (left ++ it :: right)[i]? = some it) :
    (left ++ it :: right).insertIdx (i + 1) b = left ++ it :: b :: right := by
  have hlength : (left ++ it :: right)[left.length]? = some it := by simp
  have hlt : i < (left ++ it :: right).length := (List.getElem?_eq_some_iff.mp hi).1
  obtain rfl := (List.getElem?_inj hlt hnodup).mp (hi.trans hlength.symm)
  clear hnodup hi hlength hlt
  induction left with
  | nil => rfl
  | cons x left ih => simpa using ih

/-- Every call of the installed map function returns, and pages are not empty. -/
def MapAnswers (env : KmemEnv σ) : Prop :=
  ∀ map, env.mapFunctions = some map →
    0 < map.memUnitSize ∧ ∀ vaddr usize m, (map.vmemoryMapAlloc vaddr usize m).isSome

theorem growHeap_isSome (h : MapAnswers env) (m : Kmem σ) (top : Nat) :
    (growHeap env m top).isSome := by
  unfold growHeap
  split
  · cases hmap : env.mapFunctions with
    | none => rfl
    | some map =>
        dsimp only
        rw [Option.isSome_map]
        split
        · exact (h map hmap).2 _ _ _
        · rfl
  · rfl

theorem kmallocAlign_first (h : HeapList m cells) (hal : 1 ≤ align)
    (hfree : env.spin = true → m.kmemSpinlock = false) (hfit : GapFits m size align cells i b)
    (hfirst : ∀ j < i, ∀ b', ¬ GapFits m size align cells j b') :
    ∃ m', Returns (fun fuel => kmallocAlign env fuel m size align) (m', b + kmemNodeSize) ∧
      HeapList m' (cells.insertIdx (i + 1) b) ∧ m'.sz b = size ∧
      m'.occupiedTo = m.occupiedTo := by
  obtain ⟨m₁, hlock, hnode, hocc⟩ := spinlockLock_free hfree
  have h₁ := h.congr hnode hocc
  rw [h.eq_cons, ← GapFits.congr hnode] at hfit
  simp only [← GapFits.congr hnode] at hfirst
  rw [h.eq_cons] at hfirst
  obtain ⟨it, a, hgap, hit⟩ := firstGap_first hal hfit hfirst
  rw [← h.eq_cons] at hit
  obtain ⟨left, right, rfl, hall, hlt⟩ := h₁.gap_allocated hal hgap
  have hsearch := h₁.gapSearch_eq hal (by rwa [← hall.place])
  refine ⟨linkGap m₁ it b a size, ⟨(left ++ it :: a :: right).length, fun fuel hfuel => ?_⟩, ?_, hall.linkedIn.sz_new, ?_⟩
  · simp only [kmallocAlign, hlock, hsearch fuel hfuel, hgap, Option.bind_eq_bind, Option.bind_some]
    rw [u64_of_lt (show b + kmemNodeSize < 2 ^ 64 by omega)]
  · rw [insertIdx_behind h.nodup hit]
    exact hall.heapList
  · simpa [linkGap] using hocc

/-- What is left behind the last node `it` by a block at `b`. -/
structure PlacedLast (env : KmemEnv σ) (m m' : Kmem σ) (cells : List Nat) (it b size : Nat) :
    Prop where
  sz : m'.sz b = size
  next : m'.next it = some b
  last : m'.next b = none
  prev : m'.prev b = some it
  /-- `occupied_to` stays unless the block ends above it. -/
  fits : b + kmemNodeSize + size ≤ m.occupiedTo →
    m'.occupiedTo = m.occupiedTo ∧ HeapList m' (cells ++ [b])
  grows : env.mapFunctions = none → m.occupiedTo < b + kmemNodeSize + size →
    m'.occupiedTo = b + kmemNodeSize + size ∧ HeapList m' (cells ++ [b])

/-- The block is linked in behind `it` in the heap that growing has left. -/
theorem placedLast {m₁ grown : Kmem σ} {left : List Nat} (h : HeapList m₁ (left ++ [it]))
    (hocc : m₁.occupiedTo = m.occupiedTo) (hlow : blockEnd m₁ it ≤ b)
    (hwrap : b + kmemNodeSize + size < 2 ^ 64)
    (hgrow : growHeap env m₁ (b + kmemNodeSize + size) = some grown) :
    PlacedLast env m (spinlockUnlock env (linkTail grown it b size)) (left ++ [it]) it b size := by
  have hunlock := spinlockUnlock_frame env (linkTail grown it b size)
  have hne : it ≠ b := by
    unfold blockEnd kmemNodeSize at hlow
    omega
  have hlist : ∀ top, b + kmemNodeSize + size ≤ top → m₁.occupiedTo ≤ top → top < 2 ^ 64 →
      grown = { m₁ with occupiedTo := top } →
      HeapList (spinlockUnlock env (linkTail grown it b size)) (left ++ [it] ++ [b]) := by
    rintro top htop hle hlt rfl
    rw [List.append_assoc]
    exact (h.link_tail size top hlow htop ⟨hle, hlt⟩).2.congr hunlock.1 hunlock.2
  refine ⟨?_, ?_, ?_, ?_, fun hfits => ?_, fun hmap hgrows => ?_⟩
  · rw [Kmem.sz, hunlock.1]
    simp [linkTail]
  · rw [Kmem.next, hunlock.1]
    simp [linkTail, Kmem.setNext, hne]
  · rw [Kmem.next, hunlock.1]
    simp [linkTail]
  · rw [Kmem.prev, hunlock.1]
    simp [linkTail]
  · rw [growHeap, if_neg (by omega), Option.some.injEq] at hgrow
    subst hgrow
    exact ⟨hunlock.2.trans hocc, hlist m₁.occupiedTo (by omega) le_rfl h.limit.2 rfl⟩
  · rw [growHeap, if_pos (by omega), hmap, Option.some.injEq] at hgrow
    subst hgrow
    exact ⟨hunlock.2, hlist (b + kmemNodeSize + size) le_rfl (by omega) hwrap rfl⟩

theorem kmallocAlign_last (h : HeapList m cells) (hal : 1 ≤ align)
    (hfree : env.spin = true → m.kmemSpinlock = false)
    (hnone : ∀ i b', ¬ GapFits m size align cells i b') (hlast : cells.getLast? = some it)
    (hleast : IsLeast (HeaderPlaces (blockEnd m it) align) b)
    (hwrap : b + kmemNodeSize + size < 2 ^ 64) :
    (∀ m' ptr, Returns (fun fuel => kmallocAlign env fuel m size align) (m', ptr) →
      ptr = b + kmemNodeSize ∧ PlacedLast env m m' cells it b size) ∧
    (MapAnswers env → ∃ r, Returns (fun fuel => kmallocAlign env fuel m size align) r) := by
  obtain ⟨m₁, hlock, hnode, hocc⟩ := spinlockLock_free hfree
  have h₁ := h.congr hnode hocc
  have hend : blockEnd m₁ it = blockEnd m it := by
    rw [blockEnd, blockEnd, Kmem.sz, Kmem.sz, hnode]
  simp only [← GapFits.congr hnode] at hnone
  rw [h.eq_cons] at hnone
  obtain ⟨x, htail, hx⟩ := firstGap_last hal hnone
  rw [← h.eq_cons, hlast, Option.some.injEq] at hx
  subst hx
  rw [← hend] at hleast
  have hb := hleast.unique (isLeast_alignedFrom hal _)
  have hplace : placement m₁ size align cells = b := by
    have hfound := h₁.firstGap_found size align
    rw [htail] at hfound
    cases hfound with
    | tail left _ _ hplace => rw [hplace, hb]
  have hcall : ∀ fuel ≥ cells.length, kmallocAlign env fuel m size align =
      (growHeap env m₁ (b + kmemNodeSize + size)).map fun grown =>
        (spinlockUnlock env (linkTail grown it b size), b + kmemNodeSize) := by
    intro fuel hfuel
    have hbegin : gapBegin m₁ it align = b := by
      rw [hb]
      exact gapBegin_eq (by omega)
    simp only [kmallocAlign, hlock, h₁.gapSearch_eq hal (hplace ▸ hwrap) fuel hfuel, htail,
      Option.bind_eq_bind, Option.bind_some, hbegin, u64_of_lt hwrap,
      u64_of_lt (show b + kmemNodeSize < 2 ^ 64 by omega)]
    cases growHeap env m₁ _ <;> rfl
  obtain ⟨left, rfl⟩ := List.getLast?_eq_some_iff.mp hlast
  constructor
  · rintro m' ptr ⟨n, hn⟩
    have hret := hn (max n (left ++ [it]).length) (le_max_left _ _)
    dsimp only at hret
    rw [hcall _ (le_max_right _ _)] at hret
    obtain ⟨grown, hgrow, hpair⟩ := Option.map_eq_some_iff.mp hret
    obtain ⟨rfl, rfl⟩ := Prod.mk.inj hpair
    exact ⟨rfl, placedLast h₁ hocc hleast.1.1 hwrap hgrow⟩
  · intro hmap
    obtain ⟨grown, hgrow⟩ := Option.isSome_iff_exists.mp
      (growHeap_isSome hmap m₁ (b + kmemNodeSize + size))
    refine ⟨(spinlockUnlock env (linkTail grown it b size), b + kmemNodeSize),
      (left ++ [it]).length, fun fuel hfuel => ?_⟩
    dsimp only
    rw [hcall fuel hfuel, hgrow]
    rfl

/--
`kmalloc_align` is first fit: the block goes into the first gap that can take
it, or else behind the last node, and only then may `occupied_to` move.
-/
theorem kmalloc_align_first_fit (h : HeapList m cells) (hal : 1 ≤ align)
    (hfree : env.spin = true → m.kmemSpinlock = false) (size : Nat) :
    (∀ i b, GapFits m size align cells i b → (∀ j < i, ∀ b', ¬ GapFits m size align cells j b') →
      ∃ m', Returns (fun fuel => kmallocAlign env fuel m size align) (m', b + kmemNodeSize) ∧
        HeapList m' (cells.insertIdx (i + 1) b) ∧ m'.sz b = size ∧
        m'.occupiedTo = m.occupiedTo) ∧
    ∀ it b, (∀ i b', ¬ GapFits m size align cells i b') → cells.getLast? = some it →
      IsLeast (HeaderPlaces (blockEnd m it) align) b → b + kmemNodeSize + size < 2 ^ 64 →
      (∀ m' ptr, Returns (fun fuel => kmallocAlign env fuel m size align) (m', ptr) →
        ptr = b + kmemNodeSize ∧ PlacedLast env m m' cells it b size) ∧
      (MapAnswers env → ∃ r, Returns (fun fuel => kmallocAlign env fuel m size align) r) := by
  constructor
  · intro i b hfit hfirst
    exact kmallocAlign_first h hal hfree hfit hfirst
  · intro it b hnone hlast hleast hwrap
    exact kmallocAlign_last h hal hfree hnone hlast hleast hwrap

/-- Two blocks of 8 bytes with room for one of 16 between them. -/
def gappedHeap : Kmem Unit :=
  { node := fun a =>
      if a = 0x200000 then ⟨0, some 0x200018, none⟩
      else if a = 0x200018 then ⟨8, some 0x200060, some 0x200000⟩
      else ⟨8, none, some 0x200018⟩
    occupiedTo := 0x200080
    kmemSpinlock := false
    ext := () }

theorem gappedHeap_heapList : HeapList gappedHeap [0x200000, 0x200018, 0x200060] :=
  ⟨rfl, rfl, ⟨rfl, rfl, rfl, rfl, rfl, rfl, trivial⟩, by decide, by decide, by decide⟩

theorem kmalloc_align_first_fit_gapped :
    ∃ m', Returns (fun fuel => kmallocAlign ⟨true, none⟩ fuel gappedHeap 16 8) (m', 0x200050) ∧
      HeapList m' [0x200000, 0x200018, 0x200038, 0x200060] ∧ m'.occupiedTo = 0x200080 := by
  have hgap : GapFits gappedHeap 16 8 [0x200000, 0x200018, 0x200060] 1 0x200038 :=
    ⟨0x200018, 0x200060, rfl, rfl, isLeast_alignedFrom (by decide) 0x200038, by decide⟩
  have hfirst : ∀ j < 1, ∀ b, ¬ GapFits gappedHeap 16 8 [0x200000, 0x200018, 0x200060] j b := by
    intro j hj b hb
    obtain rfl : j = 0 := by omega
    obtain ⟨rfl, hle⟩ := (gapFits_zero (by decide)).mp hb
    exact absurd hle (by decide)
  obtain ⟨m', hret, hlist, -, hocc⟩ := (@kmalloc_align_first_fit _ _ ⟨true, none⟩ _ _
    gappedHeap_heapList (by decide) (fun _ => rfl) 16).1 1 0x200038 hgap hfirst
  exact ⟨m', hret, hlist, hocc⟩

end UntitledOs.Kernlib
