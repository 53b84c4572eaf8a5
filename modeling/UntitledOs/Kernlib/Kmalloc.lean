import UntitledOs.Kernlib.HeapList

/-!
# `kmalloc_align` against the list

The two ways a request ends, for any surroundings in which lock calls do
nothing: in a gap of the list, or behind its last node after the heap has
grown.
-/

namespace UntitledOs.Kernlib

open UntitledOs.Lib

variable {σ : Type}

theorem linkGap_linkedIn (m : Kmem σ) (size : Nat) {left right : List Nat}
    {it a b : Nat} (hnodup : (left ++ it :: a :: right).Nodup)
    (hb : b ∉ left ++ it :: a :: right) :
    LinkedIn m (linkGap m it b a size) left it b (a :: right) size := by
  have hne : ∀ x ∈ left ++ it :: a :: right, x ≠ b := by
    rintro x hx rfl
    exact hb hx
  have hit := hne it (by simp)
  have ha := hne a (by simp)
  have hita : it ≠ a := by
    rintro rfl
    have := (List.nodup_append.mp hnodup).2.1
    simp at this
  constructor
  · simp [linkGap]
  · intro x hx
    simp [linkGap, hne x hx]
  · simp [linkGap, hit]
  · simp [linkGap]
  · intro x hx
    simp only [List.head?_cons, Option.some.injEq] at hx
    subst hx
    simp [linkGap, ha]
  · intro x hx hxit
    simp [linkGap, hne x hx, hxit]
  · intro x hx hxa
    have hxa' : x ≠ a := by
      rintro rfl
      exact hxa rfl
    simp [linkGap, hne x hx, hxa']

theorem linkTail_linkedIn (m : Kmem σ) (size : Nat) {left : List Nat}
    {it b : Nat}
    (hb : b ∉ left ++ [it]) :
    LinkedIn m (linkTail m it b size) left it b [] size := by
  have hne : ∀ x ∈ left ++ [it], x ≠ b := by
    rintro x hx rfl
    exact hb hx
  have hit := hne it (by simp)
  constructor
  · simp [linkTail]
  · intro x hx
    simp [linkTail, hne x hx]
  · simp [linkTail, hit]
  · simp [linkTail]
  · simp
  · intro x hx hxit
    simp [linkTail, hne x hx, hxit]
  · intro x hx _
    simp [linkTail, hne x hx]

/-- Addresses between two neighbours of the list are not nodes of it. -/
theorem HeapList.not_mem_of_between {m : Kmem σ} {left right : List Nat}
    {it b : Nat} (h : HeapList m (left ++ it :: right))
    (hlow : blockEnd m it ≤ b) (hhigh : ∀ c ∈ right, b < c) :
    b ∉ left ++ it :: right := by
  intro hb
  have hap := h.apart
  rw [Apart, List.pairwise_append] at hap
  have hit : it < blockEnd m it := by
    unfold blockEnd kmemNodeSize
    omega
  rcases List.mem_append.mp hb with hb | hb
  · have := hap.2.2 b hb it (by simp)
    unfold blockEnd at *
    omega
  · rcases List.mem_cons.mp hb with rfl | hb
    · omega
    · exact absurd (hhigh b hb) (lt_irrefl b)

/-- What a call of `kmalloc_align` that returns `b + 24` has done. -/
structure Allocated (m m' : Kmem σ) (left : List Nat) (it b : Nat)
    (right : List Nat) (size align : Nat) : Prop where
  linkedIn : LinkedIn m m' left it b right size
  heapList : HeapList m' (left ++ it :: b :: right)
  aligned : align ∣ b + kmemNodeSize
  place : b = placement m size align (left ++ it :: right)

/-- The walk of `kmalloc_align` over a well-formed list. -/
theorem HeapList.gapSearch_eq {m : Kmem σ} {cells : List Nat}
    {size align : Nat} (h : HeapList m cells) (hal : 1 ≤ align)
    (hwrap : placement m size align cells + kmemNodeSize + size < 2 ^ 64)
    (fuel : Nat) (hfuel : cells.length ≤ fuel) :
    gapSearch m size align fuel kmemHeapBase =
      some (firstGap m size align kmemHeapBase cells.tail) := by
  have hcons := h.eq_cons
  have hlinked := h.linked
  have hapart := h.apart
  rw [hcons] at hlinked hapart hwrap
  refine Kernlib.gapSearch_eq hal hlinked hapart ?_ hwrap ?_
  · intro a ha
    have := h.blockEnd_lt (List.mem_of_mem_tail ha)
    unfold blockEnd at this
    omega
  · rw [hcons, List.length_cons] at hfuel
    omega

theorem HeapList.firstGap_found {m : Kmem σ} {cells : List Nat}
    (h : HeapList m cells) (size align : Nat) :
    FoundPlace m size align cells
      (firstGap m size align kmemHeapBase cells.tail) := by
  have hfound := Kernlib.firstGap_found m size align kmemHeapBase cells.tail
  rwa [← h.eq_cons] at hfound

/-- The gap between `it` and `a` takes the block. -/
theorem HeapList.gap_allocated {m : Kmem σ} {cells : List Nat} {size align it b a : Nat}
    (h : HeapList m cells) (hal : 1 ≤ align)
    (hgap : firstGap m size align kmemHeapBase cells.tail = .gap it b a) :
    ∃ left right, cells = left ++ it :: a :: right ∧
      Allocated m (linkGap m it b a size) left it b (a :: right) size align ∧
      b + kmemNodeSize + size < 2 ^ 64 := by
  have hfound := h.firstGap_found size align
  rw [hgap] at hfound
  cases hfound with
  | gap left right _ _ hcells hfit hplace =>
      subst hcells
      generalize hb : alignedFrom (blockEnd m it) align = b at *
      have hlow : blockEnd m it ≤ b := by
        rw [← hb]
        exact le_alignedFrom _ _
      have hhigh : ∀ c ∈ a :: right, b + kmemNodeSize + size ≤ c := by
        intro c hc
        have hap := (List.pairwise_append.mp h.apart).2.1.of_cons
        rcases List.mem_cons.mp hc with rfl | hc
        · exact hfit
        · have := List.rel_of_pairwise_cons hap hc
          unfold blockEnd at this
          omega
      have hnot : b ∉ left ++ it :: a :: right :=
        h.not_mem_of_between hlow fun c hc => by
          have := hhigh c hc
          unfold kmemNodeSize at this
          omega
      have hin := linkGap_linkedIn m size h.nodup hnot
      have hle : b + kmemNodeSize + size ≤ m.occupiedTo := by
        have hmem : a ∈ (left ++ it :: a :: right).tail := by
          cases left <;> simp
        have := h.below a hmem
        unfold blockEnd at this
        omega
      refine ⟨left, right, rfl, ⟨hin, ?_, ?_, hplace.symm⟩, by have := h.limit.2; omega⟩
      · exact h.link hin hlow hhigh hle ⟨Nat.le_refl _, h.limit.2⟩
      · rw [← hb]
        exact dvd_alignedFrom _ hal

/-- A request that is served from the gap between `it` and `a`. -/
theorem kmallocAlign_gap (env : KmemEnv σ) (hspin : env.spin = false)
    {m : Kmem σ} {cells : List Nat} {size align it b a : Nat}
    (h : HeapList m cells) (hal : 1 ≤ align)
    (hwrap : placement m size align cells + kmemNodeSize + size < 2 ^ 64)
    (hgap : firstGap m size align kmemHeapBase cells.tail = .gap it b a) :
    ∃ left right, cells = left ++ it :: a :: right ∧
      Allocated m (linkGap m it b a size) left it b (a :: right) size align ∧
      ∀ fuel ≥ cells.length, kmallocAlign env fuel m size align =
        some (linkGap m it b a size, b + kmemNodeSize) := by
  obtain ⟨left, right, hcells, hall, hlt⟩ := h.gap_allocated hal hgap
  have hsearch := h.gapSearch_eq hal hwrap
  rw [hgap] at hsearch
  refine ⟨left, right, hcells, hall, fun fuel hfuel => ?_⟩
  simp only [kmallocAlign, spinlockLock_ignored hspin,
    hsearch fuel hfuel, Option.bind_eq_bind, Option.bind_some]
  rw [u64_of_lt (show b + kmemNodeSize < 2 ^ 64 by omega)]

/-- A request that goes behind the last node, once the heap has grown. -/
theorem kmallocAlign_tail (env : KmemEnv σ) (hspin : env.spin = false)
    {m : Kmem σ} {cells : List Nat} {size align it : Nat}
    (h : HeapList m cells) (hal : 1 ≤ align)
    (hwrap : placement m size align cells + kmemNodeSize + size < 2 ^ 64)
    (htail : firstGap m size align kmemHeapBase cells.tail = .tail it)
    (fuel : Nat) (hfuel : cells.length ≤ fuel) :
    kmallocAlign env fuel m size align =
      (growHeap env m
        (alignedFrom (blockEnd m it) align + kmemNodeSize + size)).map fun grown =>
        (linkTail grown it (alignedFrom (blockEnd m it) align) size,
          alignedFrom (blockEnd m it) align + kmemNodeSize) := by
  have hplace : placement m size align cells =
      alignedFrom (blockEnd m it) align := by
    have hfound := h.firstGap_found size align
    rw [htail] at hfound
    cases hfound with
    | tail left _ hcells hplace => exact hplace
  rw [hplace] at hwrap
  have hbegin : gapBegin m it align = alignedFrom (blockEnd m it) align :=
    gapBegin_eq (by omega)
  simp only [kmallocAlign, spinlockLock_ignored hspin,
    spinlockUnlock_ignored hspin, h.gapSearch_eq hal (hplace ▸ hwrap) fuel hfuel, htail,
    Option.bind_eq_bind, Option.bind_some, hbegin, u64_of_lt hwrap]
  rw [u64_of_lt (show alignedFrom (blockEnd m it) align + kmemNodeSize < 2 ^ 64 by
    omega)]
  cases growHeap env m _ <;> rfl

/--
The list after the last step of such a request, where `grown` is the heap the
map function left behind: still a list that ends in `it`.
-/
theorem HeapList.link_tail {m : Kmem σ} {left : List Nat} {it b : Nat}
    (size top : Nat) (h : HeapList m (left ++ [it])) (hlow : blockEnd m it ≤ b)
    (htop : b + kmemNodeSize + size ≤ top)
    (hocc : m.occupiedTo ≤ top ∧ top < 2 ^ 64) :
    LinkedIn m (linkTail { m with occupiedTo := top } it b size) left it b []
        size ∧
      HeapList (linkTail { m with occupiedTo := top } it b size)
        (left ++ [it, b]) := by
  have hnot : b ∉ left ++ [it] := h.not_mem_of_between hlow (by simp)
  have hin := linkTail_linkedIn { m with occupiedTo := top } size hnot
  have hin' : LinkedIn m (linkTail { m with occupiedTo := top } it b size)
      left it b [] size :=
    ⟨hin.1, hin.2, hin.3, hin.4, hin.5, hin.6, hin.7⟩
  exact ⟨hin', h.link hin' hlow (by simp) htop hocc⟩

end UntitledOs.Kernlib
