import UntitledOs.Kernlib.BootHeap
import UntitledOs.Lib.Bytes

/-!
# The heap in memory

Headers and payloads as bytes of one memory.  On the headers of the list the calls
do what they do on headers alone, and nothing else of the memory is written.
-/

namespace UntitledOs.Kernlib

open UntitledOs.Lib

structure ByteHeap where
  mem : Bytes
  occupiedTo : Nat

/-- A pointer in memory; null is 0. -/
def ofWord (v : Nat) : Option Nat := if v = 0 then none else some v

def wordAt (mem : Bytes) (a o : Nat) : Nat := getLe mem (a + o) 8

/-- The `kmem_node` at `a`. -/
def headerAt (mem : Bytes) (a : Nat) : KmemNode :=
  ⟨wordAt mem a 0, ofWord (wordAt mem a 8), ofWord (wordAt mem a 16)⟩

namespace ByteHeap

/-- The headers of the heap. -/
def view (h : ByteHeap) : Kmem Unit := ⟨headerAt h.mem, h.occupiedTo, false, ()⟩

def putWord (h : ByteHeap) (a o v : Nat) : ByteHeap := { h with mem := setLe h.mem (a + o) 8 v }

def putSz (h : ByteHeap) (a v : Nat) : ByteHeap := h.putWord a 0 v

def putNext (h : ByteHeap) (a : Nat) (p : Option Nat) : ByteHeap := h.putWord a 8 (p.getD 0)

def putPrev (h : ByteHeap) (a : Nat) (p : Option Nat) : ByteHeap := h.putWord a 16 (p.getD 0)

/-- `memcpy(dst, src, n)` -/
def copy (h : ByteHeap) (dst src n : Nat) : ByteHeap := { h with mem := memcpy h.mem dst src n }

theorem mem_copy (h : ByteHeap) (dst src n : Nat) :
    (h.copy dst src n).mem = memcpy h.mem dst src n := rfl

@[simp] theorem view_occupiedTo (h : ByteHeap) : h.view.occupiedTo = h.occupiedTo := rfl

@[simp] theorem occupiedTo_putNext (h : ByteHeap) (a : Nat) (p : Option Nat) :
    (h.putNext a p).occupiedTo = h.occupiedTo := rfl

@[simp] theorem occupiedTo_putPrev (h : ByteHeap) (a : Nat) (p : Option Nat) :
    (h.putPrev a p).occupiedTo = h.occupiedTo := rfl

@[simp] theorem occupiedTo_putSz (h : ByteHeap) (a v : Nat) :
    (h.putSz a v).occupiedTo = h.occupiedTo := rfl

end ByteHeap

/-- `linkGap` in memory. -/
def linkGapBytes (h : ByteHeap) (it gapBeg itNext size : Nat) : ByteHeap :=
  let h := h.putNext it (some gapBeg)
  let h := h.putPrev itNext (some gapBeg)
  let h := h.putSz gapBeg size
  let h := h.putNext gapBeg (some itNext)
  h.putPrev gapBeg (some it)

/-- `linkTail` in memory. -/
def linkTailBytes (h : ByteHeap) (it nblk size : Nat) : ByteHeap :=
  let h := h.putNext it (some nblk)
  let h := h.putSz nblk size
  let h := h.putNext nblk none
  h.putPrev nblk (some it)

/--
`occupied_to` after it had to reach `top`.  With a map function installed, `unit` is
the memory unit size; the function maps pages and leaves the memory of the heap alone.
-/
def grownTo (unit : Option Nat) (occupiedTo top : Nat) : Nat :=
  if top > occupiedTo then unit.elim top fun u => u64 (top + (u - top % u)) else occupiedTo

/-- `kmalloc_align`, lock calls ignored. -/
def kmallocAlignBytes (unit : Option Nat) (fuel : Nat) (h : ByteHeap) (size align : Nat) :
    Option (ByteHeap × Nat) :=
  (gapSearch h.view size align fuel kmemHeapBase).map fun
    | .gap it gapBeg gapEnd => (linkGapBytes h it gapBeg gapEnd size, u64 (gapBeg + kmemNodeSize))
    | .tail it =>
        let nblk := gapBegin h.view it align
        let top := u64 (nblk + kmemNodeSize + size)
        (linkTailBytes { h with occupiedTo := grownTo unit h.occupiedTo top } it nblk size,
          u64 (nblk + kmemNodeSize))

/-- `kfree` -/
def kfreeBytes (h : ByteHeap) (ptr : Nat) : ByteHeap :=
  let it := ptr - kmemNodeSize
  let h := match h.view.prev it with
    | some p => h.putNext p (h.view.next it)
    | none => h
  match h.view.next it with
  | some n => h.putPrev n (h.view.prev it)
  | none => h

/-- `krealloc_align` of a block; the old size is copied. -/
def kreallocAlignBytes (unit : Option Nat) (fuel : Nat) (h : ByteHeap) (ptr size align : Nat) :
    Option (ByteHeap × Nat) :=
  let kn := ptr - kmemNodeSize
  let move := (kmallocAlignBytes unit fuel h size align).map fun r =>
    if r.2 = 0 then r
    else (kfreeBytes (r.1.copy r.2 ptr (r.1.view.sz kn)) ptr, r.2)
  match h.view.next kn with
  | some gapEnd =>
      if sub64 gapEnd ptr ≥ u64 (size + kmemNodeSize) then some (h.putSz kn size, ptr) else move
  | none => move

section Refines

variable {h h' : ByteHeap} {m m' : Kmem Unit} {nodes cells left right : List Nat}
  {a b c it x y o v size align : Nat}

theorem mem_around (b : Nat) (hx : x ∈ left ++ it :: right) : x ∈ left ++ it :: b :: right := by
  simp only [List.mem_append, List.mem_cons] at hx ⊢
  tauto

theorem mem_of_mem_around (hx : x ∈ left ++ it :: b :: right) (hne : x ≠ b) :
    x ∈ left ++ it :: right := by
  simp only [List.mem_append, List.mem_cons] at hx ⊢
  tauto

/-- The headers of the nodes do not overlap. -/
structure Spaced (nodes : List Nat) : Prop where
  apart : ∀ x ∈ nodes, ∀ y ∈ nodes, x ≠ y → x + kmemNodeSize ≤ y ∨ y + kmemNodeSize ≤ x
  range : ∀ x ∈ nodes, 0 < x ∧ x < 2 ^ 64

/-- In memory the headers of the nodes are those of `m`. -/
def Agrees (nodes : List Nat) (h : ByteHeap) (m : Kmem Unit) : Prop :=
  ∀ x ∈ nodes, h.view.node x = m.node x

theorem Agrees.refl (nodes : List Nat) (h : ByteHeap) : Agrees nodes h h.view := fun _ _ => rfl

/-- A word of one header after a word of another one was written. -/
theorem wordAt_putWord (hsp : Spaced nodes) (ha : a ∈ nodes) (hx : x ∈ nodes) {o' : Nat}
    (ho : o = 0 ∨ o = 8 ∨ o = 16) (ho' : o' = 0 ∨ o' = 8 ∨ o' = 16) (hv : v < 2 ^ 64) :
    wordAt (h.putWord a o v).mem x o' = if x = a ∧ o' = o then v else wordAt h.mem x o' := by
  unfold wordAt ByteHeap.putWord
  dsimp only
  split
  · rename_i heq
    obtain ⟨rfl, rfl⟩ := heq
    rw [getLe_setLe, Nat.mod_eq_of_lt (by omega)]
  · rename_i hne
    refine getLe_setLe_of_disjoint ?_
    by_cases hxa : x = a
    · subst hxa
      have hoo : o' ≠ o := fun hoo => hne ⟨rfl, hoo⟩
      omega
    · have := hsp.apart x hx a ha hxa
      unfold kmemNodeSize at this
      omega

theorem headerAt_putWord (hsp : Spaced nodes) (ha : a ∈ nodes) (hx : x ∈ nodes)
    (ho : o = 0 ∨ o = 8 ∨ o = 16) (hv : v < 2 ^ 64) :
    (h.putWord a o v).view.node x =
      ⟨if x = a ∧ 0 = o then v else wordAt h.mem x 0,
        ofWord (if x = a ∧ 8 = o then v else wordAt h.mem x 8),
        ofWord (if x = a ∧ 16 = o then v else wordAt h.mem x 16)⟩ := by
  show headerAt (h.putWord a o v).mem x = _
  rw [headerAt, wordAt_putWord hsp ha hx ho (by simp) hv,
    wordAt_putWord hsp ha hx ho (by simp) hv, wordAt_putWord hsp ha hx ho (by simp) hv]

/-- A pointer to a node, or null, fits a word and is read back from it. -/
theorem Spaced.pointer {p : Option Nat} (hsp : Spaced nodes) (hp : ∀ q, p = some q → q ∈ nodes) :
    p.getD 0 < 2 ^ 64 ∧ ofWord (p.getD 0) = p := by
  cases p with
  | none => exact ⟨by simp, rfl⟩
  | some q =>
      obtain ⟨hpos, hlt⟩ := hsp.range q (hp q rfl)
      exact ⟨hlt, by simp [ofWord, hpos.ne']⟩

theorem Agrees.putSz (hag : Agrees nodes h m) (hsp : Spaced nodes) (ha : a ∈ nodes)
    (hv : v < 2 ^ 64) : Agrees nodes (h.putSz a v) (m.setSz a v) := by
  intro x hx
  rw [ByteHeap.putSz, headerAt_putWord hsp ha hx (by simp) hv, Kmem.setSz, Kmem.node_setNode]
  by_cases hxa : x = a
  · subst hxa
    simp [← hag x hx, ByteHeap.view, headerAt]
  · simp [hxa, ← hag x hx, ByteHeap.view, headerAt]

theorem Agrees.putNext {p : Option Nat} (hag : Agrees nodes h m) (hsp : Spaced nodes)
    (ha : a ∈ nodes) (hp : ∀ q, p = some q → q ∈ nodes) :
    Agrees nodes (h.putNext a p) (m.setNext a p) := by
  obtain ⟨hv, hword⟩ := hsp.pointer hp
  intro x hx
  rw [ByteHeap.putNext, headerAt_putWord hsp ha hx (by simp) hv, Kmem.setNext, Kmem.node_setNode]
  by_cases hxa : x = a
  · subst hxa
    simp [← hag x hx, ByteHeap.view, headerAt, hword]
  · simp [hxa, ← hag x hx, ByteHeap.view, headerAt]

theorem Agrees.putPrev {p : Option Nat} (hag : Agrees nodes h m) (hsp : Spaced nodes)
    (ha : a ∈ nodes) (hp : ∀ q, p = some q → q ∈ nodes) :
    Agrees nodes (h.putPrev a p) (m.setPrev a p) := by
  obtain ⟨hv, hword⟩ := hsp.pointer hp
  intro x hx
  rw [ByteHeap.putPrev, headerAt_putWord hsp ha hx (by simp) hv, Kmem.setPrev, Kmem.node_setNode]
  by_cases hxa : x = a
  · subst hxa
    simp [← hag x hx, ByteHeap.view, headerAt, hword]
  · simp [hxa, ← hag x hx, ByteHeap.view, headerAt]

theorem linkGap_steps (m : Kmem Unit) (it b c size : Nat) :
    ((((m.setNext it (some b)).setPrev c (some b)).setSz b size).setNext b (some c)).setPrev b
      (some it) = linkGap m it b c size := by
  unfold linkGap
  simp [Kmem.setNext, Kmem.setPrev, Kmem.setSz, Kmem.setNode]

theorem linkTail_steps (m : Kmem Unit) (it b size : Nat) :
    (((m.setNext it (some b)).setSz b size).setNext b none).setPrev b (some it) =
      linkTail m it b size := by
  unfold linkTail
  simp [Kmem.setNext, Kmem.setPrev, Kmem.setSz, Kmem.setNode]

theorem agrees_linkGap (hsp : Spaced nodes) (hit : it ∈ nodes) (hb : b ∈ nodes) (hc : c ∈ nodes)
    (hsize : size < 2 ^ 64) :
    Agrees nodes (linkGapBytes h it b c size) (linkGap h.view it b c size) := by
  rw [← linkGap_steps]
  have hmem : ∀ {z}, z ∈ nodes → ∀ q, some z = some q → q ∈ nodes := by
    rintro z hz q ⟨⟩
    exact hz
  exact ((((Agrees.refl nodes h).putNext hsp hit (hmem hb)).putPrev hsp hc (hmem hb)).putSz hsp hb
    hsize).putNext hsp hb (hmem hc) |>.putPrev hsp hb (hmem hit)

theorem agrees_linkTail (hsp : Spaced nodes) (hit : it ∈ nodes) (hb : b ∈ nodes)
    (hsize : size < 2 ^ 64) :
    Agrees nodes (linkTailBytes h it b size) (linkTail h.view it b size) := by
  rw [← linkTail_steps]
  have hmem : ∀ {z}, z ∈ nodes → ∀ q, some z = some q → q ∈ nodes := by
    rintro z hz q ⟨⟩
    exact hz
  exact (((Agrees.refl nodes h).putNext hsp hit (hmem hb)).putSz hsp hb hsize).putNext hsp hb
    (by rintro q ⟨⟩) |>.putPrev hsp hb (hmem hit)

theorem HeapList.spaced {m : Kmem Unit} (hl : HeapList m cells) : Spaced cells := by
  refine ⟨fun x hx y hy hne => ?_, fun x hx => ?_⟩
  · have hlt : cells.Pairwise fun x y => x + kmemNodeSize ≤ y := hl.apart.imp fun {x y} hxy => by
      unfold blockEnd at hxy
      omega
    obtain ⟨i, hi, rfl⟩ := List.mem_iff_getElem.mp hx
    obtain ⟨j, hj, rfl⟩ := List.mem_iff_getElem.mp hy
    rcases lt_trichotomy i j with hij | rfl | hij
    · exact .inl (List.pairwise_iff_getElem.mp hlt i j hi hj hij)
    · exact absurd rfl hne
    · exact .inr (List.pairwise_iff_getElem.mp hlt j i hj hi hij)
  · have hbase := hl.base_le hx
    have hend := hl.blockEnd_lt hx
    unfold blockEnd at hend
    unfold kmemHeapBase at hbase
    omega

theorem HeapList.congr_nodes (hl : HeapList m cells) (hnode : ∀ x ∈ cells, m'.node x = m.node x)
    (hocc : m'.occupiedTo = m.occupiedTo) : HeapList m' cells := by
  have hend : ∀ x ∈ cells, blockEnd m' x = blockEnd m x := fun x hx => by
    rw [blockEnd, blockEnd, Kmem.sz, Kmem.sz, hnode x hx]
  have hbase : kmemHeapBase ∈ cells := List.mem_of_head? hl.head
  refine ⟨hl.head, ?_, ?_, ?_, ?_, ?_⟩
  · rw [Kmem.sz, hnode _ hbase]
    exact hl.head_sz
  · exact Segment.congr hl.linked (fun x hx => by rw [Kmem.next, Kmem.next, hnode x hx])
      fun x hx => by rw [Kmem.prev, Kmem.prev, hnode x hx]
  · exact hl.apart.imp_of_mem fun {x y} hx _ hxy => by rwa [hend x hx]
  · intro x hx
    rw [hend x (List.mem_of_mem_tail hx), hocc]
    exact hl.below x hx
  · rw [hocc]
    exact hl.limit

/-- Nothing was written outside of the headers of the nodes. -/
def OnlyHeaders (nodes : List Nat) (h h' : ByteHeap) : Prop :=
  ∀ y, (∀ x ∈ nodes, y < x ∨ x + kmemNodeSize ≤ y) → h'.mem y = h.mem y

theorem OnlyHeaders.putWord (hw : OnlyHeaders nodes h h') (ha : a ∈ nodes) (ho : o ≤ 16) (v : Nat) :
    OnlyHeaders nodes h (h'.putWord a o v) := by
  intro y hy
  have hay := hy a ha
  unfold kmemNodeSize at hay
  exact (setLe_of_outside (by omega)).trans (hw y hy)

theorem onlyHeaders_linkGap (hit : it ∈ nodes) (hb : b ∈ nodes) (hc : c ∈ nodes) :
    OnlyHeaders nodes h (linkGapBytes h it b c size) := by
  have hrefl : OnlyHeaders nodes h h := fun _ _ => rfl
  exact ((((hrefl.putWord hit (o := 8) (by omega) _).putWord hc (o := 16) (by omega) _).putWord hb
    (o := 0) (by omega) _).putWord hb (o := 8) (by omega) _).putWord hb (o := 16) (by omega) _

theorem onlyHeaders_linkTail (hit : it ∈ nodes) (hb : b ∈ nodes) :
    OnlyHeaders nodes h (linkTailBytes h it b size) := by
  have hrefl : OnlyHeaders nodes h h := fun _ _ => rfl
  exact (((hrefl.putWord hit (o := 8) (by omega) _).putWord hb (o := 0) (by omega) _).putWord hb
    (o := 8) (by omega) _).putWord hb (o := 16) (by omega) _

/-- Growing the heap to `top` does not run over the end of the address space. -/
def UnitFits (unit : Option Nat) (h : ByteHeap) (top : Nat) : Prop :=
  ∀ u, unit = some u → h.occupiedTo < top → 0 < u ∧ top + (u - top % u) < 2 ^ 64

theorem grownTo_bounds {unit : Option Nat} {top : Nat} (hocc : h.occupiedTo < 2 ^ 64)
    (htop : top < 2 ^ 64) (hunit : UnitFits unit h top) :
    top ≤ grownTo unit h.occupiedTo top ∧ h.occupiedTo ≤ grownTo unit h.occupiedTo top ∧
      grownTo unit h.occupiedTo top < 2 ^ 64 := by
  unfold grownTo
  split
  · rename_i hgrow
    cases unit with
    | none =>
        simp only [Option.elim_none]
        omega
    | some u =>
        obtain ⟨hu, hlt⟩ := hunit u rfl hgrow
        have hmod := Nat.mod_lt top hu
        simp only [Option.elim_some]
        rw [u64_of_lt (by omega)]
        omega
  · exact ⟨by omega, le_rfl, hocc⟩

/-- What a call of `kmalloc_align` has done to the memory. -/
structure AllocatedBytes (h h' : ByteHeap) (left right : List Nat) (it b size align : Nat) :
    Prop where
  heapList : HeapList h'.view (left ++ it :: b :: right)
  sz_new : h'.view.sz b = size
  sz_old : ∀ x ∈ left ++ it :: right, h'.view.sz x = h.view.sz x
  aligned : align ∣ b + kmemNodeSize
  only : OnlyHeaders (left ++ it :: b :: right) h h'

theorem AllocatedBytes.of_agrees {h₀ : ByteHeap} (hin : LinkedIn h.view m left it b right size)
    (hl : HeapList m (left ++ it :: b :: right)) (hal : align ∣ b + kmemNodeSize)
    (hag : Agrees (left ++ it :: b :: right) h' m) (hocc : h'.occupiedTo = m.occupiedTo)
    (hmem : h₀.mem = h.mem) (honly : OnlyHeaders (left ++ it :: b :: right) h₀ h') :
    AllocatedBytes h h' left right it b size align := by
  refine ⟨hl.congr_nodes hag hocc, ?_, fun x hx => ?_, hal, ?_⟩
  · rw [Kmem.sz, hag b (by simp)]
    exact hin.sz_new
  · rw [Kmem.sz, hag x (mem_around b hx)]
    exact hin.sz_old x hx
  · intro y hy
    rw [honly y hy, hmem]

theorem kmallocAlignBytes_spec {unit : Option Nat} (hl : HeapList h.view cells) (hal : 1 ≤ align)
    (hb : placement h.view size align cells = b) (hwrap : b + kmemNodeSize + size < 2 ^ 64)
    (hunit : UnitFits unit h (b + kmemNodeSize + size)) :
    ∃ left it right h', cells = left ++ it :: right ∧
      (∀ fuel ≥ cells.length, kmallocAlignBytes unit fuel h size align =
        some (h', b + kmemNodeSize)) ∧
      AllocatedBytes h h' left right it b size align := by
  have hsearch := hl.gapSearch_eq hal (by rwa [hb])
  have hfound := hl.firstGap_found size align
  cases hgap : firstGap h.view size align kmemHeapBase cells.tail with
  | gap it b' a =>
      obtain ⟨left, right, rfl, hall, -⟩ := hl.gap_allocated hal hgap
      obtain rfl : b' = b := hall.place.trans hb
      have hsp := hall.heapList.spaced
      refine ⟨left, it, a :: right, linkGapBytes h it b' a size, rfl, fun fuel hfuel => ?_, ?_⟩
      · rw [kmallocAlignBytes, hsearch fuel hfuel, hgap, Option.map_some]
        simp only
        rw [u64_of_lt (by omega)]
      · exact .of_agrees hall.linkedIn hall.heapList hall.aligned
          (agrees_linkGap hsp (by simp) (by simp) (by simp) (by omega)) rfl rfl
          (onlyHeaders_linkGap (by simp) (by simp) (by simp))
  | tail it =>
      rw [hgap] at hfound
      cases hfound with
      | tail left _ hcells hplace =>
          subst hcells
          have hb' : b = alignedFrom (blockEnd h.view it) align := hb.symm.trans hplace
          have hbegin : gapBegin h.view it align = b := by
            rw [hb']
            exact gapBegin_eq (by omega)
          have hlimit : h.occupiedTo < 2 ^ 64 := hl.limit.2
          obtain ⟨htop, hocc, hlt⟩ := grownTo_bounds hlimit hwrap hunit
          generalize hgrown : grownTo unit h.occupiedTo (b + kmemNodeSize + size) = top at *
          obtain ⟨hin, hlist⟩ := hl.link_tail size _ (hb' ▸ le_alignedFrom _ _) htop ⟨hocc, hlt⟩
          refine ⟨left, it, [], linkTailBytes { h with occupiedTo := top } it b size, rfl,
            fun fuel hfuel => ?_, ?_⟩
          · rw [kmallocAlignBytes, hsearch fuel hfuel, hgap, Option.map_some]
            simp only [hbegin]
            rw [u64_of_lt hwrap, u64_of_lt (by omega), hgrown]
          · exact .of_agrees hin hlist (hb' ▸ dvd_alignedFrom _ hal)
              (agrees_linkTail hlist.spaced (by simp) (by simp) (by omega)) rfl rfl
              (onlyHeaders_linkTail (by simp) (by simp))

/-- `kfree` unlinks the node of the block and writes nothing else. -/
theorem kfreeBytes_spec (hl : HeapList h.view (left ++ it :: b :: right)) :
    HeapList (kfreeBytes h (b + kmemNodeSize)).view (left ++ it :: right) ∧
      (∀ x ∈ left ++ it :: b :: right, (kfreeBytes h (b + kmemNodeSize)).view.sz x = h.view.sz x) ∧
      OnlyHeaders (left ++ it :: b :: right) h (kfreeBytes h (b + kmemNodeSize)) := by
  have hsp := hl.spaced
  have hfreed := unlinked_freed hl
  obtain ⟨hprev, hnext⟩ := Segment.links_of_append hl.linked
  rw [Option.or_none] at hnext
  have hbit : b ≠ it := by
    rintro rfl
    have := (List.nodup_append.mp hl.nodup).2.1
    simp at this
  have hhead : ∀ q, right.head? = some q → q ∈ left ++ it :: b :: right := by
    intro q hq
    simp [List.mem_of_mem_head? hq]
  have hag := (Agrees.refl (left ++ it :: b :: right) h).putNext hsp (a := it)
    (by simp) hhead
  have honly : OnlyHeaders (left ++ it :: b :: right) h (h.putNext it right.head?) :=
    OnlyHeaders.putWord (fun _ _ => rfl) (by simp) (by omega) _
  -- the header of the block itself is as it was
  have hb : (h.putNext it right.head?).view.node b = h.view.node b := by
    rw [hag b (by simp), Kmem.setNext, Kmem.node_setNode, if_neg hbit]
  have hfree : kfreeBytes h (b + kmemNodeSize) = right.head?.elim (h.putNext it right.head?)
      fun n => (h.putNext it right.head?).putPrev n (some it) := by
    rw [kfreeBytes]
    simp only [Nat.add_sub_cancel, hprev, hnext]
    rw [Kmem.next, hb, ← Kmem.next, hnext, Kmem.prev, hb, ← Kmem.prev, hprev]
    cases right.head? <;> rfl
  have hdone : Agrees (left ++ it :: b :: right) (kfreeBytes h (b + kmemNodeSize))
      (unlinked h.view it right.head?) := by
    rw [hfree]
    generalize right.head? = c? at *
    cases c? with
    | none => simpa only [Option.elim_none, unlinked] using hag
    | some c =>
        simp only [Option.elim_some, unlinked]
        refine hag.putPrev hsp (hhead c rfl) ?_
        rintro q ⟨⟩
        simp
  refine ⟨?_, fun x hx => ?_, ?_⟩
  · refine hfreed.heapList.congr_nodes (fun x hx => hdone x (mem_around b hx)) ?_
    rw [hfree]
    cases right.head? <;> simp [unlinked]
  · rw [Kmem.sz, hdone x hx]
    exact hfreed.sz_old x
  · rw [hfree]
    generalize right.head? = c? at *
    cases c? with
    | none => simpa only [Option.elim_none] using honly
    | some c =>
        simp only [Option.elim_some]
        exact honly.putWord (hhead c rfl) (by omega) _

end Refines

end UntitledOs.Kernlib
