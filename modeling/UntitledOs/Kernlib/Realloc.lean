import UntitledOs.Kernlib.HeapBytes

/-!
# `krealloc_align`

A block that stays keeps its contents, but also its address, aligned or not.  A block
that moves is copied with its old size: when it shrinks, what stands behind its new
place is written over.
-/

namespace UntitledOs.Kernlib

open UntitledOs.Lib

section Reallocate

variable {unit : Option Nat} {h : ByteHeap} {cells left right : List Nat}
  {b c i kn it size align x z : Nat}

theorem HeapList.payload_outside {m : Kmem Unit} (hl : HeapList m cells) (hx : x ∈ cells)
    (hi : i < m.sz x) : ∀ z ∈ cells, x + kmemNodeSize + i < z ∨
      z + kmemNodeSize ≤ x + kmemNodeSize + i := by
  intro z hz
  obtain ⟨j, hj, rfl⟩ := List.mem_iff_getElem.mp hx
  obtain ⟨k, hk, rfl⟩ := List.mem_iff_getElem.mp hz
  have hap := List.pairwise_iff_getElem.mp hl.apart
  rcases lt_trichotomy j k with hjk | rfl | hjk
  · have := hap j k hj hk hjk
    unfold blockEnd at this
    omega
  · omega
  · have := hap k j hk hj hjk
    unfold blockEnd at this
    omega

/-- Two nodes of the list: one block ends before the other begins. -/
theorem HeapList.blockEnd_le_or {m : Kmem Unit} (hl : HeapList m cells) (hx : x ∈ cells)
    (hz : z ∈ cells) (hne : x ≠ z) : blockEnd m x ≤ z ∨ blockEnd m z ≤ x := by
  obtain ⟨j, hj, rfl⟩ := List.mem_iff_getElem.mp hx
  obtain ⟨k, hk, rfl⟩ := List.mem_iff_getElem.mp hz
  have hap := List.pairwise_iff_getElem.mp hl.apart
  rcases lt_trichotomy j k with hjk | rfl | hjk
  · exact .inl (hap j k hj hk hjk)
  · exact absurd rfl hne
  · exact .inr (hap k j hk hj hjk)

/-- The block `kn` can stay where it is: the node behind it leaves room for `size` bytes. -/
def RoomBehind (h : ByteHeap) (kn size : Nat) : Prop :=
  ∃ c, h.view.next kn = some c ∧ kn + kmemNodeSize + size + kmemNodeSize ≤ c

/-- `krealloc_align` of the block `kn` has kept its data and its neighbours. -/
structure Reallocated (unit : Option Nat) (h : ByteHeap) (cells : List Nat) (kn size align : Nat)
    (h' : ByteHeap) (b : Nat) (cells' : List Nat) : Prop where
  returns : Returns (fun fuel => kreallocAlignBytes unit fuel h (kn + kmemNodeSize) size align)
    (h', b + kmemNodeSize)
  aligned : align ∣ b + kmemNodeSize
  contents : ∀ i < min (h.view.sz kn) size,
    h'.mem (b + kmemNodeSize + i) = h.mem (kn + kmemNodeSize + i)
  heapList : HeapList h'.view cells'
  live : b ∈ cells' ∧ cells'.erase b = cells.erase kn
  sz_new : h'.view.sz b = size
  sz_old : ∀ x ∈ cells, x ≠ kn → h'.view.sz x = h.view.sz x
  mem_old : ∀ x ∈ cells, x ≠ kn → ∀ i < h.view.sz x,
    h'.mem (x + kmemNodeSize + i) = h.mem (x + kmemNodeSize + i)

/--
What `krealloc_align` gets by with: a block that stays is aligned already; one that
moves does not wrap around, and when it shrinks nothing stands where the rest of the
old contents is copied to.
-/
def ReallocFits (unit : Option Nat) (h : ByteHeap) (cells : List Nat) (kn size align : Nat) :
    Prop :=
  (RoomBehind h kn size → align ∣ kn + kmemNodeSize) ∧
    (¬ RoomBehind h kn size → 1 ≤ align ∧
      placement h.view size align cells + kmemNodeSize + size < 2 ^ 64 ∧
      UnitFits unit h (placement h.view size align cells + kmemNodeSize + size) ∧
      (h.view.sz kn ≤ size ∨ ∀ x ∈ cells, placement h.view size align cells < x →
        placement h.view size align cells + kmemNodeSize + h.view.sz kn ≤ x))

theorem HeapList.split_next {m : Kmem Unit} (hl : HeapList m cells) (hkn : kn ∈ cells)
    (hnext : m.next kn = some c) : ∃ left right, cells = left ++ kn :: c :: right ∧
      blockEnd m kn ≤ c ∧ c + kmemNodeSize < 2 ^ 64 := by
  obtain ⟨left, right, rfl⟩ := List.append_of_mem hkn
  have hhead := Segment.next_of_append hl.linked
  rw [Option.or_none, hnext] at hhead
  obtain ⟨right, rfl⟩ := List.head?_eq_some_iff.mp hhead.symm
  have hclt := hl.blockEnd_lt (b := c) (by simp)
  unfold blockEnd at hclt
  exact ⟨left, right, rfl, List.rel_of_pairwise_cons (List.pairwise_append.mp hl.apart).2.1
    (by simp), by omega⟩

/-- The test `krealloc_align` makes on the gap behind a block. -/
theorem gap_test (hl : HeapList h.view cells) (hkn : kn ∈ cells)
    (hnext : h.view.next kn = some c) (hsize : size + kmemNodeSize < 2 ^ 64) :
    sub64 c (kn + kmemNodeSize) ≥ u64 (size + kmemNodeSize) ↔
      kn + kmemNodeSize + size + kmemNodeSize ≤ c := by
  obtain ⟨left, right, -, hle, hclt⟩ := hl.split_next hkn hnext
  unfold blockEnd at hle
  rw [sub64_of_le (by omega) (by omega), u64_of_lt hsize]
  omega

theorem kreallocAlignBytes_stays (hl : HeapList h.view cells) (hkn : kn ∈ cells)
    (hroom : RoomBehind h kn size) (fuel : Nat) :
    kreallocAlignBytes unit fuel h (kn + kmemNodeSize) size align =
      some (h.putSz kn size, kn + kmemNodeSize) := by
  obtain ⟨c, hnext, hfit⟩ := hroom
  obtain ⟨-, -, -, -, hclt⟩ := hl.split_next hkn hnext
  have htest := (gap_test hl hkn hnext (by omega)).mpr hfit
  rw [kreallocAlignBytes]
  simp only [Nat.add_sub_cancel, hnext, if_pos htest]

theorem kreallocAlignBytes_moves (hl : HeapList h.view cells) (hkn : kn ∈ cells)
    (hroom : ¬ RoomBehind h kn size) (hsize : size + kmemNodeSize < 2 ^ 64) (fuel : Nat) :
    kreallocAlignBytes unit fuel h (kn + kmemNodeSize) size align =
      (kmallocAlignBytes unit fuel h size align).map fun r =>
        if r.2 = 0 then r
        else (kfreeBytes (r.1.copy r.2 (kn + kmemNodeSize) (r.1.view.sz kn)) (kn + kmemNodeSize),
          r.2) := by
  rw [kreallocAlignBytes]
  simp only [Nat.add_sub_cancel]
  cases hnext : h.view.next kn with
  | none => rfl
  | some c =>
      have htest := gap_test hl hkn hnext hsize
      simp only
      rw [if_neg fun hge => hroom ⟨c, hnext, htest.mp hge⟩]

theorem reallocated_stays (hl : HeapList h.view cells) (hkn : kn ∈ cells.tail)
    (hroom : RoomBehind h kn size) (hal : align ∣ kn + kmemNodeSize) :
    Reallocated unit h cells kn size align (h.putSz kn size) kn cells := by
  have hkn' := List.mem_of_mem_tail hkn
  have hreturns : ∀ fuel, kreallocAlignBytes unit fuel h (kn + kmemNodeSize) size align = _ :=
    kreallocAlignBytes_stays hl hkn' hroom
  obtain ⟨c, hnext, hfit⟩ := hroom
  obtain ⟨left, right, rfl, -, hclt⟩ := hl.split_next hkn' hnext
  have hbase : kn ≠ kmemHeapBase := by
    rintro rfl
    have hnodup := hl.nodup
    rw [hl.eq_cons] at hnodup
    exact (List.nodup_cons.mp hnodup).1 hkn
  have hag := (Agrees.refl (left ++ kn :: c :: right) h).putSz hl.spaced hkn' (v := size)
    (by omega)
  have honly : OnlyHeaders (left ++ kn :: c :: right) h (h.putSz kn size) :=
    OnlyHeaders.putWord (fun _ _ => rfl) hkn' (by omega) _
  have hsz : ∀ x ∈ left ++ kn :: c :: right,
      (h.putSz kn size).view.sz x = if x = kn then size else h.view.sz x := by
    intro x hx
    rw [Kmem.sz, hag x hx, ← Kmem.sz, Kmem.sz_setSz]
  refine ⟨⟨0, fun fuel _ => hreturns fuel⟩, hal, fun i hi => ?_,
    (hl.resize hbase hfit).congr_nodes hag (by simp), ⟨hkn', rfl⟩, ?_, fun x hx hne => ?_,
    fun x hx _ i hi => honly _ (hl.payload_outside hx hi)⟩
  · exact honly _ (hl.payload_outside hkn' (by omega))
  · rw [hsz kn hkn', if_pos rfl]
  · rw [hsz x hx, if_neg hne]

/-- What a copy into `b` leaves alone, when nothing stands where it writes. -/
structure Copied (h h' : ByteHeap) (cells : List Nat) (b kn n : Nat) : Prop where
  nodes : ∀ x ∈ cells, h'.view.node x = h.view.node x
  target : ∀ i < n, h'.mem (b + kmemNodeSize + i) = h.mem (kn + kmemNodeSize + i)
  other : ∀ x ∈ cells, x ≠ b → ∀ i < h.view.sz x,
    h'.mem (x + kmemNodeSize + i) = h.mem (x + kmemNodeSize + i)

theorem copied_spec (hl : HeapList h.view cells) (hb : b ∈ cells) (hkn : kn ∈ cells)
    (hne : kn ≠ b) (hclear : ∀ x ∈ cells, b < x → b + kmemNodeSize + h.view.sz kn ≤ x) :
    Copied h (h.copy (b + kmemNodeSize) (kn + kmemNodeSize) (h.view.sz kn)) cells b kn
      (h.view.sz kn) := by
  generalize hn : h.view.sz kn = n at *
  generalize hh' : h.copy (b + kmemNodeSize) (kn + kmemNodeSize) n = h'
  have hmem : h'.mem = memcpy h.mem (b + kmemNodeSize) (kn + kmemNodeSize) n := by
    rw [← hh', ByteHeap.mem_copy]
  have hout : ∀ y, (y < b + kmemNodeSize ∨ b + kmemNodeSize + n ≤ y) →
      h'.mem y = h.mem y := by
    intro y hy
    rw [hmem]
    exact memcpy_of_outside _ hy
  refine ⟨fun x hx => ?_, fun i hi => ?_, fun x hx hxb i hi => ?_⟩
  · have hword : ∀ o ≤ 16, wordAt h'.mem x o = wordAt h.mem x o := by
      intro o ho
      refine getLe_congr fun i hi => hout _ ?_
      rcases Nat.lt_or_ge b x with hbx | hbx
      · have := hclear x hx hbx
        omega
      · rcases Nat.eq_or_lt_of_le hbx with rfl | hxb
        · unfold kmemNodeSize
          omega
        · have := (hl.spaced.apart x hx b hb (by omega))
          unfold kmemNodeSize at *
          omega
    show headerAt h'.mem x = headerAt h.mem x
    rw [headerAt, headerAt, hword 0 (by omega), hword 8 (by omega), hword 16 (by omega)]
  · have hfwd : b + kmemNodeSize ≤ kn + kmemNodeSize ∨
        kn + kmemNodeSize + n ≤ b + kmemNodeSize := by
      rcases hl.blockEnd_le_or hkn hb hne with hle | hle <;> unfold blockEnd at hle <;> omega
    rw [hmem, memcpy_eq _ hfwd, copyTo_add hi]
  · refine hout _ ?_
    rcases hl.blockEnd_le_or hx hb hxb with hle | hle
    · unfold blockEnd at hle
      omega
    · unfold blockEnd at hle
      have := hclear x hx (by unfold kmemNodeSize at hle; omega)
      omega

theorem erase_around {b : Nat} (hnodup : (left ++ it :: b :: right).Nodup) :
    (left ++ it :: b :: right).erase b = left ++ it :: right := by
  obtain ⟨-, hnodup', hdisj⟩ := List.nodup_append.mp hnodup
  have hleft : b ∉ left := fun hb => hdisj b hb b (by simp) rfl
  have hit : it ≠ b := by
    rintro rfl
    simp at hnodup'
  rw [List.erase_append_right _ hleft, List.erase_cons_tail (by simpa using hit),
    List.erase_cons_head]

theorem reallocated_moves (hl : HeapList h.view cells) (hkn : kn ∈ cells.tail)
    (hroom : ¬ RoomBehind h kn size) (hal : 1 ≤ align)
    (hb : placement h.view size align cells = b) (hwrap : b + kmemNodeSize + size < 2 ^ 64)
    (hunit : UnitFits unit h (b + kmemNodeSize + size))
    (hclear : h.view.sz kn ≤ size ∨
      ∀ x ∈ cells, b < x → b + kmemNodeSize + h.view.sz kn ≤ x) :
    ∃ h' cells', Reallocated unit h cells kn size align h' b cells' := by
  have hkn' := List.mem_of_mem_tail hkn
  have hmoves : ∀ fuel, kreallocAlignBytes unit fuel h (kn + kmemNodeSize) size align = _ :=
    kreallocAlignBytes_moves hl hkn' hroom (by omega)
  obtain ⟨left, it, right, h₁, rfl, hreturns, hall⟩ := kmallocAlignBytes_spec hl hal hb hwrap hunit
  have hl₁ := hall.heapList
  have hold : ∀ {x}, x ∈ left ++ it :: right → x ∈ left ++ it :: b :: right := mem_around b
  have hbmem : b ∈ left ++ it :: b :: right := by simp
  have hbnot : b ∉ left ++ it :: right := by
    have hnodup := List.nodup_middle.mp (by simpa using hl₁.nodup : ((left ++ [it]) ++ b :: right).Nodup)
    simpa using (List.nodup_cons.mp hnodup).1
  have hkb : kn ≠ b := fun heq => hbnot (heq ▸ hkn')
  have hknsz := hall.sz_old kn hkn'
  -- the copy
  have hclear₁ : ∀ x ∈ left ++ it :: b :: right, b < x →
      b + kmemNodeSize + h₁.view.sz kn ≤ x := by
    intro x hx hbx
    rw [hknsz]
    rcases hclear with hle | hclear
    · have := hl₁.blockEnd_le_or hbmem hx (by omega)
      unfold blockEnd at this
      rw [hall.sz_new] at this
      omega
    · exact hclear x (mem_of_mem_around hx (by omega)) hbx
  have hcopy := copied_spec hl₁ hbmem (hold hkn') hkb hclear₁
  generalize hh₂ : h₁.copy (b + kmemNodeSize) (kn + kmemNodeSize) (h₁.view.sz kn) = h₂ at hcopy
  have hl₂ : HeapList h₂.view (left ++ it :: b :: right) :=
    hl₁.congr_nodes hcopy.nodes (by simp only [← hh₂, ByteHeap.view_occupiedTo, ByteHeap.copy])
  have hsz₂ : ∀ x ∈ left ++ it :: b :: right, h₂.view.sz x = h₁.view.sz x := fun x hx => by
    rw [Kmem.sz, hcopy.nodes x hx, Kmem.sz]
  -- the block given back
  have hkntail : kn ∈ (left ++ it :: b :: right).tail := by
    cases left with
    | nil => exact List.mem_cons_of_mem _ hkn
    | cons l left =>
        simp only [List.cons_append, List.tail_cons] at hkn ⊢
        exact mem_around b hkn
  obtain ⟨left', it', right', hsplit⟩ := hl₂.exists_pred hkntail
  have hl₂' := hl₂
  rw [hsplit] at hl₂'
  obtain ⟨hl₃, hsz₃, honly⟩ := kfreeBytes_spec hl₂'
  rw [← hsplit] at hsz₃ honly
  have herase : (left ++ it :: b :: right).erase kn = left' ++ it' :: right' := by
    rw [hsplit]
    exact erase_around hl₂'.nodup
  have hsz : ∀ x ∈ left ++ it :: b :: right,
      (kfreeBytes h₂ (kn + kmemNodeSize)).view.sz x = h₁.view.sz x := fun x hx =>
    (hsz₃ x hx).trans (hsz₂ x hx)
  have hmem₁ : ∀ x ∈ left ++ it :: right, ∀ i < h.view.sz x,
      h₁.mem (x + kmemNodeSize + i) = h.mem (x + kmemNodeSize + i) := fun x hx i hi =>
    hall.only _ (hl₁.payload_outside (hold hx) (by rwa [hall.sz_old x hx]))
  have hreturned : Returns (fun fuel => kreallocAlignBytes unit fuel h (kn + kmemNodeSize) size
      align) (kfreeBytes h₂ (kn + kmemNodeSize), b + kmemNodeSize) := by
    refine ⟨(left ++ it :: right).length, fun fuel hfuel => ?_⟩
    simp only [hmoves, hreturns fuel hfuel, Option.map_some]
    rw [if_neg (show ¬ (b + kmemNodeSize = 0) by unfold kmemNodeSize; omega), hh₂]
  refine ⟨kfreeBytes h₂ (kn + kmemNodeSize), _, ⟨hreturned, hall.aligned,
    fun i hi => ?_, hl₃, ⟨?_, ?_⟩, ?_, fun x hx hne => ?_, fun x hx hne i hi => ?_⟩⟩
  · rw [honly _ (hl₂.payload_outside hbmem (by rw [hsz₂ b hbmem, hall.sz_new]; omega)),
      hcopy.target i (by omega), hmem₁ kn hkn' i (by omega)]
  · rw [← herase]
    exact (List.mem_erase_of_ne hkb.symm).mpr hbmem
  · rw [← herase, List.erase_comm, erase_around hl₁.nodup]
  · rw [hsz b hbmem, hall.sz_new]
  · rw [hsz x (hold hx), hall.sz_old x hx]
  · have hxb : x ≠ b := fun heq => hbnot (heq ▸ hx)
    have hi₁ : i < h₁.view.sz x := by rwa [hall.sz_old x hx]
    rw [honly _ (hl₂.payload_outside (hold hx) (by rwa [hsz₂ x (hold hx)])),
      hcopy.other x (hold hx) hxb i hi₁, hmem₁ x hx i hi]

/-- `krealloc_align` of `kn` keeps its data and its neighbours. -/
def ReallocRight (unit : Option Nat) (h : ByteHeap) (cells : List Nat) (kn size align : Nat) :
    Prop :=
  ∃ h' b cells', Reallocated unit h cells kn size align h' b cells'

/--
Data and neighbours are kept whenever the call fits.  A block that stays is aligned
only if it was before.
-/
theorem krealloc_align_keeps (hl : HeapList h.view cells) (hkn : kn ∈ cells.tail) :
    (ReallocFits unit h cells kn size align → ReallocRight unit h cells kn size align) ∧
      (RoomBehind h kn size →
        (ReallocRight unit h cells kn size align ↔ align ∣ kn + kmemNodeSize)) := by
  have hstays : RoomBehind h kn size → align ∣ kn + kmemNodeSize →
      ReallocRight unit h cells kn size align := fun hroom hal =>
    ⟨_, _, _, reallocated_stays hl hkn hroom hal⟩
  refine ⟨fun hfits => ?_, fun hroom => ⟨?_, hstays hroom⟩⟩
  · by_cases hroom : RoomBehind h kn size
    · exact hstays hroom (hfits.1 hroom)
    · obtain ⟨hal, hwrap, hunit, hclear⟩ := hfits.2 hroom
      obtain ⟨h', cells', hdone⟩ := reallocated_moves hl hkn hroom hal rfl hwrap hunit hclear
      exact ⟨h', _, cells', hdone⟩
  · rintro ⟨h', b, cells', hdone⟩
    have hret := hdone.returns.unique
      ⟨0, fun fuel _ => kreallocAlignBytes_stays hl (List.mem_of_mem_tail hkn) hroom fuel⟩
    rw [← (Prod.mk.inj hret).2]
    exact hdone.aligned

end Reallocate

/-- The header of `a` written. -/
def storeNode (mem : Bytes) (a sz next prev : Nat) : Bytes :=
  setLe (setLe (setLe mem a 8 sz) (a + 8) 8 next) (a + 16) 8 prev

/-- Blocks of 8, 8 and 64 bytes, with room for a block of 8 behind the first. -/
def tightHeap : ByteHeap :=
  let mem := storeNode (fun _ => 0) 0x200000 0 0x200018 0
  let mem := storeNode mem 0x200018 8 0x200058 0x200000
  let mem := storeNode mem 0x200058 8 0x200078 0x200018
  ⟨storeNode mem 0x200078 64 0 0x200058, 0x2000d0⟩

theorem tightHeap_heapList :
    HeapList tightHeap.view [0x200000, 0x200018, 0x200058, 0x200078] := by
  refine ⟨rfl, by decide +kernel, ⟨by decide +kernel, by decide +kernel, by decide +kernel,
    by decide +kernel, by decide +kernel, by decide +kernel, by decide +kernel,
    by decide +kernel, trivial⟩, by decide +kernel, by decide +kernel, by decide +kernel⟩

/-- The first block grown to 100 bytes: it moves behind the last one. -/
theorem krealloc_align_keeps_grown : ReallocRight none tightHeap
    [0x200000, 0x200018, 0x200058, 0x200078] 0x200018 100 16 := by
  have hnext : tightHeap.view.next 0x200018 = some 0x200058 := by decide +kernel
  have hunit : UnitFits none tightHeap
      (placement tightHeap.view 100 16 [0x200000, 0x200018, 0x200058, 0x200078] +
        kmemNodeSize + 100) := by
    rintro u ⟨⟩
  refine (krealloc_align_keeps tightHeap_heapList (by decide)).1 ⟨?_, fun _ => ⟨by decide,
    by decide +kernel, hunit, .inl (by decide +kernel)⟩⟩
  rintro ⟨c, hc, hle⟩
  cases hnext.symm.trans hc
  exact absurd hle (by decide)

/-- The heap after the last block was shrunk to 8 bytes and moved behind the first. -/
def overrunHeap : ByteHeap :=
  kfreeBytes ((linkGapBytes tightHeap 0x200018 0x200038 0x200058 8).copy 0x200050 0x200090 64)
    0x200090

theorem tightHeap_not_roomBehind : ¬ RoomBehind tightHeap 0x200078 8 := by
  rintro ⟨c, hc, -⟩
  have hnext : tightHeap.view.next 0x200078 = none := by decide +kernel
  cases hnext.symm.trans hc

theorem kreallocAlignBytes_tightHeap (fuel : Nat) (hfuel : 4 ≤ fuel) :
    kreallocAlignBytes none fuel tightHeap (0x200078 + kmemNodeSize) 8 1 =
      some (overrunHeap, 0x200050) := by
  have hgap : firstGap tightHeap.view 8 1 kmemHeapBase [0x200018, 0x200058, 0x200078] =
      .gap 0x200018 0x200038 0x200058 := by decide +kernel
  have hsearch := @HeapList.gapSearch_eq _ _ _ 8 1 tightHeap_heapList (by decide)
    (by decide +kernel) fuel hfuel
  rw [List.tail_cons, hgap] at hsearch
  have hsz : (linkGapBytes tightHeap 0x200018 0x200038 0x200058 8).view.sz 0x200078 = 64 := by
    decide +kernel
  rw [kreallocAlignBytes_moves tightHeap_heapList (by decide) tightHeap_not_roomBehind (by decide),
    kmallocAlignBytes, hsearch, Option.map_some, Option.map_some]
  have hnew : u64 (0x200038 + kmemNodeSize) = 0x200050 := by decide
  have hold : 0x200078 + kmemNodeSize = 0x200090 := by decide
  simp only [hsz, hnew, hold]
  exact congrArg some (if_neg (by decide))

/-- The 64 bytes of the block have gone over the header behind its new place. -/
theorem krealloc_align_overruns :
    ∃ cells, HeapList tightHeap.view cells ∧ 0x200078 ∈ cells.tail ∧
      ¬ ReallocRight none tightHeap cells 0x200078 8 1 := by
  refine ⟨_, tightHeap_heapList, by decide, ?_⟩
  rintro ⟨h', b, cells', hdone⟩
  have hret := hdone.returns.unique ⟨4, kreallocAlignBytes_tightHeap⟩
  have hsz := hdone.sz_old 0x200058 (by decide) (by decide)
  rw [(Prod.mk.inj hret).1] at hsz
  exact absurd hsz (by decide +kernel)

end UntitledOs.Kernlib
