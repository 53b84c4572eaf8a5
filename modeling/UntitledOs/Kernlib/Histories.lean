import UntitledOs.Kernlib.Realloc

/-!
# Histories of the heap

Any sequence of requests, `krealloc_align` and `kfree` of live blocks in the boot
phase, on the heap in memory; between the calls the blocks' owners write what they
like into them.  As long as no block that shrinks is copied over a header, the
headers remain a list of exactly the live blocks.
-/

namespace UntitledOs.Kernlib

open UntitledOs.Lib

variable {h h' : ByteHeap} {cells cells' left right : List Nat} {live : List (Nat × Nat)}
  {b it kn size align ptr old p : Nat}

/-- `kmem_init`; it does not set the size of the dummy node. -/
def kmemInitBytes (mem : Bytes) : ByteHeap :=
  ((⟨mem, kmemHeapBase⟩ : ByteHeap).putNext kmemHeapBase none).putPrev kmemHeapBase none

/-- `krealloc_align` stays in place, or its new block ends below `2^64`. -/
def ReallocNoWrap (h : ByteHeap) (ptr size align : Nat) : Prop :=
  RoomBehind h (ptr - kmemNodeSize) size ∨ NoWrap h.view size align

/-- A block that moves is not made smaller, or nothing stands where the rest of it is copied to. -/
def CopySafe (h : ByteHeap) (ptr size align : Nat) : Prop :=
  RoomBehind h (ptr - kmemNodeSize) size ∨ h.view.sz (ptr - kmemNodeSize) ≤ size ∨
    ∀ cells, HeapList h.view cells → ∀ x ∈ cells, placement h.view size align cells < x →
      placement h.view size align cells + kmemNodeSize + h.view.sz (ptr - kmemNodeSize) ≤ x

/--
The heaps after any sequence of calls, together with the blocks (address and size)
that were handed out and not given back; `ok` is asked of every `krealloc_align`.
-/
inductive HeapHistory (ok : ByteHeap → Nat → Nat → Nat → Prop) :
    ByteHeap → List (Nat × Nat) → Prop
  | init (mem : Bytes) (size_zero : wordAt mem kmemHeapBase 0 = 0) :
      HeapHistory ok (kmemInitBytes mem) []
  | kmalloc {h h' : ByteHeap} {live : List (Nat × Nat)} {size align p : Nat} :
      HeapHistory ok h live → 1 ≤ align → NoWrap h.view size align →
      Returns (fun fuel => kmallocAlignBytes none fuel h size align) (h', p) →
      HeapHistory ok h' ((p, size) :: live)
  | krealloc {h h' : ByteHeap} {live : List (Nat × Nat)} {ptr old size align p : Nat} :
      HeapHistory ok h live → (ptr, old) ∈ live → 1 ≤ align → ReallocNoWrap h ptr size align →
      ok h ptr size align →
      Returns (fun fuel => kreallocAlignBytes none fuel h ptr size align) (h', p) →
      HeapHistory ok h' ((p, size) :: live.erase (ptr, old))
  | kfree {h : ByteHeap} {live : List (Nat × Nat)} {ptr old : Nat} :
      HeapHistory ok h live → (ptr, old) ∈ live →
      HeapHistory ok (kfreeBytes h ptr) (live.erase (ptr, old))
  | write {h : ByteHeap} {live : List (Nat × Nat)} (mem : Bytes) :
      HeapHistory ok h live →
      (∀ y, (∀ q ∈ live, y < q.1 ∨ q.1 + q.2 ≤ y) → mem y = h.mem y) →
      HeapHistory ok { h with mem := mem } live

section Steps

theorem noUnit (h : ByteHeap) (top : Nat) : UnitFits none h top := by
  rintro u ⟨⟩

theorem holdsLive_init_bytes (mem : Bytes) (hzero : wordAt mem kmemHeapBase 0 = 0) :
    HoldsLive (kmemInitBytes mem).view [kmemHeapBase] [] := by
  have hsp : Spaced [kmemHeapBase] := by
    refine ⟨fun x hx y hy hne => ?_, fun x hx => ?_⟩
    · rw [List.mem_singleton.mp hx, List.mem_singleton.mp hy] at hne
      exact absurd rfl hne
    · rw [List.mem_singleton.mp hx]
      decide
  have hag := ((Agrees.refl [kmemHeapBase] ⟨mem, kmemHeapBase⟩).putNext (p := none) hsp
    (List.mem_singleton_self _) (by rintro q ⟨⟩)).putPrev (p := none) hsp
    (List.mem_singleton_self _) (by rintro q ⟨⟩)
  have hnode := hag kmemHeapBase (List.mem_singleton_self _)
  have hview : (kmemInitBytes mem).view.node kmemHeapBase = ⟨0, none, none⟩ := by
    refine hnode.trans ?_
    simp [Kmem.setPrev, Kmem.setNext, ByteHeap.view, headerAt, hzero]
  refine ⟨⟨rfl, ?_, ⟨?_, ?_, trivial⟩, List.pairwise_singleton _ _, by simp, ?_⟩, List.Perm.refl _⟩
  · rw [Kmem.sz, hview]
  · rw [Kmem.prev, hview]
  · rw [Kmem.next, hview]
    rfl
  · exact ⟨le_rfl, show kmemHeapBase < 2 ^ 64 by decide⟩

theorem holdsLive_kmallocBytes (hl : HoldsLive h.view cells live) (hal : 1 ≤ align)
    (hwrap : NoWrap h.view size align) :
    ∃ left it b right h', cells = left ++ it :: right ∧
      AllocatedBytes h h' left right it b size align ∧
      HoldsLive h'.view (left ++ it :: b :: right) ((b + kmemNodeSize, size) :: live) ∧
      Returns (fun fuel => kmallocAlignBytes none fuel h size align) (h', b + kmemNodeSize) := by
  obtain ⟨left, it, right, h', rfl, hreturns, hall⟩ := kmallocAlignBytes_spec hl.1 hal rfl
    (hwrap cells hl.1.head hl.1.linked) (noUnit h _)
  generalize placement h.view size align (left ++ it :: right) = b at *
  refine ⟨left, it, b, right, h', rfl, hall, ⟨hall.heapList, ?_⟩, _, hreturns⟩
  have hperm := payloads_insert b hall.sz_old
  rw [hall.sz_new] at hperm
  exact hperm.trans (List.Perm.cons _ hl.2)

theorem holdsLive_kfreeBytes (hl : HoldsLive h.view cells live) (hptr : (ptr, old) ∈ live) :
    ∃ cells', HoldsLive (kfreeBytes h ptr).view cells' (live.erase (ptr, old)) := by
  obtain ⟨left, it, b, right, rfl, rfl, rfl⟩ := hl.split hptr
  obtain ⟨hlist, hsz, -⟩ := kfreeBytes_spec hl.1
  refine ⟨left ++ it :: right, hlist, ?_⟩
  have hperm := payloads_insert b fun x hx => (hsz x (mem_around b hx)).symm
  exact ((hperm.symm.trans hl.2).trans (List.perm_cons_erase hptr)).cons_inv

/-- The blocks of the list, but for one of them. -/
theorem payloads_erase {m : Kmem Unit} (hl : HeapList m cells) (hb : b ∈ cells.tail) :
    (payloads m cells).Perm ((b + kmemNodeSize, m.sz b) ::
      (cells.erase b).tail.map fun a => (a + kmemNodeSize, m.sz a)) := by
  have hcons := hl.eq_cons
  have hne : b ≠ kmemHeapBase := by
    rintro rfl
    have hnodup := hl.nodup
    rw [hcons] at hnodup
    exact (List.nodup_cons.mp hnodup).1 hb
  have herase : cells.erase b = kmemHeapBase :: cells.tail.erase b := by
    conv_lhs => rw [hcons]
    rw [List.erase_cons_tail (by simpa using hne.symm)]
  rw [herase, List.tail_cons, payloads]
  exact (List.perm_cons_erase hb).map _

/-- The block `kn` has given way to `b`. -/
theorem HoldsLive.replace (hl : HoldsLive h.view cells live) (hkn : kn ∈ cells.tail)
    (hdone : Reallocated none h cells kn size align h' b cells') :
    HoldsLive h'.view cells' ((b + kmemNodeSize, size) ::
      live.erase (kn + kmemNodeSize, h.view.sz kn)) := by
  have hbase : kmemHeapBase ∈ cells.erase kn := by
    refine (List.mem_erase_of_ne ?_).mpr (List.mem_of_head? hl.1.head)
    rintro rfl
    have hnodup := hl.1.nodup
    rw [hl.1.eq_cons] at hnodup
    exact (List.nodup_cons.mp hnodup).1 hkn
  have hb : b ∈ cells'.tail := by
    have hmem := hdone.live.1
    rw [hdone.heapList.eq_cons] at hmem
    rcases List.mem_cons.mp hmem with rfl | hmem
    · rw [← hdone.live.2, hdone.heapList.nodup.mem_erase_iff] at hbase
      exact absurd rfl hbase.1
    · exact hmem
  have hnew := payloads_erase hdone.heapList hb
  have hold := payloads_erase hl.1 hkn
  rw [hdone.live.2, hdone.sz_new] at hnew
  have hrest : (cells.erase kn).tail.map (fun a => (a + kmemNodeSize, h'.view.sz a)) =
      (cells.erase kn).tail.map fun a => (a + kmemNodeSize, h.view.sz a) := by
    refine List.map_congr_left fun x hx => ?_
    have hx' := hl.1.nodup.mem_erase_iff.mp (List.mem_of_mem_tail hx)
    rw [hdone.sz_old x hx'.2 hx'.1]
  rw [hrest] at hnew
  have hmem : (kn + kmemNodeSize, h.view.sz kn) ∈ live :=
    hl.2.subset (List.mem_map.mpr ⟨kn, hkn, rfl⟩)
  have hlive := (hold.symm.trans hl.2).trans (List.perm_cons_erase hmem)
  exact ⟨hdone.heapList, hnew.trans (List.Perm.cons _ hlive.cons_inv)⟩

theorem holdsLive_kreallocBytes (hl : HoldsLive h.view cells live) (hptr : (ptr, old) ∈ live)
    (hal : 1 ≤ align) (hwrap : ReallocNoWrap h ptr size align) (hsafe : CopySafe h ptr size align) :
    ∃ cells' h' p, Returns (fun fuel => kreallocAlignBytes none fuel h ptr size align) (h', p) ∧
      HoldsLive h'.view cells' ((p, size) :: live.erase (ptr, old)) := by
  obtain ⟨left, it, b, right, hcells, rfl, rfl⟩ := hl.split hptr
  have hb : b ∈ cells.tail := by
    rw [hcells]
    cases left <;> simp
  rw [ReallocNoWrap, Nat.add_sub_cancel] at hwrap
  rw [CopySafe, Nat.add_sub_cancel] at hsafe
  by_cases hroom : RoomBehind h b size
  · have hdone := @reallocated_stays none h cells b size 1 hl.1 hb hroom (one_dvd _)
    exact ⟨cells, _, _, ⟨0, fun fuel _ =>
      kreallocAlignBytes_stays hl.1 (List.mem_of_mem_tail hb) hroom fuel⟩, hl.replace hb hdone⟩
  · have hfits := hwrap.resolve_left hroom cells hl.1.head hl.1.linked
    have hclear := (hsafe.resolve_left hroom).imp_right fun hclear => hclear cells hl.1
    obtain ⟨h', cells', hdone⟩ := reallocated_moves hl.1 hb hroom hal rfl hfits (noUnit h _) hclear
    exact ⟨cells', h', _, hdone.returns, hl.replace hb hdone⟩

/-- What the owners of the blocks write touches no header. -/
theorem HoldsLive.write (hl : HoldsLive h.view cells live) {mem : Bytes}
    (hmem : ∀ y, (∀ q ∈ live, y < q.1 ∨ q.1 + q.2 ≤ y) → mem y = h.mem y) :
    HoldsLive ({ h with mem := mem } : ByteHeap).view cells live := by
  have hnode : ∀ x ∈ cells, headerAt mem x = headerAt h.mem x := by
    intro x hx
    have hword : ∀ o ≤ 16, wordAt mem x o = wordAt h.mem x o := by
      intro o ho
      refine getLe_congr fun i hi => hmem _ fun q hq => ?_
      obtain ⟨c, hc, rfl⟩ := List.mem_map.mp (hl.2.symm.subset hq)
      by_cases hxc : x = c
      · subst hxc
        unfold kmemNodeSize
        omega
      · rcases hl.1.blockEnd_le_or hx (List.mem_of_mem_tail hc) hxc with hle | hle
        · unfold blockEnd at hle
          unfold kmemNodeSize at hle ⊢
          omega
        · unfold blockEnd at hle
          omega
    rw [headerAt, headerAt, hword 0 (by omega), hword 8 (by omega), hword 16 le_rfl]
  refine ⟨hl.1.congr_nodes hnode rfl, ?_⟩
  have hsame : payloads ({ h with mem := mem } : ByteHeap).view cells = payloads h.view cells := by
    refine List.map_congr_left fun x hx => ?_
    rw [Kmem.sz, Kmem.sz]
    exact congrArg (fun n : KmemNode => (x + kmemNodeSize, n.sz)) (hnode x (List.mem_of_mem_tail hx))
  rw [hsame]
  exact hl.2

/-- Every heap of a history in which the copies are safe holds exactly the live blocks. -/
theorem heapHistory_holdsLive (hist : HeapHistory CopySafe h live) :
    ∃ cells, HoldsLive h.view cells live := by
  induction hist with
  | init mem size_zero => exact ⟨_, holdsLive_init_bytes mem size_zero⟩
  | kmalloc _ hal hwrap hret ih =>
      obtain ⟨cells, hl⟩ := ih
      obtain ⟨_, _, _, _, _, -, -, hl', hret'⟩ := holdsLive_kmallocBytes hl hal hwrap
      obtain ⟨rfl, rfl⟩ := Prod.mk.inj (hret'.unique hret)
      exact ⟨_, hl'⟩
  | krealloc _ hptr hal hwrap hsafe hret ih =>
      obtain ⟨cells, hl⟩ := ih
      obtain ⟨cells', _, _, hret', hl'⟩ := holdsLive_kreallocBytes hl hptr hal hwrap hsafe
      obtain ⟨rfl, rfl⟩ := Prod.mk.inj (hret'.unique hret)
      exact ⟨cells', hl'⟩
  | kfree _ hptr ih =>
      obtain ⟨cells, hl⟩ := ih
      exact holdsLive_kfreeBytes hl hptr
  | write mem _ hmem ih =>
      obtain ⟨cells, hl⟩ := ih
      exact ⟨cells, hl.write hmem⟩

/-- The headers of a list are given by its nodes and their sizes. -/
theorem HeapList.node_eq {m m' : Kmem Unit} (hl : HeapList m cells) (hl' : HeapList m' cells)
    (hsz : ∀ x ∈ cells, m'.sz x = m.sz x) : ∀ x ∈ cells, m'.node x = m.node x := by
  intro x hx
  have hlinks : m'.next x = m.next x ∧ m'.prev x = m.prev x := by
    obtain ⟨left, right, rfl⟩ := List.append_of_mem hx
    refine ⟨?_, ?_⟩
    · rw [Segment.next_of_append hl.linked, Segment.next_of_append hl'.linked]
    · rw [Segment.prev_of_append hl.linked, Segment.prev_of_append hl'.linked]
  have hext : ∀ n n' : KmemNode, n.sz = n'.sz → n.next = n'.next → n.prev = n'.prev → n = n' := by
    rintro ⟨_, _, _⟩ ⟨_, _, _⟩ rfl rfl rfl
    rfl
  exact hext _ _ (hsz x hx) hlinks.1 hlinks.2

/-- Freeing the block that was just allocated gives the old list back. -/
theorem kfree_kmallocBytes (hall : AllocatedBytes h h' left right it b size align)
    (hl : HeapList h.view (left ++ it :: right)) :
    HeapList (kfreeBytes h' (b + kmemNodeSize)).view (left ++ it :: right) ∧
      ∀ x ∈ left ++ it :: right,
        (kfreeBytes h' (b + kmemNodeSize)).view.node x = h.view.node x := by
  obtain ⟨hfreed, hsz, -⟩ := kfreeBytes_spec hall.heapList
  refine ⟨hfreed, hl.node_eq hfreed fun x hx => ?_⟩
  exact (hsz x (mem_around b hx)).trans (hall.sz_old x hx)

end Steps

/--
The heap is right for the blocks in use: its list is in address order and linked
both ways, with the blocks apart and between the heap base and `occupied_to`, and it
holds exactly the blocks in use; a request gives an aligned block, and `kfree` of that
block restores the list.
-/
structure HeapRight (h : ByteHeap) (live : List (Nat × Nat)) (cells : List Nat) : Prop where
  heapList : HeapList h.view cells
  ascending : cells.Pairwise (· < ·)
  live_eq : (payloads h.view cells).Perm live
  between : ∀ q ∈ live, kmemHeapBase ≤ q.1 ∧ q.1 + q.2 ≤ h.occupiedTo
  request : ∀ size align, 1 ≤ align → NoWrap h.view size align →
    ∃ h' p, Returns (fun fuel => kmallocAlignBytes none fuel h size align) (h', p) ∧ align ∣ p ∧
      HeapList (kfreeBytes h' p).view cells ∧
      ∀ x ∈ cells, (kfreeBytes h' p).view.node x = h.view.node x

theorem HoldsLive.heapRight (hl : HoldsLive h.view cells live) : HeapRight h live cells := by
  refine ⟨hl.1, ?_, hl.2, ?_, ?_⟩
  · exact hl.1.apart.imp fun {x y} hxy => by
      unfold blockEnd kmemNodeSize at hxy
      omega
  · intro q hq
    obtain ⟨b, hb, rfl⟩ := List.mem_map.mp (hl.2.symm.subset hq)
    have hbelow := hl.1.below b hb
    have hbase := hl.1.base_le (List.mem_of_mem_tail hb)
    unfold blockEnd at hbelow
    rw [ByteHeap.view_occupiedTo] at hbelow
    dsimp only
    omega
  · intro size align hal hwrap
    obtain ⟨left, it, b, right, h', rfl, hall, -, hret⟩ := holdsLive_kmallocBytes hl hal hwrap
    exact ⟨h', _, hret, hall.aligned, kfree_kmallocBytes hall hl.1⟩

/--
In every history whose copies are safe the heap is right for the live blocks, and
the next `krealloc_align` of a live block with a safe copy returns.
-/
theorem kmem_list_invariant (hist : HeapHistory CopySafe h live) :
    (∃ cells, HeapRight h live cells) ∧
      ∀ q ∈ live, ∀ size align, 1 ≤ align → ReallocNoWrap h q.1 size align →
        CopySafe h q.1 size align →
        ∃ r, Returns (fun fuel => kreallocAlignBytes none fuel h q.1 size align) r := by
  obtain ⟨cells, hl⟩ := heapHistory_holdsLive hist
  refine ⟨⟨cells, hl.heapRight⟩, fun q hq size align hal hwrap hsafe => ?_⟩
  obtain ⟨-, h', p, hret, -⟩ := holdsLive_kreallocBytes hl hq hal hwrap hsafe
  exact ⟨(h', p), hret⟩

section Examples

theorem kmallocAlignBytes_tail {k : Nat}
    (hsearch : gapSearch h.view size align k kmemHeapBase = some (.tail it)) :
    Returns (fun fuel => kmallocAlignBytes none fuel h size align)
      (linkTailBytes
        { h with
          occupiedTo := grownTo none h.occupiedTo (u64 (gapBegin h.view it align + kmemNodeSize + size)) }
        it (gapBegin h.view it align) size, u64 (gapBegin h.view it align + kmemNodeSize)) := by
  refine ⟨k, fun fuel hfuel => ?_⟩
  simp only [kmallocAlignBytes, gapSearch_mono hfuel hsearch, Option.map_some]

/-- A block of 8 bytes. -/
def oneBlock : ByteHeap :=
  linkTailBytes { (kmemInitBytes fun _ => 0) with occupiedTo := 0x200038 } 0x200000 0x200018 8

/-- One of 64 bytes behind it. -/
def twoBlocks : ByteHeap :=
  linkTailBytes { oneBlock with occupiedTo := 0x200090 } 0x200018 0x200038 64

/-- The first block given back. -/
def gapAhead : ByteHeap := kfreeBytes twoBlocks 0x200030

theorem oneBlock_heapList : HeapList oneBlock.view [0x200000, 0x200018] :=
  ⟨rfl, by decide +kernel, ⟨by decide +kernel, by decide +kernel, by decide +kernel,
    by decide +kernel, trivial⟩, by decide +kernel, by decide +kernel, by decide +kernel⟩

theorem gapAhead_heapList : HeapList gapAhead.view [0x200000, 0x200038] :=
  ⟨rfl, by decide +kernel, ⟨by decide +kernel, by decide +kernel, by decide +kernel,
    by decide +kernel, trivial⟩, by decide +kernel, by decide +kernel, by decide +kernel⟩

theorem gapAhead_history {ok : ByteHeap → Nat → Nat → Nat → Prop} :
    HeapHistory ok gapAhead [(0x200050, 64)] := by
  have hstart := holdsLive_init_bytes (fun _ => 0) (by decide +kernel)
  have hfirst : Returns (fun fuel => kmallocAlignBytes none fuel (kmemInitBytes fun _ => 0) 8 1)
      (oneBlock, 0x200030) := by
    have hblk : gapBegin (kmemInitBytes fun _ => 0).view 0x200000 1 = 0x200018 := by decide +kernel
    have hret := @kmallocAlignBytes_tail (kmemInitBytes fun _ => 0) 0x200000 8 1 1 (by decide +kernel)
    rwa [hblk] at hret
  have hsecond : Returns (fun fuel => kmallocAlignBytes none fuel oneBlock 64 1)
      (twoBlocks, 0x200050) := by
    have hblk : gapBegin oneBlock.view 0x200018 1 = 0x200038 := by decide +kernel
    have hret := @kmallocAlignBytes_tail oneBlock 0x200018 64 1 2 (by decide +kernel)
    rwa [hblk] at hret
  have hone : HeapHistory ok oneBlock [(0x200030, 8)] :=
    .kmalloc (.init _ (by decide +kernel)) le_rfl (hstart.1.noWrap (by decide +kernel)) hfirst
  have htwo : HeapHistory ok twoBlocks [(0x200050, 64), (0x200030, 8)] :=
    .kmalloc hone le_rfl (oneBlock_heapList.noWrap (by decide +kernel)) hsecond
  exact @HeapHistory.kfree _ _ _ 0x200030 8 htwo (by decide)

/-- The owner of the second block writes into it. -/
def ownerWrote : ByteHeap := { gapAhead with mem := setLe gapAhead.mem 0x200050 8 7 }

theorem ownerWrote_heapList : HeapList ownerWrote.view [0x200000, 0x200038] :=
  ⟨rfl, by decide +kernel, ⟨by decide +kernel, by decide +kernel, by decide +kernel,
    by decide +kernel, trivial⟩, by decide +kernel, by decide +kernel, by decide +kernel⟩

/-- The second block written, and then grown to 100 bytes. -/
theorem kmem_list_invariant_grown : ∃ h p, HeapHistory CopySafe h [(p, 100)] ∧
    ∃ cells, HeapRight h [(p, 100)] cells := by
  have hwrote : HeapHistory CopySafe ownerWrote [(0x200050, 64)] := by
    refine gapAhead_history.write _ fun y hy => setLe_of_outside ?_
    have hout := hy (0x200050, 64) (List.mem_singleton_self _)
    omega
  have hwrap : ReallocNoWrap ownerWrote 0x200050 100 1 :=
    .inr (ownerWrote_heapList.noWrap (by decide +kernel))
  have hsafe : CopySafe ownerWrote 0x200050 100 1 := .inr (.inl (by decide +kernel))
  obtain ⟨⟨h, p⟩, hret⟩ := (kmem_list_invariant hwrote).2 (0x200050, 64) (List.mem_singleton_self _)
    100 1 le_rfl hwrap hsafe
  have hgrown : HeapHistory CopySafe h [(p, 100)] :=
    @HeapHistory.krealloc _ _ _ _ _ 64 _ _ _ hwrote (List.mem_singleton_self _) le_rfl hwrap hsafe
      hret
  exact ⟨h, p, hgrown, (kmem_list_invariant hgrown).1⟩

/-- The second block shrunk to 8 bytes: it moves ahead, and is copied over its own header. -/
def brokenHeap : ByteHeap :=
  kfreeBytes ((linkGapBytes gapAhead 0x200000 0x200018 0x200038 8).copy 0x200030 0x200050 64) 0x200050

theorem gapAhead_not_roomBehind : ¬ RoomBehind gapAhead 0x200038 8 := by
  rintro ⟨c, hc, -⟩
  have hnext : gapAhead.view.next 0x200038 = none := by decide +kernel
  cases hnext.symm.trans hc

theorem kreallocAlignBytes_gapAhead :
    Returns (fun fuel => kreallocAlignBytes none fuel gapAhead 0x200050 8 1)
      (brokenHeap, 0x200030) := by
  have hsearch : gapSearch gapAhead.view 8 1 1 kmemHeapBase =
      some (.gap 0x200000 0x200018 0x200038) := by decide +kernel
  have hsz : (linkGapBytes gapAhead 0x200000 0x200018 0x200038 8).view.sz 0x200038 = 64 := by
    decide +kernel
  refine ⟨1, fun fuel hfuel => ?_⟩
  show kreallocAlignBytes none fuel gapAhead (0x200038 + kmemNodeSize) 8 1 = _
  rw [
    kreallocAlignBytes_moves gapAhead_heapList (by decide) gapAhead_not_roomBehind (by decide),
    kmallocAlignBytes, gapSearch_mono hfuel hsearch, Option.map_some, Option.map_some]
  simp only [hsz]
  exact congrArg some (if_neg (by decide))

/-- The block that was given back is still in the list. -/
theorem kmem_list_invariant_broken :
    ∃ h live, HeapHistory (fun _ _ _ _ => True) h live ∧ ¬ ∃ cells, HeapRight h live cells := by
  have hwrap : NoWrap gapAhead.view 8 1 := gapAhead_heapList.noWrap (by decide +kernel)
  have hhist := @HeapHistory.krealloc (fun _ _ _ _ => True) _ _ _ _ 64 _ _ _ gapAhead_history
    (by decide) le_rfl (.inr hwrap) trivial kreallocAlignBytes_gapAhead
  refine ⟨_, _, hhist, ?_⟩
  rintro ⟨cells, hright⟩
  have hnext : brokenHeap.view.next 0x200000 = some 0x200018 ∧
      brokenHeap.view.next 0x200018 = some 0x200038 := by decide +kernel
  -- The list has as many blocks as are live, one; the links lead to two.
  have hlen : cells.tail.length = 1 := by simpa [payloads] using hright.live_eq.length_eq
  have hlinked := hright.heapList.linked
  rw [hright.heapList.eq_cons] at hlinked
  obtain ⟨b, htail⟩ := List.length_eq_one_iff.mp hlen
  rw [htail] at hlinked
  have hfirst : brokenHeap.view.next kmemHeapBase = some b := hlinked.2.1
  have hlast : brokenHeap.view.next b = none := hlinked.2.2.2.1
  obtain rfl := Option.some.inj (hfirst.symm.trans hnext.1)
  cases hlast.symm.trans hnext.2

end Examples

end UntitledOs.Kernlib
