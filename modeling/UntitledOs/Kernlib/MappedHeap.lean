import UntitledOs.Kernlib.BootHeap

/-!
# The pages behind the heap

With map functions installed the heap asks for pages as it grows.  The state of
the map function is the list of its requests, newest first; the function maps the
page-rounded range and does not allocate.  As long as the page of `occupied_to`
is the last one mapped whenever the heap grows, the mapped pages have no hole.
-/

namespace UntitledOs.Kernlib

open UntitledOs.Lib

/-- An address and a number of bytes. -/
abbrev Request := Nat × Nat

/-- The map function records its requests; lock calls do nothing. -/
def mapEnv (unit : Nat) : KmemEnv (List Request) :=
  ⟨false, some ⟨fun vaddr usize m => some { m with ext := (vaddr, usize) :: m.ext }, unit⟩⟩

/-- `n` rounded up to whole pages. -/
def pageRound (unit n : Nat) : Nat := (n + unit - 1) / unit * unit

/-- The page `p` is one that the request maps. -/
def Request.Maps (unit p : Nat) (r : Request) : Prop :=
  r.1 ≤ p * unit ∧ p * unit < r.1 + pageRound unit r.2

/-- The page `p` was mapped before, below `start`, or by a request. -/
def PageMapped (unit start : Nat) (requests : List Request) (p : Nat) : Prop :=
  p * unit < start ∨ ∃ r ∈ requests, Request.Maps unit p r

/-- The pages of headers and payloads are mapped, and no page is mapped again. -/
structure HeapBacked (unit start : Nat) (requests blocks : List Request) : Prop where
  backed : ∀ b ∈ blocks, ∀ x, b.1 - kmemNodeSize ≤ x → x < b.1 + b.2 →
    PageMapped unit start requests (x / unit)
  once : requests.Pairwise fun r r' => ∀ p, ¬ (Request.Maps unit p r ∧ Request.Maps unit p r')
  fresh : ∀ r ∈ requests, ∀ p, Request.Maps unit p r → start ≤ p * unit

/-- The end of the last mapped page. -/
def mappedEnd (unit start : Nat) : List Request → Nat
  | [] => start
  | r :: _ => r.1 + pageRound unit r.2

/-- What a call needs when it goes behind the last node: if it raises `occupied_to`, the
page of `occupied_to` is the last one mapped, and if not, the block ends inside the
mapped pages. -/
def GrowsContiguous (unit start : Nat) (m : Kmem (List Request)) (size align : Nat) : Prop :=
  ∀ cells it, cells.head? = some kmemHeapBase → LinkedList m.next m.prev cells →
    firstGap m size align kmemHeapBase cells.tail = .tail it →
    let top := alignedFrom (blockEnd m it) align + kmemNodeSize + size
    if m.occupiedTo < top then
      top + 2 * unit < 2 ^ 64 ∧
        mappedEnd unit start m.ext = m.occupiedTo - m.occupiedTo % unit + unit
    else top ≤ mappedEnd unit start m.ext

/-- Runs of `kmalloc_align` from the heap `m₀` on, with the blocks they gave. -/
inductive MapRun (unit : Nat) (ok : Kmem (List Request) → Nat → Nat → Prop)
    (m₀ : Kmem (List Request)) : Kmem (List Request) → List Request → Prop
  | start : MapRun unit ok m₀ m₀ []
  | kmalloc {m m' : Kmem (List Request)} {blocks : List Request} {size align ptr : Nat}
      (run : MapRun unit ok m₀ m blocks) (hal : 1 ≤ align) (wraps : NoWrap m size align)
      (isOk : ok m size align)
      (returns : Returns (fun fuel => kmallocAlign (mapEnv unit) fuel m size align) (m', ptr)) :
      MapRun unit ok m₀ m' ((ptr, size) :: blocks)

/-- Each request starts where the mapped pages end. -/
def Contiguous (unit start : Nat) : List Request → Prop
  | [] => True
  | r :: rest => r.1 = mappedEnd unit start rest ∧ Contiguous unit start rest

section Requests

variable {unit start n x p : Nat} {r : Request} {requests : List Request}

theorem le_pageRound (hunit : 0 < unit) (n : Nat) : n ≤ pageRound unit n := by
  have hdiv := Nat.div_add_mod (n + unit - 1) unit
  have hmod := Nat.mod_lt (n + unit - 1) hunit
  unfold pageRound
  rw [Nat.mul_comm]
  omega

@[simp] theorem mappedEnd_cons (unit start : Nat) (r : Request) (rest : List Request) :
    mappedEnd unit start (r :: rest) = r.1 + pageRound unit r.2 := rfl

theorem start_le_mappedEnd (h : Contiguous unit start requests) :
    start ≤ mappedEnd unit start requests := by
  induction requests with
  | nil => exact le_refl _
  | cons r rest ih =>
      obtain ⟨hr, hrest⟩ := h
      have := ih hrest
      rw [mappedEnd_cons]
      omega

/-- The pages of the requests lie between the start and the end. -/
theorem Contiguous.bounds (h : Contiguous unit start requests) (hr : r ∈ requests)
    (hp : Request.Maps unit p r) :
    start ≤ p * unit ∧ p * unit < mappedEnd unit start requests := by
  induction requests with
  | nil => cases hr
  | cons q rest ih =>
      obtain ⟨hq, hrest⟩ := h
      have hle := start_le_mappedEnd hrest
      rw [mappedEnd_cons]
      rcases List.mem_cons.mp hr with rfl | hr
      · obtain ⟨hlow, hhigh⟩ := hp
        exact ⟨by omega, hhigh⟩
      · obtain ⟨hlow, hhigh⟩ := ih hrest hr
        exact ⟨hlow, by omega⟩

theorem Contiguous.once (h : Contiguous unit start requests) :
    requests.Pairwise fun r r' => ∀ p, ¬ (Request.Maps unit p r ∧ Request.Maps unit p r') := by
  induction requests with
  | nil => exact List.Pairwise.nil
  | cons q rest ih =>
      obtain ⟨hq, hrest⟩ := h
      refine List.Pairwise.cons (fun r hr p hboth => ?_) (ih hrest)
      have hhigh := (hrest.bounds hr hboth.2).2
      have hlow := hboth.1.1
      omega

theorem Contiguous.pageMapped (h : Contiguous unit start requests)
    (hp : p * unit < mappedEnd unit start requests) : PageMapped unit start requests p := by
  induction requests with
  | nil => exact Or.inl hp
  | cons q rest ih =>
      obtain ⟨hq, hrest⟩ := h
      by_cases hlt : p * unit < mappedEnd unit start rest
      · rcases ih hrest hlt with hstart | ⟨r, hr, hmaps⟩
        · exact Or.inl hstart
        · exact Or.inr ⟨r, List.mem_cons_of_mem _ hr, hmaps⟩
      · refine Or.inr ⟨q, List.mem_cons_self .., ?_, hp⟩
        omega

end Requests

/-! ## What a call does to the mapped pages -/

variable {unit start : Nat}

@[simp] theorem mapEnv_spin (unit : Nat) : (mapEnv unit).spin = false := rfl

/-- The new requests and the new `occupied_to` of a growth up to `top`. -/
structure Grown (unit start : Nat) (m grown : Kmem (List Request)) (top : Nat) : Prop where
  eq : grown = { m with ext := grown.ext, occupiedTo := grown.occupiedTo }
  contiguous : Contiguous unit start grown.ext
  mono : mappedEnd unit start m.ext ≤ mappedEnd unit start grown.ext
  backed : top ≤ mappedEnd unit start grown.ext
  covers : top ≤ grown.occupiedTo
  occupied : m.occupiedTo ≤ grown.occupiedTo ∧ grown.occupiedTo < 2 ^ 64

theorem growHeap_grown {m : Kmem (List Request)} {top : Nat} (hunit : 0 < unit)
    (hcont : Contiguous unit start m.ext) (hocc : m.occupiedTo < 2 ^ 64)
    (hgrow : if m.occupiedTo < top then
      top + 2 * unit < 2 ^ 64 ∧
        mappedEnd unit start m.ext = m.occupiedTo - m.occupiedTo % unit + unit
      else top ≤ mappedEnd unit start m.ext) :
    ∃ grown, growHeap (mapEnv unit) m top = some grown ∧ Grown unit start m grown top := by
  unfold growHeap
  by_cases htop : m.occupiedTo < top
  · rw [if_pos htop] at hgrow ⊢
    obtain ⟨hlt, hend⟩ := hgrow
    have hmod := Nat.mod_le m.occupiedTo unit
    have hrest := Nat.mod_lt top hunit
    have hraise : u64 (top + (unit - top % unit)) = top + (unit - top % unit) :=
      u64_of_lt (by omega)
    have hsub : sub64 top (m.occupiedTo - m.occupiedTo % unit) =
        top - (m.occupiedTo - m.occupiedTo % unit) := sub64_of_le (by omega) (by omega)
    have hnext : u64 (m.occupiedTo - m.occupiedTo % unit + unit) =
        m.occupiedTo - m.occupiedTo % unit + unit := u64_of_lt (by omega)
    simp only [mapEnv, hraise, hsub, hnext]
    by_cases hmap : top - (m.occupiedTo - m.occupiedTo % unit) > unit
    · -- the request goes up to its own length behind the page of `occupied_to`
      have hround := le_pageRound hunit (top - (m.occupiedTo - m.occupiedTo % unit))
      rw [if_pos hmap]
      refine ⟨_, rfl, rfl, ⟨hend.symm, hcont⟩, ?_, ?_, ?_, ?_, ?_⟩
      · simp only [mappedEnd_cons]
        omega
      · simp only [mappedEnd_cons]
        omega
      · show top ≤ top + (unit - top % unit)
        omega
      · show m.occupiedTo ≤ top + (unit - top % unit)
        omega
      · show top + (unit - top % unit) < 2 ^ 64
        omega
    · rw [if_neg hmap]
      refine ⟨_, rfl, rfl, hcont, le_refl _, ?_, ?_, ?_, ?_⟩
      · show top ≤ mappedEnd unit start m.ext
        omega
      · show top ≤ top + (unit - top % unit)
        omega
      · show m.occupiedTo ≤ top + (unit - top % unit)
        omega
      · show top + (unit - top % unit) < 2 ^ 64
        omega
  · rw [if_neg htop] at hgrow ⊢
    exact ⟨m, rfl, rfl, hcont, le_refl _, hgrow, by omega, le_refl _, hocc⟩

/-- The nodes and the blocks handed out lie below the end of the mapped pages. -/
structure BelowMapped (unit start : Nat) (m : Kmem (List Request)) (cells : List Nat)
    (blocks : List Request) : Prop where
  list : HeapList m cells
  nodes : ∀ b ∈ cells.tail, blockEnd m b ≤ mappedEnd unit start m.ext
  blocks : ∀ b ∈ blocks, kmemNodeSize ≤ b.1 ∧ b.1 + b.2 ≤ mappedEnd unit start m.ext
  contiguous : Contiguous unit start m.ext

theorem BelowMapped.link {m m' : Kmem (List Request)} {left right : List Nat} {it b size : Nat}
    {blocks : List Request} (h : BelowMapped unit start m (left ++ it :: right) blocks)
    (hlist : HeapList m' (left ++ it :: b :: right))
    (hszs : ∀ x ∈ left ++ it :: right, m'.sz x = m.sz x) (hsz : m'.sz b = size)
    (hcont : Contiguous unit start m'.ext)
    (hmono : mappedEnd unit start m.ext ≤ mappedEnd unit start m'.ext)
    (hend : b + kmemNodeSize + size ≤ mappedEnd unit start m'.ext) :
    BelowMapped unit start m' (left ++ it :: b :: right)
      ((b + kmemNodeSize, size) :: blocks) := by
  refine ⟨hlist, ?_, ?_, hcont⟩
  · intro x hx
    rcases List.mem_cons.mp ((tail_insert_perm left right it b).mem_iff.mp hx) with rfl | hx
    · unfold blockEnd
      rwa [hsz]
    · have hold := h.nodes x hx
      unfold blockEnd at hold ⊢
      rw [hszs x (List.mem_of_mem_tail hx)]
      exact hold.trans hmono
  · intro r hr
    rcases List.mem_cons.mp hr with rfl | hr
    · exact ⟨Nat.le_add_left _ _, hend⟩
    · exact ⟨(h.blocks r hr).1, (h.blocks r hr).2.trans hmono⟩

theorem BelowMapped.kmalloc {m m' : Kmem (List Request)} {cells : List Nat}
    {blocks : List Request} {size align ptr : Nat} (hunit : 0 < unit)
    (h : BelowMapped unit start m cells blocks) (hal : 1 ≤ align)
    (hwraps : NoWrap m size align) (hok : GrowsContiguous unit start m size align)
    (hret : Returns (fun fuel => kmallocAlign (mapEnv unit) fuel m size align) (m', ptr)) :
    ∃ cells', BelowMapped unit start m' cells' ((ptr, size) :: blocks) := by
  have hlist := h.list
  have hwrap := hwraps cells hlist.head hlist.linked
  have hfound := hlist.firstGap_found size align
  have hgap := fun it b a : Nat =>
    @kmallocAlign_gap _ (mapEnv unit) rfl m cells size align it b a hlist hal hwrap
  have htail := fun it : Nat =>
    @kmallocAlign_tail _ (mapEnv unit) rfl m cells size align it hlist hal hwrap
  have hgrow := fun it : Nat => hok cells it hlist.head hlist.linked
  generalize firstGap m size align kmemHeapBase cells.tail = outcome
    at hfound hgap htail hgrow
  cases hfound with
  | gap left right it a hcells hfit hplace =>
      obtain ⟨left, right, rfl, halloc, hcall⟩ := hgap _ _ _ rfl
      have heq := hret.unique ⟨_, hcall⟩
      simp only [Prod.mk.injEq] at heq
      obtain ⟨rfl, rfl⟩ := heq
      have hmem : a ∈ (left ++ it :: a :: right).tail := by cases left <;> simp
      have ha := h.nodes a hmem
      refine ⟨_, h.link halloc.heapList halloc.linkedIn.sz_old halloc.linkedIn.sz_new
        h.contiguous (le_refl _) ?_⟩
      show _ ≤ mappedEnd unit start m.ext
      unfold blockEnd at ha
      omega
  | tail left it hcells hplace =>
      obtain ⟨grown, heq, hgrown⟩ :=
        growHeap_grown hunit h.contiguous hlist.limit.2 (hgrow it rfl)
      have hcall := htail it rfl
      rw [heq] at hcall
      subst hcells
      generalize hb : alignedFrom (blockEnd m it) align = b at *
      have hlow : blockEnd m it ≤ b := by
        rw [← hb]
        exact le_alignedFrom _ _
      have hret' := hret.unique ⟨_, hcall⟩
      simp only [Prod.mk.injEq] at hret'
      obtain ⟨rfl, rfl⟩ := hret'
      -- the map function leaves the nodes alone
      have hext : HeapList { m with ext := grown.ext } (left ++ [it]) :=
        ⟨hlist.head, hlist.head_sz, hlist.linked, hlist.apart, hlist.below, hlist.limit⟩
      obtain ⟨hin, hnew⟩ := hext.link_tail size grown.occupiedTo hlow hgrown.covers
        hgrown.occupied
      have hstate : ({ m with ext := grown.ext, occupiedTo := grown.occupiedTo } :
          Kmem (List Request)) = grown := hgrown.eq.symm
      rw [hstate] at hin hnew
      exact ⟨_, h.link hnew hin.sz_old hin.sz_new hgrown.contiguous hgrown.mono hgrown.backed⟩

theorem MapRun.belowMapped {m₀ m : Kmem (List Request)} {cells₀ : List Nat}
    {blocks : List Request} (hunit : 0 < unit)
    (hstart : BelowMapped unit start m₀ cells₀ [])
    (hrun : MapRun unit (GrowsContiguous unit start) m₀ m blocks) :
    ∃ cells, BelowMapped unit start m cells blocks := by
  induction hrun with
  | start => exact ⟨cells₀, hstart⟩
  | kmalloc run hal wraps isOk returns ih =>
      obtain ⟨cells, h⟩ := ih
      exact h.kmalloc hunit hal wraps isOk returns

theorem BelowMapped.backed {m : Kmem (List Request)} {cells : List Nat}
    {blocks : List Request} (h : BelowMapped unit start m cells blocks) :
    HeapBacked unit start m.ext blocks := by
  refine ⟨?_, h.contiguous.once, fun r hr p hp => (h.contiguous.bounds hr hp).1⟩
  intro b hb x _ hx
  refine h.contiguous.pageMapped ?_
  have := (h.blocks b hb).2
  have := Nat.div_mul_le_self x unit
  omega

/-- Every page of a block is mapped, and mapped once. -/
theorem mapRun_backed {m₀ m : Kmem (List Request)} {cells₀ : List Nat}
    {blocks : List Request} (hunit : 0 < unit) (hlist : HeapList m₀ cells₀)
    (hext : m₀.ext = [])
    (hrun : MapRun unit (GrowsContiguous unit (pageRound unit m₀.occupiedTo)) m₀ m blocks) :
    HeapBacked unit (pageRound unit m₀.occupiedTo) m.ext blocks := by
  have hround := le_pageRound hunit m₀.occupiedTo
  have hstart : BelowMapped unit (pageRound unit m₀.occupiedTo) m₀ cells₀ [] := by
    refine ⟨hlist, fun b hb => ?_, by simp, by rw [hext]; trivial⟩
    have := hlist.below b hb
    rw [hext]
    exact this.trans hround
  obtain ⟨cells, h⟩ := hrun.belowMapped hunit hstart
  exact h.backed

theorem HeapList.growsContiguous {m : Kmem (List Request)} {cells : List Nat}
    {size align it : Nat} (h : HeapList m cells)
    (htail : firstGap m size align kmemHeapBase cells.tail = .tail it)
    (hgrow : m.occupiedTo < alignedFrom (blockEnd m it) align + kmemNodeSize + size)
    (hlt : alignedFrom (blockEnd m it) align + kmemNodeSize + size + 2 * unit < 2 ^ 64)
    (hend : mappedEnd unit start m.ext = m.occupiedTo - m.occupiedTo % unit + unit) :
    GrowsContiguous unit start m size align := by
  intro cells' it' hhead hlinked htail'
  rw [← Segment.unique h.linked hlinked (h.head.trans hhead.symm), htail] at htail'
  cases htail'
  simp only [if_pos hgrow]
  exact ⟨hlt, hend⟩

/-- The heap with one block of 16 bytes from the boot phase. -/
def bootedHeap : Kmem (List Request) :=
  linkTail { kmemInit [] with occupiedTo := 0x200040 } kmemHeapBase 0x200018 16

theorem bootedHeap_heapList : HeapList bootedHeap [kmemHeapBase, 0x200018] :=
  (@HeapList.link_tail _ _ [] kmemHeapBase 0x200018 16 0x200040 (holdsLive_init []).1
    (by decide) (by decide) (by decide)).2

/-- Behind it a block of two pages, for which the heap had to grow. -/
def grownHeap : Kmem (List Request) :=
  linkTail { bootedHeap with ext := [(0x201000, 0x2058)], occupiedTo := 0x203000 } 0x200018
    0x200040 8192

theorem grownHeap_heapList : HeapList grownHeap [kmemHeapBase, 0x200018, 0x200040] := by
  have hlist := bootedHeap_heapList
  have hext : HeapList { bootedHeap with ext := [(0x201000, 0x2058)] }
      ([kmemHeapBase] ++ [0x200018]) :=
    ⟨hlist.head, hlist.head_sz, hlist.linked, hlist.apart, hlist.below, hlist.limit⟩
  exact (hext.link_tail 8192 0x203000 (by decide) (by decide) (by decide)).2

/-- And a second one behind that. -/
def twiceGrownHeap : Kmem (List Request) :=
  linkTail
    { grownHeap with ext := [(0x204000, 0x1070), (0x201000, 0x2058)], occupiedTo := 0x205000 }
    0x200040 0x202058 8192

theorem HeapList.kmalloc_grows {m m₁ : Kmem (List Request)} {cells : List Nat} {size align it : Nat}
    (h : HeapList m cells) (hal : 1 ≤ align)
    (hwrap : placement m size align cells + kmemNodeSize + size < 2 ^ 64)
    (htail : firstGap m size align kmemHeapBase cells.tail = .tail it)
    (hgrow : growHeap (mapEnv unit) m
      (alignedFrom (blockEnd m it) align + kmemNodeSize + size) = some m₁) :
    Returns (fun fuel => kmallocAlign (mapEnv unit) fuel m size align)
      (linkTail m₁ it (alignedFrom (blockEnd m it) align) size,
        alignedFrom (blockEnd m it) align + kmemNodeSize) := by
  refine ⟨cells.length, fun fuel hfuel => ?_⟩
  have hcall := kmallocAlign_tail (mapEnv unit) rfl h hal hwrap htail fuel hfuel
  rw [hgrow] at hcall
  exact hcall

theorem kmallocAlign_grownHeap :
    Returns (fun fuel => kmallocAlign (mapEnv 4096) fuel bootedHeap 8192 1) (grownHeap, 0x200058) := by
  have hgrow : growHeap (mapEnv 4096) bootedHeap 0x202058 =
      some { bootedHeap with ext := [(0x201000, 0x2058)], occupiedTo := 0x203000 } := by
    have hocc : bootedHeap.occupiedTo = 0x200040 := rfl
    have hext : bootedHeap.ext = [] := rfl
    simp [growHeap, mapEnv, hocc, hext, sub64, u64]
  exact @HeapList.kmalloc_grows _ _ _ _ 8192 1 0x200018 bootedHeap_heapList le_rfl (by decide)
    (by decide) hgrow

theorem kmallocAlign_twiceGrownHeap :
    Returns (fun fuel => kmallocAlign (mapEnv 4096) fuel grownHeap 8192 1)
      (twiceGrownHeap, 0x202070) := by
  have hgrow : growHeap (mapEnv 4096) grownHeap 0x204070 =
      some { grownHeap with
        ext := [(0x204000, 0x1070), (0x201000, 0x2058)], occupiedTo := 0x205000 } := by
    have hocc : grownHeap.occupiedTo = 0x203000 := rfl
    have hext : grownHeap.ext = [(0x201000, 0x2058)] := rfl
    simp [growHeap, mapEnv, hocc, hext, sub64, u64]
  exact @HeapList.kmalloc_grows _ _ _ _ 8192 1 0x200040 grownHeap_heapList le_rfl (by decide)
    (by decide) hgrow

/-- Two requests that grow the heap: the second is given the pages behind those of the first. -/
theorem mapRun_backed_twice :
    ∃ m : Kmem (List Request), m.ext = [(0x204000, 0x1070), (0x201000, 0x2058)] ∧
      HeapBacked 4096 0x201000 m.ext [(0x202070, 8192), (0x200058, 8192)] := by
  have hfirst := bootedHeap_heapList
  have hsecond := grownHeap_heapList
  have hgrown : MapRun 4096 (GrowsContiguous 4096 0x201000) bootedHeap grownHeap
      [(0x200058, 8192)] :=
    .kmalloc .start (le_refl 1) (hfirst.noWrap (by decide))
      (@HeapList.growsContiguous _ _ _ _ 8192 1 0x200018 hfirst (by decide) (by decide)
        (by decide) (by decide)) kmallocAlign_grownHeap
  have hrun : MapRun 4096 (GrowsContiguous 4096 0x201000) bootedHeap twiceGrownHeap
      [(0x202070, 8192), (0x200058, 8192)] :=
    .kmalloc hgrown (le_refl 1) (hsecond.noWrap (by decide))
      (@HeapList.growsContiguous _ _ _ _ 8192 1 0x200040 hsecond (by decide) (by decide)
        (by decide) (by decide)) kmallocAlign_twiceGrownHeap
  exact ⟨twiceGrownHeap, rfl, mapRun_backed (by decide) hfirst rfl hrun⟩

/-- The first block ends on the page of `occupied_to`, so nothing is mapped for it; the
second one is given the pages behind the next. -/
theorem mapRun_hole :
    ¬ ∀ (unit : Nat) (m₀ m : Kmem (List Request)) (cells₀ : List Nat) (blocks : List Request),
      0 < unit → HeapList m₀ cells₀ → m₀.ext = [] →
        MapRun unit (fun _ _ _ => True) m₀ m blocks →
          HeapBacked unit (pageRound unit m₀.occupiedTo) m.ext blocks := by
  intro hall
  let first := linkTail { bootedHeap with occupiedTo := 0x201000 } 0x200018 0x200040 16
  let second := linkTail { first with ext := [(0x202000, 0x1080)], occupiedTo := 0x203000 }
    0x200040 0x200068 8192
  have hfirst : HeapList first [kmemHeapBase, 0x200018, 0x200040] :=
    (@HeapList.link_tail _ _ [kmemHeapBase] 0x200018 0x200040 16 0x201000 bootedHeap_heapList
      (by decide) (by decide) (by decide)).2
  have hrun : MapRun 4096 (fun _ _ _ => True) bootedHeap second
      [(0x200080, 8192), (0x200058, 16)] := by
    refine .kmalloc (m := first) (.kmalloc .start (le_refl 1)
      (bootedHeap_heapList.noWrap (by decide)) trivial ⟨3, fun fuel hfuel => ?_⟩) (le_refl 1)
      (hfirst.noWrap (by decide)) trivial ⟨3, fun fuel hfuel => ?_⟩
    · obtain ⟨k, rfl⟩ := Nat.exists_eq_add_of_le' hfuel
      rfl
    · have htail : firstGap first 8192 1 kmemHeapBase [0x200018, 0x200040] = .tail 0x200040 := by
        decide
      have hplace : alignedFrom (blockEnd first 0x200040) 1 = 0x200068 := by decide
      have hcall := kmallocAlign_tail (mapEnv 4096) rfl hfirst (le_refl 1) (by decide) htail fuel
        hfuel
      rw [hplace] at hcall
      have hgrow : growHeap (mapEnv 4096) first 0x202080 =
          some { first with ext := [(0x202000, 0x1080)], occupiedTo := 0x203000 } := by
        have hocc : first.occupiedTo = 0x201000 := rfl
        have hext : first.ext = [] := rfl
        simp [growHeap, mapEnv, hocc, hext, sub64, u64]
      exact hcall.trans (congrArg _ hgrow)
  have hbacked := (hall 4096 bootedHeap second _ _ (by decide) bootedHeap_heapList rfl hrun).backed
    (0x200080, 8192) (by simp) 0x201000 (by decide) (by decide)
  rcases hbacked with hlow | ⟨r, hr, hmaps, -⟩
  · exact absurd hlow (by decide)
  · obtain rfl : r = (0x202000, 0x1080) := List.mem_singleton.mp hr
    exact absurd hmaps (by decide)

end UntitledOs.Kernlib
