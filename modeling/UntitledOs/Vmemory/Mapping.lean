import UntitledOs.Vmemory.MapPage

/-!
# Mapping a range

The loops of `map_phys` cover the range page by page.  Where the two addresses
are aligned alike and the entries have no bits left from earlier mappings, the
range is mapped as asked for and nothing else changes.
-/

namespace UntitledOs.Vmemory

open UntitledOs.Lib

variable {env : VmemEnv} {s s' : Vmem} {v p w o n i k : Nat} {c c' : Chunk} {cs cs' : List Chunk}

section Numbers

/-- The number of a page in the address space of 48 bits. -/
def pageNumber (w : Nat) : Nat := w / 4096 % 2 ^ 36

theorem page_iff : page w = page v ↔ pageNumber w = pageNumber v := by
  simp only [page, region, index, List.cons.injEq, Fin.mk.injEq, and_true, pageNumber]
  omega

theorem region_iff : region w = region v ↔ pageNumber w / 512 = pageNumber v / 512 := by
  simp only [region, index, List.cons.injEq, Fin.mk.injEq, and_true, pageNumber]
  omega

theorem pageNumber_offset (hv : v % 4096 = 0) (i : Nat) :
    pageNumber (u64 (v + i * pageSize)) = (v / 4096 + i) % 2 ^ 36 := by
  simp only [pageNumber, u64, pageSize]
  omega

end Numbers

/-- How many pages a chunk maps. -/
def Chunk.pages (c : Chunk) : Nat := c.size / pageSize

theorem pages_of_page (hc : c.size = pageSize) : c.pages = 1 := by
  rw [Chunk.pages, hc]
  decide

theorem pages_of_large (hc : c.size = pageSize2) : c.pages = 512 := by
  rw [Chunk.pages, hc]
  decide

/-- The chunks map the pages from the `o`-th to the `n`-th of a range, one after the other. -/
def Covers (v p : Nat) : Nat → List Chunk → Nat → Prop
  | o, [], n => o = n
  | o, c :: cs, n =>
      (c.size = pageSize ∨ c.size = pageSize2) ∧ c.vaddr = u64 (v + o * pageSize) ∧
        c.paddr = u64 (p + o * pageSize) ∧ Covers v p (o + c.pages) cs n

section Covers

theorem Covers.append {m : Nat} (h : Covers v p o cs m) (h' : Covers v p m cs' n) :
    Covers v p o (cs ++ cs') n := by
  induction cs generalizing o with
  | nil =>
      obtain rfl : o = m := h
      exact h'
  | cons c cs ih => exact ⟨h.1, h.2.1, h.2.2.1, ih h.2.2.2⟩

theorem Covers.le (h : Covers v p o cs n) : o ≤ n := by
  induction cs generalizing o with
  | nil => exact (show o = n from h).le
  | cons c cs ih => exact (Nat.le_add_right _ _).trans (ih h.2.2.2)

theorem covers_headChunks (v p : Nat) (usize : Nat) : ∀ o, Covers v p o
    (headChunks usize (u64 (v + o * pageSize)) (u64 (p + o * pageSize)))
    (o + (headChunks usize (u64 (v + o * pageSize)) (u64 (p + o * pageSize))).length) := by
  induction usize with
  | zero => exact fun o => rfl
  | succ usize ih =>
      intro o
      have hnext : ∀ x, u64 (u64 (x + o * pageSize) + pageSize) = u64 (x + (o + 1) * pageSize) := by
        intro x
        simp only [u64, pageSize]
        omega
      rw [headChunks]
      split
      · refine ⟨.inl rfl, rfl, rfl, ?_⟩
        have hrest := ih (o + 1)
        rw [Nat.add_right_comm] at hrest
        rw [pages_of_page rfl, hnext, hnext, List.length_cons]
        exact hrest
      · rfl

theorem headChunks_length (usize : Nat) : ∀ v p, (headChunks usize v p).length ≤ usize := by
  induction usize with
  | zero => exact fun v p => le_rfl
  | succ usize ih =>
      intro v p
      rw [headChunks]
      split
      · exact Nat.succ_le_succ (ih _ _)
      · exact Nat.zero_le _

theorem covers_loopChunks {size : Nat} (hsize : size = pageSize ∨ size = pageSize2) (v p o : Nat)
    (rounds : Nat) : Covers v p o
    (loopChunks size rounds (u64 (v + o * pageSize)) (u64 (p + o * pageSize)))
    (o + rounds * (size / pageSize)) := by
  induction rounds with
  | zero => simp [loopChunks, Covers]
  | succ rounds ih =>
      have hround : ∀ x, u64 (u64 (x + o * pageSize) + rounds * size) =
          u64 (x + (o + rounds * (size / pageSize)) * pageSize) := by
        intro x
        rcases hsize with rfl | rfl
        · simp only [u64, pageSize]
          omega
        · simp only [u64, pageSize, pageSize2]
          omega
      rw [loopChunks, List.range_succ, List.map_append]
      refine ih.append ⟨hsize, hround v, hround p, ?_⟩
      change o + rounds * (size / pageSize) + size / pageSize = o + (rounds + 1) * (size / pageSize)
      rw [Nat.succ_mul, Nat.add_assoc]

theorem covers_rangeChunks (usize : Nat) (hv : v < 2 ^ 64) (hp : p < 2 ^ 64) :
    Covers v p 0 (rangeChunks usize v p) usize := by
  have hhead := covers_headChunks v p usize 0
  have hle := headChunks_length usize v p
  simp only [Nat.zero_mul, Nat.add_zero, Nat.zero_add, u64_of_lt hv, u64_of_lt hp] at hhead
  set h := (headChunks usize v p).length with hh
  have hlarge := covers_loopChunks (.inr rfl) v p h ((usize - h) / (pageSize2 / pageSize))
  have htail := covers_loopChunks (.inl rfl) v p
    (h + (usize - h) / (pageSize2 / pageSize) * (pageSize2 / pageSize))
    ((usize - h) % (pageSize2 / pageSize))
  have hend : h + (usize - h) / (pageSize2 / pageSize) * (pageSize2 / pageSize) +
      (usize - h) % (pageSize2 / pageSize) * (pageSize / pageSize) = usize := by
    simp only [pageSize, pageSize2]
    omega
  have hoff : (h + (usize - h) / (pageSize2 / pageSize) * (pageSize2 / pageSize)) * pageSize =
      h * pageSize + (usize - h) / (pageSize2 / pageSize) * pageSize2 := by
    simp only [pageSize, pageSize2]
    omega
  rw [hend, hoff] at htail
  exact (hhead.append hlarge).append htail

end Covers

/--
What a mapping of the range needs of the entries it fills.  A page must not go
through an entry with the page-size bit, and the bits that are in an entry
already must be bits of the new address, which must be one of the entry's size;
what an entry of a 2 MiB page has below its address must be flags.
-/
def ChunkSafe (s : Vmem) (c : Chunk) : Prop :=
  if c.size = pageSize2 then
    c.vaddr % pageSize2 = 0 ∧ getBits (s.pdeAt c.vaddr) 13 21 = 0 ∧
      (s.pdeAt c.vaddr ||| c.paddr) &&& addrMask2 = c.paddr
  else
    has (s.pdeAt c.vaddr) pflagPsize = false ∧
      (s.pteAt c.vaddr ||| c.paddr) &&& addrMask = c.paddr

/-- The `i`-th page of the range is mapped as asked for. -/
def Mapped (s : Vmem) (v p i : Nat) : Prop :=
  s.translate (u64 (v + i * pageSize)) = some (u64 (p + i * pageSize))

/-- Every page outside `[o, n)` of the range is mapped in `s'` as in `s`. -/
def Unchanged (s s' : Vmem) (v o n : Nat) : Prop :=
  ∀ w, (∀ i, o ≤ i → i < n → page w ≠ page (u64 (v + i * pageSize))) → s'.translate w = s.translate w

/-- The chunks that are still to come are as safe as before. -/
def Preserves (s s' : Vmem) (v n m : Nat) : Prop :=
  ∀ c o, n ≤ o → o + c.pages ≤ m → (c.size = pageSize ∨ c.size = pageSize2) →
    c.vaddr = u64 (v + o * pageSize) → ChunkSafe s c → ChunkSafe s' c

theorem fillEntry_and_addrMask {e a : Nat} (h : (e ||| a) &&& addrMask = a) :
    fillEntry e a &&& addrMask = a := by
  have hflags : (pflagPresent ||| pflagCanwrite) &&& addrMask = 0 := by decide
  rw [fillEntry, Nat.and_or_distrib_right, h, hflags, Nat.or_zero]

theorem fillEntry_and_addrMask2 {e a : Nat} (h : (e ||| a) &&& addrMask2 = a) :
    fillEntry (e ||| pflagPsize) a &&& addrMask2 = a := by
  have hflags : (pflagPresent ||| pflagCanwrite) &&& addrMask2 = 0 := by decide
  have hpsize : pflagPsize &&& addrMask2 = 0 := by decide
  rw [fillEntry, Nat.or_right_comm e, Nat.and_or_distrib_right, Nat.and_or_distrib_right, h, hflags,
    hpsize, Nat.or_zero, Nat.or_zero]

theorem getBits_or (x y start stop : Nat) :
    getBits (x ||| y) start stop = getBits x start stop ||| getBits y start stop := by
  rw [getBits, Nat.shiftRight_or_distrib, Nat.and_or_distrib_right]
  rfl

theorem getBits_fillEntry {e a : Nat} (he : getBits e 13 21 = 0) (h : (e ||| a) &&& addrMask2 = a) :
    getBits (fillEntry (e ||| pflagPsize) a) 13 21 = 0 := by
  have ha : getBits a 13 21 = 0 := by
    rw [getBits_eq, ← h, and_addrMask2]
    omega
  have hflags : getBits (pflagPresent ||| pflagCanwrite) 13 21 = 0 := by decide
  have hpsize : getBits pflagPsize 13 21 = 0 := by decide
  rw [fillEntry, getBits_or, getBits_or, getBits_or, he, ha, hflags, hpsize]
  rfl

/-- A 4 KiB page of the range. -/
theorem mapPage_page_spec (h : TableInv env s) (hs : TableSupply env) (hv : v % 4096 = 0)
    (hc : c.size = pageSize) (hcv : c.vaddr = u64 (v + o * pageSize))
    (hcp : c.paddr = u64 (p + o * pageSize)) (hsafe : ChunkSafe s c)
    (hret : (mapPage env s c.size c.vaddr c.paddr).2 = 0) {m : Nat} (hm : m ≤ 2 ^ 36) :
    TableInv env (mapPage env s c.size c.vaddr c.paddr).1 ∧
      Mapped (mapPage env s c.size c.vaddr c.paddr).1 v p o ∧
      Unchanged s (mapPage env s c.size c.vaddr c.paddr).1 v o (o + 1) ∧
      Preserves s (mapPage env s c.size c.vaddr c.paddr).1 v (o + 1) m := by
  rw [ChunkSafe, if_neg (by rw [hc]; decide)] at hsafe
  rw [hc] at hret ⊢
  obtain ⟨hinv, hpte, hpde, hpsize⟩ := mapPage_small_others h hs hsafe.1 hret
  have hwalk := walk_mapPage_small h hs hsafe.1 hret
  have hnum := pageNumber_offset hv o
  refine ⟨hinv, ?_, fun w hw => ?_, fun d o' ho' hd hsize hdv hd' => ?_⟩
  · have hlow : getBits c.vaddr 0 12 = 0 := by
      rw [getBits_eq, hcv]
      simp only [u64, pageSize]
      omega
    rw [Mapped, ← hcv, hwalk, if_pos rfl, fillEntry_and_addrMask hsafe.2, hlow, Nat.or_zero, hcp]
  · rw [hwalk, if_neg]
    rw [hcv]
    exact hw o le_rfl (Nat.lt_succ_self o)
  · have hnum' := pageNumber_offset hv o'
    rw [← hcv] at hnum
    rw [← hdv] at hnum'
    rw [ChunkSafe] at hd' ⊢
    by_cases hlarge : d.size = pageSize2
    · rw [if_pos hlarge] at hd' ⊢
      have hregion : region d.vaddr ≠ region c.vaddr := by
        have halign : pageNumber d.vaddr % 512 = 0 := by
          have hal := hd'.1
          simp only [pageSize2] at hal
          simp only [pageNumber]
          omega
        rw [pages_of_large hlarge] at hd
        rw [ne_eq, region_iff, hnum, hnum']
        rw [hnum'] at halign
        omega
      rwa [hpde _ hregion]
    · rw [if_neg hlarge] at hd' ⊢
      have hpage : page d.vaddr ≠ page c.vaddr := by
        rw [pages_of_page (hsize.resolve_right hlarge)] at hd
        rw [ne_eq, page_iff, hnum, hnum']
        omega
      exact ⟨hpsize _ hd'.1, by rw [hpte _ hpage]; exact hd'.2⟩

/-- A 2 MiB page of the range. -/
theorem mapPage_large_spec (h : TableInv env s) (hs : TableSupply env) (hv : v % 4096 = 0)
    (hc : c.size = pageSize2) (hcv : c.vaddr = u64 (v + o * pageSize))
    (hcp : c.paddr = u64 (p + o * pageSize)) (hsafe : ChunkSafe s c)
    (hret : (mapPage env s c.size c.vaddr c.paddr).2 = 0) {m : Nat} (hm : m ≤ 2 ^ 36)
    (ho : o + 512 ≤ m) :
    TableInv env (mapPage env s c.size c.vaddr c.paddr).1 ∧
      (∀ i, o ≤ i → i < o + 512 → Mapped (mapPage env s c.size c.vaddr c.paddr).1 v p i) ∧
      Unchanged s (mapPage env s c.size c.vaddr c.paddr).1 v o (o + 512) ∧
      Preserves s (mapPage env s c.size c.vaddr c.paddr).1 v (o + 512) m := by
  rw [ChunkSafe, if_pos hc] at hsafe
  rw [hc] at hret ⊢
  obtain ⟨-, hinv, hother, -⟩ := mapPage_large h hs c.vaddr c.paddr
  have hwalk := walk_mapPage_large h hs hret (getBits_fillEntry hsafe.2.1 hsafe.2.2)
  have hnum := pageNumber_offset hv o
  rw [← hcv] at hnum
  have halign : pageNumber c.vaddr % 512 = 0 := by
    have hal := hsafe.1
    simp only [pageSize2] at hal
    simp only [pageNumber]
    omega
  rw [hnum] at halign
  refine ⟨hinv, fun i hi hi' => ?_, fun w hw => ?_, fun d o' ho' hd hsize hdv hd' => ?_⟩
  · have hi'' := pageNumber_offset hv i
    rw [Mapped, hwalk, if_pos (by rw [region_iff, hnum, hi'']; omega), getPdePhysaddr,
      fillEntry_and_addrMask2 hsafe.2.2]
    have hlow : getBits (u64 (v + i * pageSize)) 0 21 = (i - o) * 4096 := by
      have hal := hsafe.1
      rw [hcv] at hal
      rw [getBits_eq]
      simp only [u64, pageSize, pageSize2] at hal ⊢
      omega
    obtain ⟨x, hx, hpx⟩ : ∃ x < 2 ^ 31, c.paddr = 2 ^ 21 * x :=
      ⟨_, Nat.mod_lt _ (by decide), by rw [← and_addrMask2, hsafe.2.2]⟩
    rw [hlow, hpx, or_eq_add x 21 (by omega), ← hpx, hcp]
    rw [hcp] at hpx
    simp only [u64, pageSize] at hpx ⊢
    congr 1
    omega
  · rw [hwalk, if_neg]
    intro hregion
    rw [region_iff, hnum] at hregion
    -- the page of the range at the same place in the region
    refine hw (o + pageNumber w % 512) (by omega) (by omega) ?_
    rw [page_iff, pageNumber_offset hv]
    have hlt : pageNumber w < 2 ^ 36 := Nat.mod_lt _ (by decide)
    omega
  · have hnum' := pageNumber_offset hv o'
    rw [← hdv] at hnum'
    have hregion : region d.vaddr ≠ region c.vaddr := by
      have hpages : 1 ≤ d.pages := by
        rcases hsize with hd | hd
        · rw [pages_of_page hd]
        · rw [pages_of_large hd]
          decide
      rw [ne_eq, region_iff, hnum, hnum']
      omega
    rw [ChunkSafe] at hd' ⊢
    rwa [(hother _ hregion).1, (hother _ hregion).2]

theorem Covers.mem (h : Covers v p o cs n) (hc : c ∈ cs) :
    ∃ o', o ≤ o' ∧ o' + c.pages ≤ n ∧ (c.size = pageSize ∨ c.size = pageSize2) ∧
      c.vaddr = u64 (v + o' * pageSize) := by
  induction cs generalizing o with
  | nil => simp at hc
  | cons d cs ih =>
      obtain ⟨hsize, hdv, -, hrest⟩ := h
      rcases List.mem_cons.mp hc with rfl | hc
      · exact ⟨o, le_rfl, hrest.le, hsize, hdv⟩
      · obtain ⟨o', ho', hc'⟩ := ih hrest hc
        exact ⟨o', (Nat.le_add_right _ _).trans ho', hc'⟩

theorem mapPage_spec (h : TableInv env s) (hs : TableSupply env) (hv : v % 4096 = 0)
    (hcov : Covers v p o (c :: cs) n) (hsafe : ChunkSafe s c)
    (hret : (mapPage env s c.size c.vaddr c.paddr).2 = 0) (hn : n ≤ 2 ^ 36) :
    TableInv env (mapPage env s c.size c.vaddr c.paddr).1 ∧
      (∀ i, o ≤ i → i < o + c.pages → Mapped (mapPage env s c.size c.vaddr c.paddr).1 v p i) ∧
      Unchanged s (mapPage env s c.size c.vaddr c.paddr).1 v o (o + c.pages) ∧
      Preserves s (mapPage env s c.size c.vaddr c.paddr).1 v (o + c.pages) n := by
  obtain ⟨hsize, hcv, hcp, hrest⟩ := hcov
  have hle := hrest.le
  rcases hsize with hc | hc
  · rw [pages_of_page hc]
    obtain ⟨hinv, hmapped, hsame, hkeep⟩ := mapPage_page_spec h hs hv hc hcv hcp hsafe hret hn
    refine ⟨hinv, fun i hi hi' => ?_, hsame, hkeep⟩
    obtain rfl : i = o := by omega
    exact hmapped
  · rw [pages_of_large hc] at hle ⊢
    exact mapPage_large_spec h hs hv hc hcv hcp hsafe hret hn hle

/-- The chunks of a range are mapped one after the other. -/
theorem mapChunks_spec (h : TableInv env s) (hs : TableSupply env) (hv : v % 4096 = 0)
    (hcov : Covers v p o cs n) (hsafe : ∀ c ∈ cs, ChunkSafe s c)
    (hret : (mapChunks env cs s).2 = 0) (hn : n ≤ 2 ^ 36) :
    (∀ i, o ≤ i → i < n → Mapped (mapChunks env cs s).1 v p i) ∧
      Unchanged s (mapChunks env cs s).1 v o n := by
  induction cs generalizing o s with
  | nil =>
      obtain rfl : o = n := hcov
      exact ⟨fun i hi hi' => absurd hi' (by omega), fun _ _ => rfl⟩
  | cons c cs ih =>
      by_cases hpage : (mapPage env s c.size c.vaddr c.paddr).2 = 0
      swap
      · simp only [mapChunks, hpage, if_false] at hret
      simp only [mapChunks, hpage, if_true] at hret ⊢
      obtain ⟨hinv, hmapped, hsame, hkeep⟩ :=
        mapPage_spec h hs hv hcov (hsafe c (by simp)) hpage hn
      obtain ⟨-, -, -, hrest⟩ := hcov
      have hrest' := hrest.le
      obtain ⟨hmapped', hsame'⟩ := ih hinv hrest (fun d hd => by
        obtain ⟨o', ho', hend, hsize, hdv⟩ := hrest.mem hd
        exact hkeep d o' ho' hend hsize hdv (hsafe d (by simp [hd]))) hret
      refine ⟨fun i hi hi' => ?_, fun w hw => ?_⟩
      · by_cases hnow : i < o + c.pages
        · -- the chunks that follow map other pages
          rw [Mapped, hsame']
          · exact hmapped i hi hnow
          · intro j hj hj'
            rw [ne_eq, page_iff, pageNumber_offset hv, pageNumber_offset hv]
            omega
        · exact hmapped' i (by omega) hi'
      · rw [hsame' w fun i hi hi' => hw i (by omega) hi', hsame w fun i hi hi' => hw i hi (by omega)]

end UntitledOs.Vmemory
