import UntitledOs.Vmemory.Translation

/-!
# Destroying a handle

`destroy_mem_hndl` walks two levels of the tables.  What it frees are the PML4,
the page directory pointer tables and the page directories; it never looks at an
entry of a directory, so the page tables of 4 KiB pages stay behind.
-/

namespace UntitledOs.Vmemory

open UntitledOs.Lib

variable {env : VmemEnv} {s s' s₁ : Vmem} {ent f g k₀ v size paddr t : Nat} {i j : Fin 512}
  {p q : List (Fin 512)}

/-- `destroy_mem_hndl`: the blocks that it frees, in this order. -/
def destroyMemHndl (s : Vmem) : List Nat :=
  ((List.range 512).flatMap fun i =>
    let pml4e := s.mem (s.pml4 + 8 * i)
    if !has pml4e pflagPresent then []
    else
      ((List.range 512).flatMap fun j =>
        let pdpte := s.mem (getPdpte 0 pml4e + 8 * j)
        if !has pdpte pflagPresent then [] else [getPde 0 pdpte]) ++ [getPdpte 0 pml4e]) ++
    [s.pml4]

/-- The tables that a handle has received since the `k₀`-th request. -/
def handleTables (env : VmemEnv) (k₀ : Nat) (s : Vmem) : List Nat :=
  (List.range' k₀ (s.tables - k₀)).filterMap env.kmallocAlign

section Condition

/-- The entry lies in no PML4 and in no page directory pointer table of the handle. -/
def OutsideUpper (s : Vmem) (ent : Nat) : Prop :=
  ∀ p f, p.length ≤ 1 → s.table p = some f → ent / 4096 ≠ f

/-- What is asked of the rest of `make_entry` below `ent`, where it goes on. -/
def withTableSafe (env : VmemEnv) (ent : Nat) (s : Vmem) (next : Vmem → Prop) : Prop :=
  if has (s.mem ent) pflagPresent then next s
  else ∀ t, env.kmallocAlign s.tables = some t →
    let s := ({ s with tables := s.tables + 1 } : Vmem).clearTable t
    next (s.setEntry ent (fillEntry (s.mem ent) t))

/-- `make_entry` for a 4 KiB page makes no page table, and the entry that is filled then is none
that `destroy_mem_hndl` reads. -/
def PageSafe (env : VmemEnv) (s : Vmem) (vaddr : Nat) : Prop :=
  withTableSafe env (s.getPml4e vaddr) s fun s =>
  let pdpte := getPdpte vaddr (s.mem (s.getPml4e vaddr))
  withTableSafe env pdpte s fun s =>
  let pde := s.mem (getPde vaddr (s.mem pdpte))
  if has pde pflagPresent then
    has (s.mem (getPte vaddr pde)) pflagPresent = true ∨ OutsideUpper s (getPte vaddr pde)
  else env.kmallocAlign s.tables = none

/-- The rounds of `map_phys`. -/
def ChunksSafe (env : VmemEnv) : List Chunk → Vmem → Prop
  | [], _ => True
  | c :: cs, s =>
      let r := mapPage env s c.size c.vaddr c.paddr
      (c.size ≠ pageSize2 → PageSafe env s c.vaddr) ∧ (r.2 = 0 → ChunksSafe env cs r.1)

/-- The rounds of `MAP_PAGE_ALLOC`. -/
def LoopSafe (env : VmemEnv) (fuel : Nat) : List Nat → Vmem → Prop
  | [], _ => True
  | v :: vs, s =>
      ∀ a paddr, allocatorAllocAlign env.kmalloc fuel s.phys pageSize pageSize =
          some (a, some paddr) →
        let r := mapPage env { s with phys := a } pageSize v paddr
        PageSafe env { s with phys := a } v ∧ (r.2 = 0 → LoopSafe env fuel vs r.1)

/-- The loops of `map_alloc` over 4 KiB pages. -/
def MapAllocSafe (env : VmemEnv) (s : Vmem) (vaddr usize : Nat) : Prop :=
  let head := headVaddrs usize vaddr
  let usize := usize - head.length
  let vaddr := u64 (vaddr + head.length * pageSize)
  ∀ fuel, LoopSafe env fuel head s ∧
    ∀ r r', allocLoop env fuel pageSize head s = some r → r.2.code = 0 →
      allocLoop env fuel pageSize2 (loopVaddrs pageSize2 (usize / (pageSize2 / pageSize)) vaddr)
        r.1 = some r' → r'.2.GoesOn → LoopSafe env fuel (tailVaddrs usize vaddr r'.2) r'.1

/-- The rounds of `unmap`. -/
def UnmapSafe (env : VmemEnv) (fuel : Nat) : List (Nat × Nat) → Vmem → Prop
  | [], _ => True
  | c :: cs, s =>
      (∀ ent, getEntry s c.2 = some ent →
        has (s.mem ent) pflagPresent = false ∨ OutsideUpper s ent) ∧
      ∀ r, unmapPage env fuel s c.1 c.2 = some r → r.2 = 0 → UnmapSafe env fuel cs r.1

/-- What `unmap` unmaps. -/
def unmapRounds (vaddr usize : Nat) : List (Nat × Nat) :=
  let head := headVaddrs usize vaddr
  let usize := usize - head.length
  let large := usize / (pageSize2 / pageSize)
  let off := head.length * pageSize
  let off' := off + large * pageSize2
  head.map (pageSize, ·) ++
    (loopVaddrs pageSize2 large (u64 (vaddr + off))).map (pageSize2, ·) ++
    (loopVaddrs pageSize (usize % (pageSize2 / pageSize)) (u64 (vaddr + off'))).map (pageSize, ·)

/-- No page table is made, and no entry that `destroy_mem_hndl` reads is changed as one of a
4 KiB page. -/
def MakesNoPageTable (env : VmemEnv) (s : Vmem) : VmemEvent → Prop
  | .mapPhys vaddr paddr usize flags => ∀ a,
      ChunksSafe env (rangeChunks (unitsOf usize flags) vaddr paddr) { s with phys := a }
  | .mapAlloc vaddr usize flags =>
      if has flags vmemFlagMaintainContinuity then
        ∀ fuel a paddr, allocatorAllocAlign env.kmalloc fuel s.phys
            (u64 (unitsOf usize flags * pageSize)) pageSize = some (a, some paddr) →
          ChunksSafe env (rangeChunks (unitsOf usize flags) vaddr paddr) { s with phys := a }
      else MapAllocSafe env s vaddr (unitsOf usize flags)
  | .unmap vaddr usize flags =>
      ∀ fuel, UnmapSafe env fuel (unmapRounds vaddr (unitsOf usize flags)) s

/-- The calls on a handle after its creation. -/
inductive HandleRun (env : VmemEnv) (ok : Vmem → VmemEvent → Prop) (s₁ : Vmem) : Vmem → Prop
  | start : HandleRun env ok s₁ s₁
  | step {s : Vmem} {event : VmemEvent} {r : Vmem × Int} (run : HandleRun env ok s₁ s)
      (isOk : ok s event) (returns : Returns (fun fuel => vmemStep env fuel s event) r) :
      HandleRun env ok s₁ r.1

end Condition

section Owned

theorem mem_handleTables : t ∈ handleTables env k₀ s ↔
    ∃ k, k₀ ≤ k ∧ k < s.tables ∧ env.kmallocAlign k = some t := by
  rw [handleTables, List.mem_filterMap]
  constructor
  · rintro ⟨k, hk, ht⟩
    rw [List.mem_range'_1] at hk
    exact ⟨k, hk.1, by omega, ht⟩
  · rintro ⟨k, hle, hlt, ht⟩
    exact ⟨k, List.mem_range'_1.mpr ⟨hle, by omega⟩, ht⟩

theorem handleTables_nodup (hs : TableSupply env) (k₀ : Nat) (s : Vmem) :
    (handleTables env k₀ s).Nodup :=
  List.Nodup.filterMap (fun _ _ _ hj hk => hs.inj _ _ _ hj hk) List.nodup_range'

/-- An entry of the PML4 or of a page directory pointer table is empty or points to a table. -/
structure UpperTables (s : Vmem) : Prop where
  root : s.pml4 % 4096 = 0
  upper : ∀ p i, p.length ≤ 1 → s.cell p i = 0 ∨ (nextTable (s.cell p i)).isSome

/-- The tables of a handle are those that `destroy_mem_hndl` gets to. -/
structure Owns (env : VmemEnv) (k₀ : Nat) (s : Vmem) : Prop extends UpperTables s where
  started : k₀ ≤ s.tables
  tree : (s.radix.upTo 2).IsTree (cells s.mem)
  given : ∀ p f, p.length ≤ 2 → s.table p = some f → 4096 * f ∈ handleTables env k₀ s
  kept : ∀ t ∈ handleTables env k₀ s, ∃ p f, p.length ≤ 2 ∧ s.table p = some f ∧ t = 4096 * f

namespace Owns

theorem inj (h : Owns env k₀ s) (hp : p.length ≤ 2) (hq : q.length ≤ 2) (hf : s.table p = some f)
    (hf' : s.table q = some f) : p = q :=
  h.tree.inj hp hq ((Radix.table_upTo _ _ _ _).trans hf) ((Radix.table_upTo _ _ _ _).trans hf')

theorem setPhys (h : Owns env k₀ s) (a : Allocator) : Owns env k₀ { s with phys := a } :=
  ⟨⟨h.root, h.upper⟩, h.started, h.tree, h.given, h.kept⟩

theorem countTable (h : Owns env k₀ s) (hnone : env.kmallocAlign s.tables = none) :
    Owns env k₀ { s with tables := s.tables + 1 } := by
  have hmem : ∀ t, t ∈ handleTables env k₀ { s with tables := s.tables + 1 } ↔
      t ∈ handleTables env k₀ s := by
    intro t
    rw [mem_handleTables, mem_handleTables]
    constructor
    · rintro ⟨k, hle, hlt, ht⟩
      have hne : k ≠ s.tables := by
        rintro rfl
        rw [hnone] at ht
        cases ht
      have hlt' : k < s.tables + 1 := hlt
      exact ⟨k, hle, by omega, ht⟩
    · rintro ⟨k, hle, hlt, ht⟩
      exact ⟨k, hle, Nat.lt_succ_of_lt hlt, ht⟩
  exact ⟨⟨h.root, h.upper⟩, h.started.trans (Nat.le_succ _), h.tree,
    fun p f hp hf => (hmem _).mpr (h.given p f hp hf), fun t ht => h.kept t ((hmem t).mp ht)⟩

theorem fresh (h : Owns env k₀ s) (hs : TableSupply env)
    (hg : env.kmallocAlign s.tables = some (4096 * g)) (hp : p.length ≤ 2) :
    s.table p ≠ some g := by
  intro hf
  obtain ⟨k, -, hlt, hk⟩ := mem_handleTables.mp (h.given p g hp hf)
  exact absurd (hs.inj k _ _ hk hg) (by omega)

theorem newTable (h : Owns env k₀ s) (hs : TableSupply env) (hp : p.length ≤ 1)
    (hf : s.table p = some f) (hzero : s.cell p i = 0)
    (ht : env.kmallocAlign s.tables = some (4096 * g)) (hg : g < 2 ^ 40)
    (hs' : s' = Vmem.setEntry (Vmem.clearTable { s with tables := s.tables + 1 } (4096 * g))
      (4096 * f + 8 * i.val) (fillEntry ((Vmem.clearTable { s with tables := s.tables + 1 }
        (4096 * g)).mem (4096 * f + 8 * i.val)) (4096 * g))) :
    Owns env k₀ s' ∧ s'.table (i :: p) = some g ∧ s'.table p = some f := by
  obtain ⟨htree, htable, hcell⟩ := Vmem.newTable_spec (n := 2) h.tree
    (fun q hq => h.fresh hs ht hq) hg (Nat.lt_succ_of_le hp) hf hzero rfl hs'
  have hpml4 : s'.pml4 = s.pml4 := by rw [hs']; rfl
  have htables : s'.tables = s.tables + 1 := by rw [hs']; rfl
  have hlen : (i :: p).length ≤ 2 := Nat.succ_le_succ hp
  have hself : s'.table p = some f := by
    rw [htable p (by omega), if_neg (List.cons_ne_self i p).symm, hf]
  refine ⟨⟨⟨hpml4 ▸ h.root, fun q j hq => ?_⟩, htables ▸ h.started.trans (Nat.le_succ _), htree,
    fun q f' hq hf' => ?_, fun t ht' => ?_⟩,
    by rw [htable _ hlen, if_pos rfl], hself⟩
  · rw [hcell q j (by omega)]
    split
    · rw [nextTable_fillEntry hg]
      exact .inr rfl
    · exact h.upper q j hq
  · rw [htable q hq] at hf'
    rw [mem_handleTables, htables]
    split at hf'
    · obtain rfl := Option.some.inj hf'
      exact ⟨s.tables, h.started, Nat.lt_succ_self _, ht⟩
    · obtain ⟨k, hle, hlt, hk⟩ := mem_handleTables.mp (h.given q f' hq hf')
      exact ⟨k, hle, Nat.lt_succ_of_lt hlt, hk⟩
  · rw [mem_handleTables, htables] at ht'
    obtain ⟨k, hle, hlt, hk⟩ := ht'
    by_cases hlast : k = s.tables
    · subst hlast
      rw [ht] at hk
      exact ⟨i :: p, g, hlen, by rw [htable _ hlen, if_pos rfl], (Option.some.inj hk).symm⟩
    · obtain ⟨q, f', hq, hf', rfl⟩ :=
        h.kept t (mem_handleTables.mpr ⟨k, hle, by omega, hk⟩)
      refine ⟨q, f', hq, ?_, rfl⟩
      rw [htable q hq, if_neg, hf']
      -- the entry was empty, so there was no table below it
      rintro rfl
      rw [Vmem.table_cons_of_some hf, hzero, nextTable_zero] at hf'
      cases hf'

end Owns

theorem setEntry_outside (hout : OutsideUpper s ent) (e : Nat) (hp : p.length ≤ 1)
    (hf : s.table p = some f) (i : Fin 512) :
    (s.setEntry ent e).mem (4096 * f + 8 * i.val) = s.mem (4096 * f + 8 * i.val) := by
  have hne := hout p f hp hf
  have hi := i.isLt
  exact Function.update_of_ne (by omega) _ _

theorem getEntry_aligned (hent : getEntry s v = some ent) :
    ∃ g, ∃ i : Fin 512, ent = 4096 * g + 8 * i.val := by
  unfold getEntry at hent
  dsimp only at hent
  split at hent
  · cases hent
  split at hent
  · cases hent
  split at hent
  · cases hent
  split at hent
  · exact ⟨_, index v 21, (Option.some.inj hent).symm.trans (getPde_eq v _)⟩
  · exact ⟨_, index v 12, (Option.some.inj hent).symm.trans (getPte_eq v _)⟩

/-- A write outside the upper tables leaves the tables where they are. -/
theorem table_setEntry (hout : OutsideUpper s ent) (e : Nat) (hp : p.length ≤ 2) :
    (s.setEntry ent e).table p = s.table p := by
  induction p with
  | nil => rfl
  | cons i p ih =>
      have hp' : p.length ≤ 1 := Nat.le_of_succ_le_succ hp
      have hself := ih (by omega)
      cases hf : s.table p with
      | none => rw [Vmem.table_cons_of_none hf, Vmem.table_cons_of_none (hself.trans hf)]
      | some f =>
          rw [Vmem.table_cons_of_some hf, Vmem.table_cons_of_some (hself.trans hf),
            Vmem.cell_of_table hf, Vmem.cell_of_table (hself.trans hf),
            setEntry_outside hout e hp' hf]

theorem cell_setEntry (hout : OutsideUpper s ent) (e : Nat) (hp : p.length ≤ 1) (i : Fin 512) :
    (s.setEntry ent e).cell p i = s.cell p i := by
  have hself := table_setEntry hout e (Nat.le_succ_of_le hp)
  cases hf : s.table p with
  | none => rw [Vmem.cell_of_none hf, Vmem.cell_of_none (hself.trans hf)]
  | some f =>
      rw [Vmem.cell_of_table hf, Vmem.cell_of_table (hself.trans hf),
        setEntry_outside hout e hp hf]

theorem OutsideUpper.setEntry (hout : OutsideUpper s ent) (e : Nat) :
    OutsideUpper (s.setEntry ent e) ent := fun p f hp hf =>
  hout p f hp ((table_setEntry hout e (Nat.le_succ_of_le hp)).symm.trans hf)

namespace Owns

theorem setEntry (h : Owns env k₀ s) (hout : OutsideUpper s ent) (e : Nat) :
    Owns env k₀ (s.setEntry ent e) where
  started := h.started
  root := h.root
  tree :=
    { inj := fun {p q t} hp hq hf hf' => by
        rw [Radix.table_upTo] at hf hf'
        exact h.inj hp hq ((table_setEntry hout e hp).symm.trans hf)
          ((table_setEntry hout e hq).symm.trans hf') }
  upper p i hp := by
    rw [cell_setEntry hout e hp]
    exact h.upper p i hp
  given p f hp hf := h.given p f hp ((table_setEntry hout e hp).symm.trans hf)
  kept t ht := by
    obtain ⟨p, f, hp, hf, rfl⟩ := h.kept t ht
    exact ⟨p, f, hp, (table_setEntry hout e hp).trans hf, rfl⟩

theorem getPml4e_eq (h : Owns env k₀ s) (v : Nat) :
    s.getPml4e v = 4096 * (s.pml4 / 4096) + 8 * (index v 39).val := by
  rw [Vmem.getPml4e, ← or_index _ v 39, Nat.mul_div_cancel' (Nat.dvd_of_mod_eq_zero h.root)]

theorem outside_directory (h : Owns env k₀ s) (hp : p.length = 2) (hf : s.table p = some f)
    (i : Fin 512) : OutsideUpper s (4096 * f + 8 * i.val) := by
  intro q f' hq hf' heq
  have hi := i.isLt
  obtain rfl : f = f' := by omega
  have hpq := h.inj hp.le (by omega) hf hf'
  rw [hpq] at hp
  omega

/-- One level of `make_entry`: it goes on with a table below the entry, or gives up. -/
theorem withTable (h : Owns env k₀ s) (hs : TableSupply env) (hp : p.length ≤ 1)
    (hf : s.table p = some f) (next : Vmem → Vmem × Option Nat) :
    (∃ s', withTable env (4096 * f + 8 * i.val) s next = next s' ∧ Owns env k₀ s' ∧
      s'.table p = some f ∧ (∃ g, s'.table (i :: p) = some g) ∧
      ∀ P, withTableSafe env (4096 * f + 8 * i.val) s P → P s') ∨
    ∃ s', Vmemory.withTable env (4096 * f + 8 * i.val) s next = (s', none) ∧ Owns env k₀ s' := by
  unfold Vmemory.withTable withTableSafe
  rw [← Vmem.cell_of_table hf]
  cases hpresent : has (s.cell p i) pflagPresent with
  | true =>
      refine .inl ⟨s, rfl, h, hf, ?_, fun P hP => hP⟩
      rw [Vmem.table_cons_of_some hf]
      rcases h.upper p i hp with hzero | hsome
      · rw [hzero, has_zero] at hpresent
        cases hpresent
      · exact Option.isSome_iff_exists.mp hsome
  | false =>
      have hzero : s.cell p i = 0 := by
        rcases h.upper p i hp with hzero | hsome
        · exact hzero
        · obtain ⟨g, hg⟩ := Option.isSome_iff_exists.mp hsome
          rw [(nextTable_eq_some.mp hg).1] at hpresent
          cases hpresent
      cases ht : env.kmallocAlign s.tables with
      | none => exact .inr ⟨_, rfl, h.countTable ht⟩
      | some t =>
          obtain ⟨g, hg, rfl⟩ := hs.frame _ _ ht
          obtain ⟨hown, hbelow, hself⟩ := h.newTable hs hp hf hzero ht hg rfl
          exact .inl ⟨_, rfl, hown, hself, ⟨g, hbelow⟩, fun P hP => hP _ rfl⟩

/-- `make_entry` gives the tables that it makes to the handle, and no entry in an upper table. -/
theorem makeEntry (h : Owns env k₀ s) (hs : TableSupply env) (v : Nat)
    (hsafe : size ≠ pageSize2 → PageSafe env s v) :
    Owns env k₀ (makeEntry env s v size).1 ∧
      ∀ ent, (Vmemory.makeEntry env s v size).2 = some ent →
        has ((Vmemory.makeEntry env s v size).1.mem ent) pflagPresent = true ∨
        OutsideUpper (Vmemory.makeEntry env s v size).1 ent := by
  unfold Vmemory.makeEntry
  unfold PageSafe at hsafe
  rw [h.getPml4e_eq] at hsafe ⊢
  obtain ⟨s₁, hcall, hown, -, ⟨g, hbelow⟩, hP⟩ | ⟨s₁, hcall, hown⟩ :=
    h.withTable (p := []) hs (Nat.zero_le 1) (TableInv.table_root s) _
  swap
  · rw [hcall]
    exact ⟨hown, fun ent hent => nomatch hent⟩
  replace hsafe := fun hsize => hP _ (hsafe hsize)
  rw [hcall]
  rw [getPdpte_eq, hown.getPml4e_eq, Vmem.below_eq (TableInv.table_root s₁) hbelow] at hsafe ⊢
  obtain ⟨s₂, hcall₂, hown₂, hself₂, ⟨f, hbelow₂⟩, hP₂⟩ | ⟨s₂, hcall₂, hown₂⟩ :=
    hown.withTable (i := index v 30) hs le_rfl hbelow _
  swap
  · rw [hcall₂]
    exact ⟨hown₂, fun ent hent => nomatch hent⟩
  replace hsafe := fun hsize => hP₂ _ (hsafe hsize)
  rw [hcall₂]
  rw [getPde_eq, Vmem.below_eq hself₂ hbelow₂] at hsafe ⊢
  have hdirectory := hown₂.outside_directory rfl hbelow₂ (index v 21)
  unfold makeEntryAt
  by_cases hsize : size = pageSize2
  · simp only [if_pos hsize]
    refine ⟨hown₂.setEntry hdirectory _, fun ent hent => .inr ?_⟩
    obtain rfl := Option.some.inj hent
    exact hdirectory.setEntry _
  · replace hsafe := hsafe hsize
    simp only [if_neg hsize, Vmemory.withTable]
    cases hpresent : has (s₂.mem (4096 * f + 8 * (index v 21).val)) pflagPresent with
    | true =>
        simp only [hpresent, if_true] at hsafe
        refine ⟨hown₂, fun ent hent => ?_⟩
        obtain rfl := Option.some.inj hent
        exact hsafe
    | false =>
        simp only [hpresent, Bool.false_eq_true, if_false] at hsafe
        rw [hsafe]
        exact ⟨hown₂.countTable hsafe, fun ent hent => nomatch hent⟩

theorem mapPage (h : Owns env k₀ s) (hs : TableSupply env) (v paddr : Nat)
    (hsafe : size ≠ pageSize2 → PageSafe env s v) :
    Owns env k₀ (mapPage env s size v paddr).1 := by
  obtain ⟨hown, hent⟩ := h.makeEntry hs v hsafe
  unfold Vmemory.mapPage
  generalize Vmemory.makeEntry env s v size = r at hown hent ⊢
  obtain ⟨s', entry⟩ := r
  cases entry with
  | none => exact hown
  | some ent =>
      dsimp only
      split
      · exact hown
      · rename_i habsent
        rcases hent ent rfl with hpresent | hout
        · exact absurd hpresent habsent
        · exact hown.setEntry hout _

theorem mapChunks {cs : List Chunk} (h : Owns env k₀ s) (hs : TableSupply env)
    (hsafe : ChunksSafe env cs s) : Owns env k₀ (mapChunks env cs s).1 := by
  induction cs generalizing s with
  | nil => exact h
  | cons c cs ih =>
      have hpage := h.mapPage hs c.vaddr c.paddr hsafe.1
      rw [Vmemory.mapChunks]
      split
      · rename_i hzero
        exact ih hpage (hsafe.2 hzero)
      · exact hpage

/-- A loop of `map_alloc` over 2 MiB pages makes no page table; one over 4 KiB pages must not. -/
theorem allocLoop {vs : List Nat} {fuel : Nat} (h : Owns env k₀ s) (hs : TableSupply env)
    (hsafe : size = pageSize2 ∨ size = pageSize ∧ LoopSafe env fuel vs s) {r : Vmem × LoopEnd}
    (hret : allocLoop env fuel size vs s = some r) : Owns env k₀ r.1 := by
  induction vs generalizing s with
  | nil =>
      obtain rfl := Option.some.inj hret
      exact h
  | cons v vs ih =>
      rw [Vmemory.allocLoop] at hret
      obtain ⟨⟨a, frame⟩, halloc, hret⟩ := Option.bind_eq_some_iff.mp hret
      cases frame with
      | none =>
          obtain rfl := Option.some.inj hret
          exact h.setPhys a
      | some paddr =>
          have hpage : Owns env k₀ (Vmemory.mapPage env { s with phys := a } size v paddr).1 := by
            refine (h.setPhys a).mapPage hs v paddr fun hne => ?_
            rcases hsafe with hlarge | ⟨rfl, hloop⟩
            · exact absurd hlarge hne
            · exact (hloop a paddr halloc).1
          dsimp only at hret
          split at hret
          · rename_i hzero
            refine ih hpage ?_ hret
            rcases hsafe with hlarge | ⟨rfl, hloop⟩
            · exact .inl hlarge
            · exact .inr ⟨rfl, (hloop a paddr halloc).2 hzero⟩
          · obtain rfl := Option.some.inj hret
            exact hpage

theorem mapAllocPages {fuel vaddr usize : Nat} (h : Owns env k₀ s) (hs : TableSupply env)
    (hsafe : MapAllocSafe env s vaddr usize) {r : Vmem × Int}
    (hret : mapAllocPages env fuel s vaddr usize = some r) : Owns env k₀ r.1 := by
  obtain ⟨hhead, htail⟩ := hsafe fuel
  rw [Vmemory.mapAllocPages] at hret
  obtain ⟨r₁, hloop₁, hret⟩ := Option.bind_eq_some_iff.mp hret
  have hown₁ := h.allocLoop hs (.inr ⟨rfl, hhead⟩) hloop₁
  split at hret
  · obtain rfl := Option.some.inj hret
    exact hown₁
  · rename_i hcode
    obtain ⟨⟨s₂, stop⟩, hloop₂, hret⟩ := Option.bind_eq_some_iff.mp hret
    have hown₂ := hown₁.allocLoop hs (.inl rfl) hloop₂
    have hrest := htail r₁ _ hloop₁ (not_not.mp hcode) hloop₂
    cases stop with
    | returned code =>
        obtain rfl := Option.some.inj hret
        exact hown₂
    | finished =>
        obtain ⟨r₃, hloop₃, rfl⟩ := Option.map_eq_some_iff.mp hret
        exact hown₂.allocLoop hs (.inr ⟨rfl, hrest trivial⟩) hloop₃
    | noFrame rounds =>
        obtain ⟨r₃, hloop₃, rfl⟩ := Option.map_eq_some_iff.mp hret
        exact hown₂.allocLoop hs (.inr ⟨rfl, hrest trivial⟩) hloop₃

/-- An entry that is not present is empty if it is in an upper table. -/
theorem clearEntry (h : Owns env k₀ s) (hent : ∃ g, ∃ i : Fin 512, ent = 4096 * g + 8 * i.val)
    (hsafe : has (s.mem ent) pflagPresent = false ∨ OutsideUpper s ent) :
    Owns env k₀ (s.setEntry ent (s.mem ent &&& (2 ^ 64 - 1 - pflagPresent))) := by
  by_cases hout : OutsideUpper s ent
  · exact h.setEntry hout _
  have habsent := hsafe.resolve_right hout
  obtain ⟨g, i, rfl⟩ := hent
  have hi := i.isLt
  have hzero : s.mem (4096 * g + 8 * i.val) = 0 := by
    by_contra hne
    refine hout fun p f hp hf heq => hne ?_
    obtain rfl : g = f := by omega
    rw [← Vmem.cell_of_table hf] at habsent ⊢
    rcases h.upper p i hp with hzero | hsome
    · exact hzero
    · obtain ⟨f', hf'⟩ := Option.isSome_iff_exists.mp hsome
      rw [(nextTable_eq_some.mp hf').1] at habsent
      cases habsent
  have hsame : s.setEntry (4096 * g + 8 * i.val)
      (s.mem (4096 * g + 8 * i.val) &&& (2 ^ 64 - 1 - pflagPresent)) = s := by
    rw [hzero, Nat.zero_and, Vmem.setEntry, ← hzero, Function.update_eq_self]
  rwa [hsame]

theorem unmapPage {fuel v size : Nat} (h : Owns env k₀ s)
    (hsafe : ∀ ent, getEntry s v = some ent →
      has (s.mem ent) pflagPresent = false ∨ OutsideUpper s ent) {r : Vmem × Int}
    (hret : unmapPage env fuel s size v = some r) : Owns env k₀ r.1 := by
  unfold Vmemory.unmapPage at hret
  cases hent : getEntry s v with
  | none =>
      rw [hent] at hret
      obtain rfl := Option.some.inj hret
      exact h
  | some ent =>
      rw [hent] at hret
      obtain ⟨a, -, rfl⟩ := Option.map_eq_some_iff.mp hret
      exact (h.setPhys a).clearEntry (getEntry_aligned hent) (hsafe ent hent)

theorem unmapPages {fuel : Nat} {cs : List (Nat × Nat)} (h : Owns env k₀ s)
    (hsafe : UnmapSafe env fuel cs s) {r : Vmem × Int}
    (hret : unmapPages env fuel cs s = some r) : Owns env k₀ r.1 := by
  induction cs generalizing s with
  | nil =>
      obtain rfl := Option.some.inj hret
      exact h
  | cons c cs ih =>
      rw [Vmemory.unmapPages] at hret
      obtain ⟨r₁, hpage, hret⟩ := Option.bind_eq_some_iff.mp hret
      have hown := h.unmapPage hsafe.1 hpage
      split at hret
      · rename_i hzero
        exact ih hown (hsafe.2 r₁ hpage hzero) hret
      · obtain rfl := Option.some.inj hret
        exact hown

theorem vmemStep {fuel : Nat} {event : VmemEvent} (h : Owns env k₀ s) (hs : TableSupply env)
    (hok : MakesNoPageTable env s event) {r : Vmem × Int}
    (hret : vmemStep env fuel s event = some r) : Owns env k₀ r.1 := by
  cases event with
  | mapPhys vaddr paddr usize flags =>
      obtain ⟨a, -, rfl⟩ := Option.map_eq_some_iff.mp hret
      exact (h.setPhys a.1).mapChunks hs (hok a.1)
  | mapAlloc vaddr usize flags =>
      change Vmemory.mapAlloc env fuel s vaddr usize flags = some r at hret
      unfold MakesNoPageTable at hok
      unfold Vmemory.mapAlloc at hret
      by_cases hflag : has flags vmemFlagMaintainContinuity = true
      · simp only [if_pos hflag] at hok hret
        obtain ⟨⟨a, frame⟩, halloc, rfl⟩ := Option.map_eq_some_iff.mp hret
        cases frame with
        | none => exact h.setPhys a
        | some paddr => exact (h.setPhys a).mapChunks hs (hok fuel a paddr halloc)
      · simp only [if_neg hflag] at hok hret
        exact h.mapAllocPages hs hok hret
  | unmap vaddr usize flags => exact h.unmapPages (hok fuel) hret

theorem create (hs : TableSupply env) (s : Vmem) (h : (createMemHndl env s).2 = 0) :
    Owns env s.tables (createMemHndl env s).1 := by
  have hblank := cell_of_blank (createMemHndl_blank hs s h)
  have hinv := createMemHndl_inv hs s h
  have hroot : ∀ p f, (createMemHndl env s).1.table p = some f → p = [] := by
    intro p f hf
    cases p with
    | nil => rfl
    | cons i p =>
        cases hp : (createMemHndl env s).1.table p with
        | none =>
            rw [Vmem.table_cons_of_none hp] at hf
            cases hf
        | some f' =>
            rw [Vmem.table_cons_of_some hp, hblank, nextTable_zero] at hf
            cases hf
  obtain ⟨htables, hkmalloc⟩ : (createMemHndl env s).1.tables = s.tables + 1 ∧
      env.kmallocAlign s.tables = some (createMemHndl env s).1.pml4 := by
    unfold createMemHndl at h ⊢
    cases ht : env.kmallocAlign s.tables with
    | none =>
        rw [ht] at h
        exact absurd h (show vmemErrNospace ≠ 0 by decide)
    | some t => exact ⟨rfl, rfl⟩
  have hpml4 := Nat.mul_div_cancel' (Nat.dvd_of_mod_eq_zero hinv.root)
  refine ⟨⟨hinv.root, fun p i _ => .inl (hblank p i)⟩, by omega,
    ⟨fun {p q t} _ _ hf hf' => ?_⟩, fun p f _ hf => ?_, fun t ht => ⟨[], _, Nat.zero_le 2, TableInv.table_root _, ?_⟩⟩
  · rw [Radix.table_upTo] at hf hf'
    rw [hroot p t hf, hroot q t hf']
  · obtain rfl := hroot p f hf
    obtain rfl := Option.some.inj hf
    exact mem_handleTables.mpr
      ⟨s.tables, le_rfl, by omega, hkmalloc.trans (congrArg some hpml4.symm)⟩
  · obtain ⟨k, hle, hlt, hk⟩ := mem_handleTables.mp ht
    obtain rfl : k = s.tables := by omega
    rw [hpml4]
    exact Option.some.inj (hk.symm.trans hkmalloc)

theorem run (hs : TableSupply env) (hown : Owns env k₀ s₁)
    (hrun : HandleRun env (MakesNoPageTable env) s₁ s) : Owns env k₀ s := by
  induction hrun with
  | start => exact hown
  | step _ isOk returns ih =>
      obtain ⟨fuel, hfuel⟩ := returns
      exact ih.vmemStep hs isOk (hfuel fuel le_rfl)

end Owns

end Owned

section Destroy

/-- The paths of the tables that `destroy_mem_hndl` frees, in its order. -/
def tablePaths : List (List (Fin 512)) :=
  ((List.finRange 512).flatMap fun i =>
    ((List.finRange 512).map fun j => [j, i]) ++ [[i]]) ++ [[]]

theorem mem_tablePaths (p : List (Fin 512)) : p ∈ tablePaths ↔ p.length ≤ 2 := by
  simp only [tablePaths, List.mem_append, List.mem_flatMap, List.mem_map, List.mem_finRange,
    List.mem_singleton, true_and]
  constructor
  · rintro (⟨i, ⟨j, rfl⟩ | rfl⟩ | rfl)
    · exact le_rfl
    · exact Nat.le_succ 1
    · exact Nat.zero_le 2
  · intro hp
    match p, hp with
    | [], _ => exact .inr rfl
    | [i], _ => exact .inl ⟨i, .inr rfl⟩
    | [j, i], _ => exact .inl ⟨i, .inl ⟨j, rfl⟩⟩

theorem tablePaths_nodup : tablePaths.Nodup := by
  refine List.nodup_append.mpr ⟨List.nodup_flatMap.mpr ⟨fun i _ => ?_, ?_⟩,
    List.nodup_singleton [], fun p hp q hq heq => ?_⟩
  · refine List.nodup_append.mpr ⟨(List.nodup_finRange 512).map fun a b hab => ?_,
      List.nodup_singleton _, fun p hp q hq heq => ?_⟩
    · exact (List.cons.inj hab).1
    · obtain ⟨j, -, rfl⟩ := List.mem_map.mp hp
      obtain rfl := List.mem_singleton.mp hq
      exact absurd heq (by simp)
  · refine (List.nodup_finRange 512).imp fun {a b} hab p hp hq => ?_
    have hlast : ∀ c, p ∈ ((List.finRange 512).map fun j => [j, c]) ++ [[c]] →
        p.getLast? = some c := by
      intro c hc
      rcases List.mem_append.mp hc with hc | hc
      · obtain ⟨j, -, rfl⟩ := List.mem_map.mp hc
        rfl
      · obtain rfl := List.mem_singleton.mp hc
        rfl
    exact hab (Option.some.inj ((hlast a hp).symm.trans (hlast b hq)))
  · obtain rfl := List.mem_singleton.mp hq
    subst heq
    simp at hp

theorem getPdpte_zero (e : Nat) : getPdpte 0 e = 4096 * (e / 4096 % 2 ^ 40) := getPdpte_eq 0 e

theorem getPde_zero (e : Nat) : getPde 0 e = 4096 * (e / 4096 % 2 ^ 40) := getPde_eq 0 e

namespace UpperTables

theorem upper_cases (h : UpperTables s) (hp : p.length ≤ 1) (hf : s.table p = some f)
    (i : Fin 512) :
    (has (s.mem (4096 * f + 8 * i.val)) pflagPresent = false ∧ s.table (i :: p) = none) ∨
    (has (s.mem (4096 * f + 8 * i.val)) pflagPresent = true ∧
      s.table (i :: p) = some (s.mem (4096 * f + 8 * i.val) / 4096 % 2 ^ 40)) := by
  rw [Vmem.table_cons_of_some hf, ← Vmem.cell_of_table hf]
  rcases h.upper p i hp with hzero | hsome
  · rw [hzero]
    exact .inl ⟨has_zero _, nextTable_zero⟩
  · obtain ⟨g, hg⟩ := Option.isSome_iff_exists.mp hsome
    obtain ⟨hpresent, -, rfl⟩ := nextTable_eq_some.mp hg
    exact .inr ⟨hpresent, hg⟩

/-- `destroy_mem_hndl` frees the tables of two levels below the PML4. -/
theorem destroyMemHndl_eq (h : UpperTables s) :
    destroyMemHndl s = tablePaths.filterMap fun p => (s.table p).map (4096 * ·) := by
  have hpml4 := Nat.mul_div_cancel' (Nat.dvd_of_mod_eq_zero h.root)
  have hroot := TableInv.table_root s
  simp only [destroyMemHndl, tablePaths, List.filterMap_append, List.filterMap_flatMap,
    List.filterMap_map, ← List.map_coe_finRange_eq_range, List.flatMap_map]
  refine congrArg₂ (· ++ ·) ?_ ?_
  · refine List.flatMap_congr fun i _ => ?_
    rw [← hpml4]
    rcases h.upper_cases (p := []) (Nat.zero_le 1) hroot i with ⟨hpresent, hnone⟩ | ⟨hpresent, hsome⟩
    · rw [hpresent]
      have hbelow : ∀ j, s.table [j, i] = none := fun j => Vmem.table_cons_of_none hnone
      simp [hnone, hbelow]
    · rw [hpresent, getPdpte_zero, List.filterMap_eq_flatMap_toList]
      set g := s.mem (4096 * (s.pml4 / 4096) + 8 * i.val) / 4096 % 2 ^ 40 with hg
      have hdirectories : ∀ j ∈ List.finRange 512,
          (if !has (s.mem (4096 * g + 8 * j.val)) pflagPresent then []
            else [getPde 0 (s.mem (4096 * g + 8 * j.val))]) =
          ((s.table [j, i]).map (4096 * ·)).toList := by
        intro j _
        rcases h.upper_cases le_rfl hsome j with ⟨hpresent', hnone'⟩ | ⟨hpresent', hsome'⟩
        · rw [hpresent', hnone']
          rfl
        · rw [hpresent', hsome', getPde_zero]
          rfl
      simp only [Bool.not_true, Bool.false_eq_true, if_false]
      rw [List.flatMap_congr hdirectories]
      simp [hsome]
  · rw [List.filterMap_cons_some (b := s.pml4) (by rw [hroot]; exact congrArg some hpml4)]
    rfl

end UpperTables

namespace Owns

theorem destroy_perm (h : Owns env k₀ s) (hs : TableSupply env) :
    (destroyMemHndl s).Perm (handleTables env k₀ s) := by
  have hnodup : (destroyMemHndl s).Nodup := by
    rw [h.destroyMemHndl_eq]
    refine List.pairwise_filterMap.mpr (tablePaths_nodup.imp_of_mem ?_)
    intro p q hp hq hne b hb b' hb' heq
    obtain ⟨f, hf, rfl⟩ := Option.map_eq_some_iff.mp hb
    obtain ⟨f', hf', rfl⟩ := Option.map_eq_some_iff.mp hb'
    obtain rfl : f = f' := by omega
    exact hne (h.inj ((mem_tablePaths p).mp hp) ((mem_tablePaths q).mp hq) hf hf')
  refine (List.perm_ext_iff_of_nodup hnodup (handleTables_nodup hs k₀ s)).mpr fun t => ?_
  rw [h.destroyMemHndl_eq, List.mem_filterMap]
  constructor
  · rintro ⟨p, hp, ht⟩
    obtain ⟨f, hf, rfl⟩ := Option.map_eq_some_iff.mp ht
    exact h.given p f ((mem_tablePaths p).mp hp) hf
  · intro ht
    obtain ⟨p, f, hp, hf, rfl⟩ := h.kept t ht
    exact ⟨p, (mem_tablePaths p).mpr hp, by rw [hf]; rfl⟩

/-- A page table below the entry `i` of a directory is never freed. -/
theorem pageTable_leaks (h : Owns env k₀ s) (hs : TableSupply env) (hp : p.length = 2)
    (hf : s.table p = some f) (ht : env.kmallocAlign s.tables = some t) (e : Nat) (hs' : s' =
      (Vmem.clearTable { s with tables := s.tables + 1 } t).setEntry (4096 * f + 8 * i.val) e) :
    t ∈ handleTables env k₀ s' ∧ t ∉ destroyMemHndl s' := by
  obtain ⟨g, -, rfl⟩ := hs.frame _ _ ht
  set s₁ := Vmem.clearTable { s with tables := s.tables + 1 } (4096 * g) with hs₁
  have hcongr : ∀ (q : List (Fin 512)) f', q.length ≤ 2 →
      (s.radix.upTo 2).table (cells s.mem) q = some f' → cells s₁.mem f' = cells s.mem f' := by
    intro q f' hq hf'
    have hne : f' ≠ g := by
      rintro rfl
      rw [Radix.table_upTo] at hf'
      exact h.fresh hs ht hq hf'
    rw [hs₁, cells_clearTable]
    funext j
    exact if_neg hne
  have htable₁ : ∀ q, q.length ≤ 2 → s₁.table q = s.table q := fun q hq => by
    have htable := Radix.table_congr (X := s.radix.upTo 2) hcongr hq
    rwa [Radix.table_upTo, Radix.table_upTo] at htable
  have hcell₁ : ∀ q j, q.length ≤ 2 → s₁.cell q j = s.cell q j := fun q j hq => by
    have hcell := Radix.cell_congr (X := s.radix.upTo 2) (j := j) hcongr hq
    rwa [Radix.cell_upTo, Radix.cell_upTo] at hcell
  have hout : OutsideUpper s₁ (4096 * f + 8 * i.val) := fun q f' hq hf' =>
    h.outside_directory hp hf i q f' hq ((htable₁ q (by omega)).symm.trans hf')
  have hupper : UpperTables s' := by
    refine ⟨?_, fun q j hq => ?_⟩
    · rw [hs']
      exact h.root
    · rw [hs', cell_setEntry hout e hq, hcell₁ q j (by omega)]
      exact h.upper q j hq
  constructor
  · refine mem_handleTables.mpr ⟨s.tables, h.started, ?_, ht⟩
    rw [hs']
    exact Nat.lt_succ_self s.tables
  · rw [hupper.destroyMemHndl_eq, List.mem_filterMap]
    rintro ⟨q, hq, hfreed⟩
    obtain ⟨f', hf', heq⟩ := Option.map_eq_some_iff.mp hfreed
    have hlen := (mem_tablePaths q).mp hq
    rw [hs', table_setEntry hout e hlen, htable₁ q hlen] at hf'
    obtain rfl : f' = g := by omega
    exact h.fresh hs ht hlen hf'

end Owns

/-- In every run whose calls make no page table, `destroy_mem_hndl` frees what the handle has
received, each table once, and nothing else. -/
theorem destroy_mem_hndl_frees (env : VmemEnv) (hs : TableSupply env) (s₀ s : Vmem)
    (hcreate : (createMemHndl env s₀).2 = 0)
    (hrun : HandleRun env (MakesNoPageTable env) (createMemHndl env s₀).1 s) :
    (destroyMemHndl s).Perm (handleTables env s₀.tables s) ∧
      (handleTables env s₀.tables s).Nodup :=
  ⟨(Owns.run hs (Owns.create hs s₀ hcreate) hrun).destroy_perm hs, handleTables_nodup hs _ s⟩

/-- A 2 MiB page in a new handle. -/
theorem destroy_mem_hndl_frees_large : ∃ s : Vmem,
    handleTables smallHeap 0 s = [0x100000, 0x101000, 0x102000] ∧
    (destroyMemHndl s).Perm (handleTables smallHeap 0 s) := by
  have hcall : (mapPhys smallHeap 1 newHandle 0x400000 0x800000 512 0).map
      (fun r => handleTables smallHeap 0 r.1) = some [0x100000, 0x101000, 0x102000] := by
    decide +kernel
  obtain ⟨r, hret, htables⟩ := Option.map_eq_some_iff.mp hcall
  have hchunks : rangeChunks (unitsOf 512 0) 0x400000 0x800000 =
      [⟨pageSize2, 0x400000, 0x800000⟩] := by decide +kernel
  have hok : MakesNoPageTable smallHeap newHandle (.mapPhys 0x400000 0x800000 512 0) := by
    intro a
    rw [hchunks]
    exact ⟨fun hsize => absurd rfl hsize, fun _ => trivial⟩
  have hrun : HandleRun smallHeap (MakesNoPageTable smallHeap) newHandle r.1 :=
    .step .start hok ((mapPhys_steady _ _ _ _ _ _).returns 1 hret)
  exact ⟨r.1, htables, (destroy_mem_hndl_frees smallHeap smallHeap_supply
    ⟨fun _ => 0, 0, 0, blankAllocator⟩ r.1 (by decide) hrun).1⟩

/-- A 4 KiB page in a new handle: its page table is not freed. -/
theorem destroy_mem_hndl_leaks : ∃ s : Vmem,
    HandleRun smallHeap (fun _ _ => True) newHandle s ∧
    ¬ (destroyMemHndl s).Perm (handleTables smallHeap 0 s) := by
  have hcall : (mapPhys smallHeap 1 newHandle 0x400000 0x800000 1 0).map
      (fun r => ((destroyMemHndl r.1).length, (handleTables smallHeap 0 r.1).length)) =
      some (3, 4) := by decide +kernel
  obtain ⟨r, hret, hlengths⟩ := Option.map_eq_some_iff.mp hcall
  obtain ⟨hfreed, hgiven⟩ := Prod.mk.inj hlengths
  refine ⟨r.1, @HandleRun.step _ _ _ _ (.mapPhys 0x400000 0x800000 1 0) r .start trivial
    ((mapPhys_steady _ _ _ _ _ _).returns 1 hret), fun hperm => ?_⟩
  have hlength := hperm.length_eq
  omega

end Destroy

end UntitledOs.Vmemory
