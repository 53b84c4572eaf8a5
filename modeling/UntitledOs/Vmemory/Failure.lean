import UntitledOs.Vmemory.Translation

/-!
# Mappings that fail

A call that fails at its first step changes no translation and no frame: the
first entry is taken or cannot be made, or there is no frame for it.  Later
failures leave behind the frames and the pages of the steps before.
-/

namespace UntitledOs.Vmemory

open UntitledOs.Lib

variable {env : VmemEnv} {s s' : Vmem} {v w f size : Nat} {p : List (Fin 512)} {i : Fin 512}
  {c : Chunk}

section Walks

theorem SameCells.translate (h : TableInv env s) (hsame : SameCells env s s') (w : Nat) :
    s'.translate w = s.translate w := by
  rw [Vmem.translate, Vmem.translate, walk_eq hsame.inv, walk_eq h, Vmem.pdeAt, Vmem.pteAt,
    hsame.cell _ _ (by simp), hsame.cell _ _ le_rfl]
  rfl

/-- A table that was missing had no pages, and a new one has none either. -/
theorem Grown.translate (h : TableInv env s) (hgrown : Grown env s s' p i) (hp : p.length ≤ 2)
    (hcell : s.cell p i = 0 ∨ (nextTable (s.cell p i)).isSome) (w : Nat) :
    s'.translate w = s.translate w := by
  rw [Vmem.translate, Vmem.translate, walk_eq hgrown.inv, walk_eq h]
  have hpte : s'.pteAt w = s.pteAt w := by
    refine hgrown.cell _ _ le_rfl ?_
    rintro ⟨rfl, -⟩
    simp at hp
  rw [hpte]
  by_cases hpi : [index w 30, index w 39] = p ∧ index w 21 = i
  · obtain ⟨rfl, rfl⟩ := hpi
    obtain ⟨g, hg⟩ := hgrown.below
    have hnew : nextTable (s'.pdeAt w) = some g := by
      cases hf : s'.table [index w 30, index w 39] with
      | none =>
          rw [Vmem.table_cons_of_none hf] at hg
          cases hg
      | some f =>
          rw [Vmem.table_cons_of_some hf] at hg
          exact hg
    obtain ⟨hpresent, hpsize, -⟩ := nextTable_eq_some.mp hnew
    rw [walkOf, hpresent, hpsize, walkOf]
    rcases hcell with hzero | hsome
    · change s.pdeAt w = 0 at hzero
      rw [pteAt_of_none (by rw [hzero, nextTable_zero]), hzero, has_zero]
      rfl
    · obtain ⟨g', hg'⟩ := Option.isSome_iff_exists.mp hsome
      change nextTable (s.pdeAt w) = some g' at hg'
      rw [(nextTable_eq_some.mp hg').1, (nextTable_eq_some.mp hg').2.1]
      rfl
  · rw [Vmem.pdeAt, hgrown.cell _ _ (by simp) hpi]
    rfl

/-- The upper levels of `make_entry` change no translation. -/
theorem makeEntry_walks (h : TableInv env s) (hs : TableSupply env) (v size : Nat) :
    (∃ s' f, makeEntry env s v size = makeEntryAt env v size (4096 * f + 8 * (index v 21).val) s' ∧
      s'.table [index v 30, index v 39] = some f ∧ TableInv env s' ∧ s'.pdeAt v = s.pdeAt v ∧
      ∀ w, s'.translate w = s.translate w) ∨
    ∃ s', makeEntry env s v size = (s', none) ∧ ∀ w, s'.translate w = s.translate w := by
  have htop : ∀ {s₁}, Made env s s₁ [] (index v 39) → ∀ w, s₁.translate w = s.translate w :=
    fun hgrown => hgrown.translate h (Nat.zero_le 2) (h.upper [] (index v 39) (Nat.zero_le 1))
  rcases makeEntry_levels h hs v size with
    ⟨s₁, s₂, f, hgrown, hgrown₂, hf, hcall⟩ | ⟨s₁, hsame, hcall⟩ | ⟨s₁, s₂, hgrown, hsame, hcall⟩
  · have hdir := hgrown.inv.upper [index v 39] (index v 30) le_rfl
    have hpde := (hgrown₂.pdeAt le_rfl v).trans (hgrown.pdeAt (Nat.zero_le 1) v)
    refine .inl ⟨s₂, f, hcall, hf, hgrown₂.inv, hpde, fun w => ?_⟩
    exact (hgrown₂.translate hgrown.inv (by simp) hdir w).trans (htop hgrown w)
  · exact .inr ⟨s₁, hcall, hsame.translate h⟩
  · exact .inr ⟨s₂, hcall, fun w => (hsame.translate hgrown.inv w).trans (htop hgrown w)⟩

/-- `MAP_PAGE` that fails changes no translation. -/
theorem mapPage_small_fails (h : TableInv env s) (hs : TableSupply env) (hsmall : Small s v) {a : Nat}
    (hfail : (mapPage env s pageSize v a).2 ≠ 0) (w : Nat) :
    (mapPage env s pageSize v a).1.translate w = s.translate w := by
  unfold mapPage at hfail ⊢
  rcases makeEntry_walks h hs v pageSize with ⟨s₁, f, hcall, hf, hinv, hpde, hwalk⟩ | ⟨s₁, hcall, hwalk⟩
  swap
  · rw [hcall]
    exact hwalk w
  rw [hcall, makeEntryAt, if_neg (show pageSize ≠ pageSize2 by decide)] at hfail ⊢
  have hdir : s₁.cell [index v 30, index v 39] (index v 21) = 0 ∨
      (nextTable (s₁.cell [index v 30, index v 39] (index v 21))).isSome := by
    rcases hinv.directory [index v 30, index v 39] (index v 21) rfl with hd | hd | hd
    · exact .inl hd
    · exact .inr hd
    · change has (s₁.pdeAt v) pflagPsize = true at hd
      rw [hpde, hsmall] at hd
      cases hd
  rcases withTable_spec hinv hs (show [index v 30, index v 39].length ≤ 2 by simp) hf hdir
    (fun s => (s, some (getPte v (s.mem (4096 * f + 8 * (index v 21).val))))) with
    ⟨s₂, hcall₂, hgrown⟩ | ⟨s₂, hcall₂, hsame⟩
  swap
  · rw [hcall₂]
    exact (hsame.translate hinv w).trans (hwalk w)
  rw [hcall₂] at hfail ⊢
  dsimp only at hfail ⊢
  split at hfail
  · next hpresent =>
      rw [if_pos hpresent]
      exact (hgrown.translate hinv (by simp) hdir w).trans (hwalk w)
  · exact absurd rfl hfail

/-- `MAP_PAGE2` over a 2 MiB page fails and changes no translation. -/
theorem mapPage_large_fails (h : TableInv env s) (hs : TableSupply env) {a : Nat}
    (hpsize : has (s.pdeAt v) pflagPresent = true → has (s.pdeAt v) pflagPsize = true)
    (hfail : (mapPage env s pageSize2 v a).2 ≠ 0) (w : Nat) :
    (mapPage env s pageSize2 v a).1.translate w = s.translate w := by
  unfold mapPage at hfail ⊢
  rcases makeEntry_walks h hs v pageSize2 with ⟨s₁, f, hcall, hf, hinv, hpde, hwalk⟩ | ⟨s₁, hcall, hwalk⟩
  swap
  · rw [hcall]
    exact hwalk w
  rw [hcall, makeEntryAt, if_pos rfl] at hfail ⊢
  have hold : s₁.mem (4096 * f + 8 * (index v 21).val) = s.pdeAt v := by
    rw [← Vmem.cell_of_table hf, ← hpde]
    rfl
  rw [hold] at hfail ⊢
  have hnew : (s₁.setEntry (4096 * f + 8 * (index v 21).val) (s.pdeAt v ||| pflagPsize)).mem
      (4096 * f + 8 * (index v 21).val) = s.pdeAt v ||| pflagPsize := by
    simp [Vmem.setEntry]
  simp only [hnew, present_or_psize] at hfail ⊢
  split at hfail
  · next hpresent =>
      have hsame : s.pdeAt v ||| pflagPsize = s.pdeAt v := by
        have hbit := hpsize hpresent
        rw [pflagPsize, has_iff] at hbit
        exact or_flag hbit
      have hset : s₁.setEntry (4096 * f + 8 * (index v 21).val) (s.pdeAt v) = s₁ := by
        rw [← hold, Vmem.setEntry, Function.update_eq_self]
      rw [if_pos hpresent, hsame, hset]
      exact hwalk w
  · exact absurd rfl hfail

theorem phys_withTable {ent : Nat} {next : Vmem → Vmem × Option Nat}
    (hnext : ∀ s, (next s).1.phys = s.phys) : (withTable env ent s next).1.phys = s.phys := by
  unfold withTable
  split
  · exact hnext s
  · split
    · rfl
    · exact hnext _

theorem phys_mapPage (env : VmemEnv) (s : Vmem) (size v a : Nat) :
    (mapPage env s size v a).1.phys = s.phys := by
  have hmake : (makeEntry env s v size).1.phys = s.phys := by
    refine phys_withTable fun s => phys_withTable fun s => ?_
    unfold makeEntryAt
    split
    · rfl
    · exact phys_withTable fun s => rfl
  unfold mapPage
  split
  · next heq =>
      rw [heq] at hmake
      exact hmake
  · next heq =>
      rw [heq] at hmake
      split <;> exact hmake

end Walks

section NoTable

/-- How many tables `make_entry` has to make for an entry of this size. -/
def missingTables (s : Vmem) (c : Chunk) : Nat :=
  let leaf := if c.size = pageSize2 then 0 else 1
  if (s.table [index c.vaddr 39]).isNone then 2 + leaf
  else if (s.table [index c.vaddr 30, index c.vaddr 39]).isNone then 1 + leaf
  else if has (s.pdeAt c.vaddr) pflagPresent then 0 else leaf

/-- The heap does not give all the tables that are missing. -/
def NoTable (env : VmemEnv) (s : Vmem) (c : Chunk) : Prop :=
  ∃ j < missingTables s c, env.kmallocAlign (s.tables + j) = none

theorem withTable_present {ent : Nat} (hpresent : has (s.mem ent) pflagPresent = true)
    (next : Vmem → Vmem × Option Nat) : withTable env ent s next = next s := by
  rw [withTable, if_pos hpresent]

/-- A step of `make_entry` at an empty entry. -/
theorem withTable_missing (h : TableInv env s) (hs : TableSupply env) (hp : p.length ≤ 2)
    (hf : s.table p = some f) (hzero : s.cell p i = 0) (next : Vmem → Vmem × Option Nat) :
    (withTable env (4096 * f + 8 * i.val) s next).2 = none ∨
      env.kmallocAlign s.tables ≠ none ∧ ∃ s', s'.tables = s.tables + 1 ∧
        withTable env (4096 * f + 8 * i.val) s next = next s' ∧ Grown env s s' p i := by
  unfold withTable
  rw [← Vmem.cell_of_table hf, hzero, has_zero]
  cases ht : env.kmallocAlign s.tables with
  | none => exact .inl rfl
  | some t => exact .inr ⟨by simp, _, rfl, rfl, h.newTable hs hp hf hzero ht⟩

theorem makeEntryAt_none {ent : Nat} (hpresent : has (s.mem ent) pflagPresent = false)
    (hnone : env.kmallocAlign s.tables = none) : (makeEntryAt env v pageSize ent s).2 = none := by
  rw [makeEntryAt, if_neg (show pageSize ≠ pageSize2 by decide), withTable, hpresent, hnone]
  rfl

theorem makeDirectory_none (h : TableInv env s) (hs : TableSupply env)
    (hsize : size = pageSize ∨ size = pageSize2) (hf : s.table [index v 39] = some f)
    (hmissing : s.table [index v 30, index v 39] = none)
    (hno : ∃ j < 1 + (if size = pageSize2 then 0 else 1), env.kmallocAlign (s.tables + j) = none) :
    (withTable env (4096 * f + 8 * (index v 30).val) s fun s' =>
      makeEntryAt env v size (getPde v (s'.mem (4096 * f + 8 * (index v 30).val))) s').2 = none := by
  have hzero : s.cell [index v 39] (index v 30) = 0 := by
    rcases h.upper_cases le_rfl hf (index v 30) with ⟨hzero, -⟩ | ⟨-, -, hsome⟩
    · exact hzero
    · rw [hmissing] at hsome
      cases hsome
  rcases withTable_missing h hs (by simp) hf hzero _ with hnone | ⟨hgiven, s₁, htables, hcall, hgrown⟩
  · exact hnone
  rw [hcall]
  obtain ⟨j, hj, hnone⟩ := hno
  have hj0 : j ≠ 0 := by
    rintro rfl
    exact hgiven hnone
  rcases hsize with rfl | rfl
  · obtain rfl : j = 1 := by
      rw [if_neg (show pageSize ≠ pageSize2 by decide)] at hj
      omega
    obtain ⟨f₂, hf₂⟩ := hgrown.below
    have hf₁ := (hgrown.table_self (by simp)).trans hf
    refine makeEntryAt_none ?_ (by rw [htables]; exact hnone)
    rw [getPde_eq, Vmem.below_eq hf₁ hf₂, ← Vmem.cell_of_table hf₂,
      hgrown.cell _ _ (by simp) (by simp), Vmem.cell_of_none hmissing, has_zero]
  · rw [if_pos rfl] at hj
    omega

/-- Where the heap ends before the entry is there, `make_entry` gives up. -/
theorem makeEntry_none (h : TableInv env s) (hs : TableSupply env)
    (hsize : c.size = pageSize ∨ c.size = pageSize2) (hno : NoTable env s c) :
    (makeEntry env s c.vaddr c.size).2 = none := by
  obtain ⟨j, hj, hnone⟩ := hno
  set v := c.vaddr with hv
  unfold makeEntry
  rw [Vmem.getPml4e, h.getPml4e_eq]
  have hroot := TableInv.table_root s
  rw [missingTables, ← hv] at hj
  rcases h.upper_cases (p := []) (Nat.zero_le 1) hroot (index v 39) with ⟨hzero, htop⟩ | ⟨hpresent, -, htop⟩
  · rw [if_pos (by rw [htop]; rfl)] at hj
    rcases withTable_missing (p := []) h hs (Nat.zero_le 2) hroot hzero _ with
      hnone' | ⟨hgiven, s₁, htables, hcall, hgrown⟩
    · exact hnone'
    rw [hcall]
    obtain ⟨f₃, hf₃⟩ := hgrown.below
    rw [getPdpte_eq, Vmem.getPml4e, hgrown.inv.getPml4e_eq,
      Vmem.below_eq (TableInv.table_root s₁) hf₃]
    have hj0 : j ≠ 0 := by
      rintro rfl
      exact hgiven hnone
    refine makeDirectory_none hgrown.inv hs hsize hf₃ ?_ ⟨j - 1, by omega, ?_⟩
    · rw [Vmem.table_cons_of_some hf₃, hgrown.cell _ _ (by simp) (by simp), Vmem.cell_of_none htop,
        nextTable_zero]
    · rw [htables, show s.tables + 1 + (j - 1) = s.tables + j by omega]
      exact hnone
  · rw [if_neg (by rw [htop]; simp)] at hj
    rw [withTable_present (by rw [← Vmem.cell_of_table hroot]; exact hpresent), getPdpte_eq,
      Vmem.getPml4e, h.getPml4e_eq, ← Vmem.cell_of_table hroot]
    rcases h.upper_cases le_rfl htop (index v 30) with ⟨hzero, hdir⟩ | ⟨hpresent', -, hdir⟩
    · rw [if_pos (by rw [hdir]; rfl)] at hj
      exact makeDirectory_none h hs hsize htop hdir ⟨j, hj, hnone⟩
    · rw [if_neg (by rw [hdir]; simp)] at hj
      rw [withTable_present (by rw [← Vmem.cell_of_table htop]; exact hpresent'), getPde_eq,
        ← Vmem.cell_of_table htop]
      have hpde : s.mem (4096 * (s.cell [index v 39] (index v 30) / 4096 % 2 ^ 40) +
          8 * (index v 21).val) = s.pdeAt v := (Vmem.cell_of_table hdir).symm
      cases hp : has (s.pdeAt v) pflagPresent with
      | true =>
          rw [hp, if_pos rfl] at hj
          omega
      | false =>
          rw [hp, if_neg (by simp)] at hj
          rcases hsize with hsize | hsize
          · obtain rfl : j = 0 := by
              rw [hsize, if_neg (show pageSize ≠ pageSize2 by decide)] at hj
              omega
            rw [hsize]
            exact makeEntryAt_none (by rw [hpde]; exact hp) hnone
          · rw [if_pos hsize] at hj
            omega

end NoTable

section Blocked

/--
The entry of a chunk is in use.  A 4 KiB page inside a 2 MiB page is taken if the
word that stands where a page table would have its entry has the present bit.
-/
def Taken (s : Vmem) (c : Chunk) : Prop :=
  let pde := s.pdeAt c.vaddr
  if c.size = pageSize2 then has pde pflagPresent = true ∧ has pde pflagPsize = true
  else
    has (s.pteAt c.vaddr) pflagPresent = true ∨
      has pde pflagPresent = true ∧ has pde pflagPsize = true ∧
        has (s.mem (getPte c.vaddr pde)) pflagPresent = true

def Blocked (env : VmemEnv) (s : Vmem) (c : Chunk) : Prop := Taken s c ∨ NoTable env s c

/-- Where the directory is there, `make_entry` goes straight to its entry. -/
theorem makeEntry_open (h : TableInv env s) (hf : s.table [index v 30, index v 39] = some f)
    (size : Nat) : makeEntry env s v size =
      makeEntryAt env v size (4096 * f + 8 * (index v 21).val) s := by
  have hroot := TableInv.table_root s
  unfold makeEntry
  rw [Vmem.getPml4e, h.getPml4e_eq]
  rcases h.upper_cases (p := []) (Nat.zero_le 1) hroot (index v 39) with
    ⟨-, htop⟩ | ⟨hpresent, -, htop⟩
  · rw [Vmem.table_cons_of_none htop] at hf
    cases hf
  rw [withTable_present (by rw [← Vmem.cell_of_table hroot]; exact hpresent), getPdpte_eq,
    Vmem.getPml4e, h.getPml4e_eq, ← Vmem.cell_of_table hroot]
  rcases h.upper_cases le_rfl htop (index v 30) with ⟨-, hdir⟩ | ⟨hpresent', -, hdir⟩
  · rw [hdir] at hf
    cases hf
  obtain rfl := Option.some.inj (hdir.symm.trans hf)
  rw [withTable_present (by rw [← Vmem.cell_of_table htop]; exact hpresent'), getPde_eq,
    ← Vmem.cell_of_table htop]

theorem directory_of_present (hpresent : has (s.pdeAt v) pflagPresent = true) :
    ∃ f, s.table [index v 30, index v 39] = some f := by
  refine Option.ne_none_iff_exists'.mp fun hnone => ?_
  rw [Vmem.pdeAt, Vmem.cell_of_none hnone, has_zero] at hpresent
  cases hpresent

/-- `make_entry` that gives up changes no translation. -/
theorem makeEntry_none_walks (h : TableInv env s) (hs : TableSupply env)
    (hnone : (makeEntry env s v size).2 = none) (w : Nat) :
    (makeEntry env s v size).1.translate w = s.translate w := by
  rcases makeEntry_walks h hs v size with ⟨s₁, f, hcall, hf, hinv, -, hwalk⟩ | ⟨s₁, hcall, hwalk⟩
  · rw [hcall] at hnone ⊢
    unfold makeEntryAt at hnone ⊢
    split at hnone
    · cases hnone
    · next hsize =>
        rw [if_neg hsize]
        unfold withTable at hnone ⊢
        split at hnone
        · cases hnone
        · next hpresent =>
            rw [if_neg hpresent]
            split at hnone
            · next ht =>
                exact (hinv.countTable.translate hinv w).trans (hwalk w)
            · cases hnone
  · rw [hcall]
    exact hwalk w

/-- A mapping that is blocked fails and changes no translation. -/
theorem mapPage_blocked (h : TableInv env s) (hs : TableSupply env)
    (hsize : c.size = pageSize ∨ c.size = pageSize2) (hblocked : Blocked env s c) :
    (mapPage env s c.size c.vaddr c.paddr).2 ≠ 0 ∧
      ∀ w, (mapPage env s c.size c.vaddr c.paddr).1.translate w = s.translate w := by
  rcases hblocked with htaken | hno
  · rw [Taken] at htaken
    rcases hsize with hsize | hsize
    · rw [hsize, if_neg (show pageSize ≠ pageSize2 by decide)] at htaken
      rw [hsize]
      rcases htaken with hpte | ⟨hpresent, hpsize, hword⟩
      · have hsmall : Small s c.vaddr := by
          cases hnext : nextTable (s.pdeAt c.vaddr) with
          | none =>
              rw [pteAt_of_none hnext, has_zero] at hpte
              cases hpte
          | some g => exact (nextTable_eq_some.mp hnext).2.1
        have hfail : (mapPage env s pageSize c.vaddr c.paddr).2 ≠ 0 := by
          rcases mapPage_small h hs hsmall c.paddr with ⟨-, hne⟩ | ⟨s₁, -, -, -, -, hfree, -⟩
          · exact hne
          · rw [hpte] at hfree
            cases hfree
        exact ⟨hfail, mapPage_small_fails h hs hsmall hfail⟩
      · obtain ⟨f, hf⟩ := directory_of_present hpresent
        have hpde : s.mem (4096 * f + 8 * (index c.vaddr 21).val) = s.pdeAt c.vaddr :=
          (Vmem.cell_of_table hf).symm
        have hcall : mapPage env s pageSize c.vaddr c.paddr = (s, vmemErrVirtOccupied) := by
          unfold mapPage
          rw [makeEntry_open h hf, makeEntryAt, if_neg (show pageSize ≠ pageSize2 by decide),
            withTable_present (by rw [hpde]; exact hpresent), hpde]
          simp only [hword, if_true]
        rw [hcall]
        exact ⟨show vmemErrVirtOccupied ≠ 0 by decide, fun _ => rfl⟩
    · rw [hsize, if_pos rfl] at htaken
      rw [hsize]
      have hfail : (mapPage env s pageSize2 c.vaddr c.paddr).2 ≠ 0 := by
        intro hret
        have hfree := ((mapPage_large h hs c.vaddr c.paddr).2.2.2 hret).1
        rw [htaken.1] at hfree
        cases hfree
      exact ⟨hfail, mapPage_large_fails h hs (fun _ => htaken.2) hfail⟩
  · have hnone := makeEntry_none h hs hsize hno
    have hwalk := makeEntry_none_walks h hs hnone
    have hcall : mapPage env s c.size c.vaddr c.paddr =
        ((makeEntry env s c.vaddr c.size).1, vmemErrNospace) := by
      unfold mapPage
      split
      · next heq => rw [heq]
      · next heq =>
          rw [heq] at hnone
          cases hnone
    rw [hcall]
    exact ⟨show vmemErrNospace ≠ 0 by decide, hwalk⟩

end Blocked

section Calls

/-- No free block contains the region. -/
def NoRegion (s : Vmem) (size addr : Nat) : Prop :=
  Returns (fun fuel => allocTreeFindContaining fuel s.phys.tree addr size) none

/-- No free block has room for an aligned frame, as `allocator_alloc_align` looks for it. -/
def NoFrame (s : Vmem) (size align : Nat) : Prop :=
  ∃ root, s.phys.root = some root ∧
    Returns (fun fuel => findFirst s.phys.tree (firstFitAlign size align) fuel root) none

/-- The first request of `map_alloc` is for a 2 MiB frame. -/
def StartsLarge (vaddr usize : Nat) : Prop :=
  vaddr % pageSize2 = 0 ∧ pageSize2 / pageSize ≤ usize

/-- The calls that, if they fail, fail at their first step. -/
def FailsFirst (env : VmemEnv) (s : Vmem) : VmemEvent → Prop
  | .mapPhys vaddr paddr usize flags =>
      NoRegion s (u64 (unitsOf usize flags * pageSize)) paddr ∧
        ∃ c cs, rangeChunks (unitsOf usize flags) vaddr paddr = c :: cs ∧ Blocked env s c
  | .mapAlloc vaddr usize flags =>
      if has flags vmemFlagMaintainContinuity then
        NoFrame s (u64 (unitsOf usize flags * pageSize)) pageSize
      else
        (StartsLarge vaddr (unitsOf usize flags) → NoFrame s pageSize2 pageSize2) ∧
          NoFrame s pageSize pageSize
  | .unmap _ _ _ => False

theorem allocatorAllocAlign_none {n align : Nat} (h : NoFrame s n align) :
    Returns (fun fuel => allocatorAllocAlign env.kmalloc fuel s.phys n align) (s.phys, none) := by
  obtain ⟨root, hroot, hfind⟩ := h
  unfold allocatorAllocAlign
  rw [hroot]
  exact hfind.bind (Returns.const _)

theorem allocLoop_none {n : Nat} (h : NoFrame s n n) (v : Nat) (vs : List Nat) :
    Returns (fun fuel => allocLoop env fuel n (v :: vs) s) (s, .noFrame (vs.length + 1)) := by
  unfold allocLoop
  exact (allocatorAllocAlign_none h).bind (Returns.const _)

theorem loopVaddrs_cons {rounds : Nat} (hrounds : 0 < rounds) (size v : Nat) :
    ∃ w ws, loopVaddrs size rounds v = w :: ws ∧ ws.length + 1 = rounds := by
  obtain ⟨k, rfl⟩ : ∃ k, rounds = k + 1 := ⟨rounds - 1, by omega⟩
  rw [loopVaddrs, List.range_succ_eq_map]
  exact ⟨_, _, rfl, by simp⟩

/-- Without a frame for its first request `map_alloc` leaves everything as it was. -/
theorem mapAllocPages_none {vaddr usize : Nat}
    (hlarge : StartsLarge vaddr usize → NoFrame s pageSize2 pageSize2)
    (hsmall : NoFrame s pageSize pageSize) :
    ∃ code, Returns (fun fuel => mapAllocPages env fuel s vaddr usize) (s, code) := by
  have htail : ∀ n v, ∃ stop : LoopEnd, Returns (fun fuel =>
      (allocLoop env fuel pageSize (loopVaddrs pageSize n v) s).map fun r => (r.1, r.2.code))
      (s, stop.code) := by
    intro n v
    rcases Nat.eq_zero_or_pos n with rfl | hn
    · exact ⟨.finished, Returns.const _⟩
    · obtain ⟨w, ws, heq, -⟩ := loopVaddrs_cons hn pageSize v
      rw [heq]
      exact ⟨_, (allocLoop_none hsmall w ws).map _⟩
  unfold mapAllocPages
  cases hhead : headVaddrs usize vaddr with
  | cons w ws =>
      refine ⟨vmemErrNospace, (allocLoop_none hsmall w ws).bind ?_⟩
      exact Returns.const _
  | nil =>
      -- the first loop has no rounds
      simp only [allocLoop, Option.bind_some, List.length_nil, Nat.sub_zero,
        show ¬LoopEnd.finished.code ≠ 0 by decide, if_false]
      rcases Nat.eq_zero_or_pos (usize / (pageSize2 / pageSize)) with hzero | hpos
      · obtain ⟨stop, hret⟩ := htail (usize - 0) (u64 (u64 (vaddr + 0 * pageSize) + 0 * pageSize2))
        refine ⟨stop.code, ?_⟩
        rw [hzero]
        refine Returns.bind (Returns.const _) ?_
        simpa [tailVaddrs, hzero, LoopEnd.left] using hret
      · have hstarts : StartsLarge vaddr usize := by
          have hle : pageSize2 / pageSize ≤ usize := by
            by_contra hlt
            rw [Nat.div_eq_of_lt (not_le.mp hlt)] at hpos
            cases hpos
          refine ⟨?_, hle⟩
          obtain ⟨k, rfl⟩ : ∃ k, usize = k + 1 := by
            refine ⟨usize - 1, ?_⟩
            have : 0 < pageSize2 / pageSize := by decide
            omega
          rw [headVaddrs] at hhead
          split at hhead
          · cases hhead
          · next hmod => exact Nat.eq_zero_of_not_pos hmod
        obtain ⟨w, ws, heq, hlen⟩ := loopVaddrs_cons hpos pageSize2 (u64 (vaddr + 0 * pageSize))
        obtain ⟨stop, hret⟩ := htail (usize - 0) (u64 (u64 (vaddr + 0 * pageSize) + 0 * pageSize2))
        refine ⟨stop.code, ?_⟩
        rw [heq]
        refine (allocLoop_none (hlarge hstarts) w ws).bind ?_
        have hdone : usize / (pageSize2 / pageSize) - (ws.length + 1) = 0 := by omega
        simpa [tailVaddrs, LoopEnd.left, hdone] using hret

/-- Where no block is taken out, `map_phys` only maps. -/
theorem mapPhys_of_noRegion {vaddr paddr usize flags : Nat}
    (h : NoRegion s (u64 (unitsOf usize flags * pageSize)) paddr) :
    Returns (fun fuel => mapPhys env fuel s vaddr paddr usize flags)
      (mapChunks env (rangeChunks (unitsOf usize flags) vaddr paddr) s) :=
  Returns.map_eq (a := (s.phys, none)) (Returns.bind h (Returns.const _)) rfl

theorem failsFirst_unchanged (h : TableInv env s) (hs : TableSupply env) {event : VmemEvent}
    (hfirst : FailsFirst env s event) {r : Vmem × Int}
    (hret : Returns (fun fuel => vmemStep env fuel s event) r) :
    (∀ w, r.1.translate w = s.translate w) ∧ r.1.phys = s.phys := by
  cases event with
  | mapPhys vaddr paddr usize flags =>
      obtain ⟨hregion, c, cs, hchunks, hblocked⟩ := hfirst
      obtain rfl := Returns.unique hret (mapPhys_of_noRegion hregion)
      have hsize := rangeChunks_size (unitsOf usize flags) vaddr paddr c (by rw [hchunks]; simp)
      obtain ⟨hfail, hwalk⟩ := mapPage_blocked h hs hsize hblocked
      rw [hchunks, mapChunks, if_neg hfail]
      exact ⟨hwalk, phys_mapPage _ _ _ _ _⟩
  | mapAlloc vaddr usize flags =>
      rw [FailsFirst] at hfirst
      simp only [vmemStep, mapAlloc] at hret
      split at hfirst
      · next hcont =>
          simp only [hcont, if_true] at hret
          obtain rfl := hret.unique ((allocatorAllocAlign_none hfirst).map _)
          exact ⟨fun _ => rfl, rfl⟩
      · next hcont =>
          simp only [hcont, Bool.false_eq_true, if_false] at hret
          obtain ⟨code, hcall⟩ := @mapAllocPages_none env _ _ _ hfirst.1 hfirst.2
          obtain rfl := hret.unique hcall
          exact ⟨fun _ => rfl, rfl⟩
  | unmap vaddr usize flags => exact hfirst.elim

/--
In every run whose calls keep the tables, a `map_alloc` or `map_phys` that fails
at its first step leaves every translation and the frames as they were.
-/
theorem failed_mapping_unchanged (hs : TableSupply env) (hrun : VmemRun env (KeepsTables env) s)
    {event : VmemEvent} {code : Int} (hfirst : FailsFirst env s event)
    (hret : Returns (fun fuel => vmemStep env fuel s event) (s', code)) :
    (∀ w, s'.translate w = s.translate w) ∧ s'.phys = s.phys :=
  failsFirst_unchanged (vmemRun_inv hs hrun) hs hfirst hret

end Calls

section Examples

theorem newHandle_large : ∃ s, VmemRun smallHeap (KeepsTables smallHeap) s ∧
    (s.pdeAt 0x400000 = 0x800083 ∧ s.phys.tree.root = none) := by
  have hcall : (mapPhys smallHeap 1 newHandle 0x400000 0x800000 512 0).map
      (fun r => (r.1.pdeAt 0x400000, r.1.phys.tree.root)) = some (0x800083, none) := by decide +kernel
  obtain ⟨r, hret, hres⟩ := Option.map_eq_some_iff.mp hcall
  obtain ⟨hpde, hroot⟩ := Prod.mk.inj hres
  have hkeeps : KeepsTables smallHeap newHandle (.mapPhys 0x400000 0x800000 512 0) := by
    intro fuel r _
    rw [show rangeChunks (unitsOf 512 0) 0x400000 0x800000 = [⟨pageSize2, 0x400000, 0x800000⟩] by
      decide +kernel]
    exact fun _ => ⟨fun h => absurd h (by decide), trivial⟩
  have hrun := @VmemRun.step _ _ _ (.mapPhys 0x400000 0x800000 512 0) _ newHandle_run hkeeps
    ((mapPhys_steady _ _ _ _ _ _).returns 1 hret)
  exact ⟨r.1, hrun, hpde, hroot⟩

/-- Mapping the 2 MiB page a second time fails and changes nothing. -/
theorem failed_mapping_unchanged_large : ∃ s r, VmemRun smallHeap (KeepsTables smallHeap) s ∧
    Returns (fun fuel => vmemStep smallHeap fuel s (.mapPhys 0x400000 0x800000 512 0)) r ∧
    (∀ w, r.1.translate w = s.translate w) ∧ r.1.phys = s.phys := by
  obtain ⟨s, hrun, hpde, hroot⟩ := newHandle_large
  have hchunks : rangeChunks (unitsOf 512 0) 0x400000 0x800000 =
      [⟨pageSize2, 0x400000, 0x800000⟩] := by decide +kernel
  have hregion : NoRegion s (u64 (unitsOf 512 0 * pageSize)) 0x800000 := by
    refine ⟨1, fun fuel hfuel => ?_⟩
    obtain ⟨k, rfl⟩ : ∃ k, fuel = k + 1 := ⟨fuel - 1, by omega⟩
    unfold allocTreeFindContaining
    rw [hroot]
    rfl
  have hfirst : FailsFirst smallHeap s (.mapPhys 0x400000 0x800000 512 0) := by
    refine ⟨hregion, _, _, hchunks, .inl ?_⟩
    rw [Taken, if_pos rfl, hpde]
    exact ⟨by decide, by decide⟩
  have hret : Returns (fun fuel => vmemStep smallHeap fuel s (.mapPhys 0x400000 0x800000 512 0)) _ :=
    mapPhys_of_noRegion hregion
  exact ⟨s, _, hrun, hret, failed_mapping_unchanged smallHeap_supply hrun hfirst hret⟩

/-- A 2 MiB request over a 4 KiB page fails, but the page is then mapped elsewhere. -/
theorem failed_mapping_remaps : ∃ s s', VmemRun smallHeap (fun _ _ => True) s ∧
    s.translate 0x400000 = some 0x800000 ∧
    Returns (fun fuel => mapPhys smallHeap fuel s 0x400000 0x800000 512 0)
      (s', vmemErrVirtOccupied) ∧
    s'.translate 0x400000 ≠ some 0x800000 := by
  have hcall : ((mapPhys smallHeap 1 newHandle 0x400000 0x800000 1 0).bind fun r =>
      (mapPhys smallHeap 1 r.1 0x400000 0x800000 512 0).map fun r' =>
        (r.1.translate 0x400000, r'.2, r'.1.translate 0x400000)) =
      some (some 0x800000, vmemErrVirtOccupied, none) := by decide +kernel
  obtain ⟨r, hret, hcall⟩ := Option.bind_eq_some_iff.mp hcall
  obtain ⟨⟨s', code⟩, hret', hres⟩ := Option.map_eq_some_iff.mp hcall
  obtain ⟨hold, hres⟩ := Prod.mk.inj hres
  obtain ⟨hcode, hnew⟩ := Prod.mk.inj hres
  obtain rfl : code = vmemErrVirtOccupied := hcode
  have hrun := @VmemRun.step _ (fun _ _ => True) _ (.mapPhys 0x400000 0x800000 1 0) _ newHandle_run
    trivial ((mapPhys_steady _ _ _ _ _ _).returns 1 hret)
  refine ⟨r.1, s', hrun, hold, (mapPhys_steady _ _ _ _ _ _).returns 1 hret', ?_⟩
  rw [hnew]
  decide

end Examples

end UntitledOs.Vmemory
