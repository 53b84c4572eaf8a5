import UntitledOs.Vmemory.PageTables

/-!
# Mapping one page

What `make_entry`, `MAP_PAGE` and `MAP_PAGE2` do to the cells of the page tables.
A 4 KiB page must not go through a directory entry with the page-size bit: the
code would take what that entry points to for a page table.
-/

namespace UntitledOs.Vmemory

open UntitledOs.Lib

variable {env : VmemEnv} {s s' : Vmem} {e f v w size paddr : Nat} {i j : Fin 512}
  {p q : List (Fin 512)}

/-- `s'` has the same cells as `s`. -/
structure SameCells (env : VmemEnv) (s s' : Vmem) : Prop where
  inv : TableInv env s'
  pml4 : s'.pml4 = s.pml4
  cell : ∀ q j, q.length ≤ 3 → s'.cell q j = s.cell q j

/-- `s'` has the same cells as `s`, but there is a table below the entry `i` of `p`. -/
structure Grown (env : VmemEnv) (s s' : Vmem) (p : List (Fin 512)) (i : Fin 512) : Prop where
  inv : TableInv env s'
  pml4 : s'.pml4 = s.pml4
  cell : ∀ q j, q.length ≤ 3 → ¬(q = p ∧ j = i) → s'.cell q j = s.cell q j
  below : ∃ g, s'.table (i :: p) = some g

theorem TableInv.fresh (h : TableInv env s) (hs : TableSupply env) {g : Nat}
    (hg : env.kmallocAlign s.tables = some (4096 * g)) (q : List (Fin 512)) (hq : q.length ≤ 3) :
    s.table q ≠ some g := by
  intro hq'
  obtain ⟨k, hk, hgk⟩ := h.supply q g hq hq'
  exact absurd (hs.inj k _ _ hgk hg) (by omega)

theorem TableInv.countTable (h : TableInv env s) :
    SameCells env s { s with tables := s.tables + 1 } where
  inv :=
    { root := h.root
      tree := h.tree
      supply := fun p f hp hf => by
        obtain ⟨k, hk, hgk⟩ := h.supply p f hp hf
        exact ⟨k, Nat.lt_succ_of_lt hk, hgk⟩
      upper := h.upper
      directory := h.directory }
  pml4 := rfl
  cell _ _ _ := rfl

/-- A new block is no table yet, so clearing it changes no cell. -/
theorem TableInv.clearFresh (h : TableInv env s) (hs : TableSupply env) {t : Nat}
    (ht : env.kmallocAlign s.tables = some t) :
    SameCells env s (Vmem.clearTable { s with tables := s.tables + 1 } t) := by
  obtain ⟨g, -, rfl⟩ := hs.frame _ _ ht
  set s₁ := Vmem.clearTable { s with tables := s.tables + 1 } (4096 * g) with hs₁
  have hcongr : ∀ q f', q.length ≤ s.radix.depth → s.radix.table (cells s.mem) q = some f' →
      cells s₁.mem f' = cells s.mem f' := by
    intro q f' hq hf'
    have hne : f' ≠ g := by
      rintro rfl
      exact h.fresh hs ht q hq hf'
    rw [hs₁, cells_clearTable]
    funext j
    exact if_neg hne
  have hcell : ∀ q j, q.length ≤ 3 → s₁.cell q j = s.cell q j := fun q j hq =>
    Radix.cell_congr hcongr hq
  refine ⟨⟨h.root, h.tree.congr hcongr, fun q f' hq hf' => ?_, fun q j hq => ?_, fun q j hq => ?_⟩,
    rfl, hcell⟩
  · obtain ⟨k, hk, hgk⟩ := h.supply q f' hq ((Radix.table_congr hcongr hq).symm.trans hf')
    exact ⟨k, Nat.lt_succ_of_lt hk, hgk⟩
  · rw [hcell q j (by omega)]
    exact h.upper q j hq
  · rw [hcell q j (by omega)]
    exact h.directory q j hq

/-- What a new table does to the tables on paths of length `n`, if it is none of them. -/
theorem Vmem.newTable_spec {n g : Nat} (htree : (s.radix.upTo n).IsTree (cells s.mem))
    (hfresh : ∀ q, q.length ≤ n → s.table q ≠ some g) (hg : g < 2 ^ 40) (hp : p.length < n)
    (hf : s.table p = some f) (hzero : s.cell p i = 0) {s₁ s₂ : Vmem}
    (hs₁ : s₁ = Vmem.clearTable { s with tables := s.tables + 1 } (4096 * g))
    (hs₂ : s₂ = s₁.setEntry (4096 * f + 8 * i.val)
      (fillEntry (s₁.mem (4096 * f + 8 * i.val)) (4096 * g))) :
    (s₂.radix.upTo n).IsTree (cells s₂.mem) ∧
      (∀ q, q.length ≤ n → s₂.table q = if q = i :: p then some g else s.table q) ∧
      ∀ q j, q.length ≤ n →
        s₂.cell q j = if q = p ∧ j = i then fillEntry 0 (4096 * g) else s.cell q j := by
  set X := s.radix.upTo n with hX
  -- clearing the new table does not touch the tree
  have hcongr : ∀ (q : List (Fin 512)) f', q.length ≤ X.depth →
      X.table (cells s.mem) q = some f' → cells s₁.mem f' = cells s.mem f' := by
    intro q f' hq hf'
    have hne : f' ≠ g := by
      rintro rfl
      rw [hX, Radix.table_upTo] at hf'
      exact hfresh q hq hf'
    rw [hs₁, cells_clearTable]
    funext j
    exact if_neg hne
  have htree₁ : X.IsTree (cells s₁.mem) := htree.congr hcongr
  have htable₁ : ∀ q, q.length ≤ n → X.table (cells s₁.mem) q = s.table q := fun q hq =>
    (Radix.table_congr hcongr hq).trans (Radix.table_upTo _ _ _ _)
  have hcell₁ : ∀ q j, q.length ≤ n → X.cell (cells s₁.mem) q j = s.cell q j := fun q j hq =>
    (Radix.cell_congr hcongr hq).trans (Radix.cell_upTo _ _ _ _ _)
  have hf₁ : X.table (cells s₁.mem) p = some f := by rw [htable₁ p hp.le, hf]
  have hzero₁ : cells s₁.mem f i = 0 := by
    rw [← Radix.cell_of_table hf₁, hcell₁ p i hp.le, hzero]
  have hentry : s₁.mem (4096 * f + 8 * i.val) = 0 := hzero₁
  have hmem : cells s₂.mem = Radix.write (cells s₁.mem) f i (fillEntry 0 (4096 * g)) := by
    rw [hs₂, hentry]
    exact cells_update _ _ _ _
  have hnone : X.next (cells s₁.mem f i) = none := by
    rw [hzero₁]
    exact nextTable_zero
  have hnext : X.next (fillEntry 0 (4096 * g)) = some g := nextTable_fillEntry hg
  have hfresh₁ : ∀ q, q.length ≤ X.depth → X.table (cells s₁.mem) q ≠ some g := by
    intro q hq
    rw [htable₁ q hq]
    exact hfresh q hq
  have hblank : ∀ j, cells s₁.mem g j = X.blank := by
    intro j
    rw [hs₁, cells_clearTable]
    exact if_pos rfl
  have hend : X.next X.blank = none := by
    simp only [hX, Radix.upTo, Vmem.radix]
    exact nextTable_zero
  have hroot : s₂.radix.upTo n = X := by
    rw [hs₂, hs₁]
    rfl
  refine ⟨?_, fun q hq => ?_, fun q j hq => ?_⟩
  · rw [hroot, hmem]
    exact htree₁.grow hp hf₁ hnone hnext hfresh₁ hblank hend
  · rw [Vmem.table, ← Radix.table_upTo _ _ n, hroot, hmem, ← htable₁ q hq]
    exact htree₁.table_grow hp hf₁ hnone hnext hfresh₁ hblank hend hq
  · rw [Vmem.cell, ← Radix.cell_upTo _ _ n, hroot, hmem, ← hcell₁ q j hq]
    exact htree₁.cell_grow hp hf₁ hnone hnext hfresh₁ hblank hend hq

/-- The step of `make_entry` that makes a missing table. -/
theorem TableInv.newTable (h : TableInv env s) (hs : TableSupply env) (hp : p.length ≤ 2)
    (hf : s.table p = some f) (hzero : s.cell p i = 0) {t : Nat}
    (ht : env.kmallocAlign s.tables = some t) :
    Grown env s (Vmem.setEntry (Vmem.clearTable { s with tables := s.tables + 1 } t)
      (4096 * f + 8 * i.val)
      (fillEntry ((Vmem.clearTable { s with tables := s.tables + 1 } t).mem (4096 * f + 8 * i.val)) t))
      p i := by
  obtain ⟨g, hg, rfl⟩ := hs.frame _ _ ht
  obtain ⟨htree, htable, hcell⟩ := Vmem.newTable_spec (n := 3) h.tree (h.fresh hs ht) hg
    (Nat.lt_succ_of_le hp) hf hzero rfl rfl
  have hsome : (nextTable (fillEntry 0 (4096 * g))).isSome := by
    rw [nextTable_fillEntry hg]
    rfl
  refine ⟨⟨h.root, htree, ?_, ?_, ?_⟩, rfl, ?_, ⟨g, ?_⟩⟩
  · intro q f' hq hf'
    rw [htable q hq] at hf'
    split at hf'
    · obtain rfl := Option.some.inj hf'
      exact ⟨s.tables, Nat.lt_succ_self _, ht⟩
    · obtain ⟨k, hk, hgk⟩ := h.supply q f' hq hf'
      exact ⟨k, Nat.lt_succ_of_lt hk, hgk⟩
  · intro q j hq
    rw [hcell q j (by omega)]
    split
    · exact .inr hsome
    · exact h.upper q j hq
  · intro q j hq
    rw [hcell q j (by omega)]
    split
    · exact .inr (.inl hsome)
    · exact h.directory q j hq
  · intro q j hq hne
    rw [hcell q j hq, if_neg hne]
  · rw [htable _ (by rw [List.length_cons]; omega), if_pos rfl]

/-- A level of `make_entry` that goes on: the table was made, or it was there. -/
structure Made (env : VmemEnv) (s s' : Vmem) (p : List (Fin 512)) (i : Fin 512) : Prop extends
    Grown env s s' p i where
  made : s.cell p i = 0 ∨ s' = s

/-- A level of `make_entry` that gives up. -/
structure Refused (env : VmemEnv) (s s' : Vmem) (p : List (Fin 512)) (i : Fin 512) : Prop extends
    SameCells env s s' where
  missing : s.cell p i = 0

theorem withTable_spec (h : TableInv env s) (hs : TableSupply env) (hp : p.length ≤ 2)
    (hf : s.table p = some f) (hcell : s.cell p i = 0 ∨ (nextTable (s.cell p i)).isSome)
    (next : Vmem → Vmem × Option Nat) :
    (∃ s', withTable env (4096 * f + 8 * i.val) s next = next s' ∧ Made env s s' p i) ∨
      ∃ s', withTable env (4096 * f + 8 * i.val) s next = (s', none) ∧ Refused env s s' p i := by
  unfold withTable
  rw [← Vmem.cell_of_table hf]
  rcases hcell with hzero | hsome
  · rw [hzero, has_zero]
    cases ht : env.kmallocAlign s.tables with
    | none => exact .inr ⟨_, rfl, h.countTable, hzero⟩
    | some t => exact .inl ⟨_, rfl, h.newTable hs hp hf hzero ht, .inl hzero⟩
  · obtain ⟨g, hg⟩ := Option.isSome_iff_exists.mp hsome
    rw [(nextTable_eq_some.mp hg).1, if_pos rfl]
    refine .inl ⟨s, rfl, ⟨h, rfl, fun _ _ _ _ => rfl, g, ?_⟩, .inr rfl⟩
    rw [Vmem.table_cons_of_some hf, hg]

/-- The entries over an address, from the root to its directory. -/
def region (v : Nat) : List (Fin 512) := [index v 21, index v 30, index v 39]

def page (v : Nat) : List (Fin 512) := index v 12 :: region v

/-- Only the entries over `v` may differ, and no page-size bit was set. -/
structure Opened (env : VmemEnv) (s s' : Vmem) (v : Nat) : Prop where
  inv : TableInv env s'
  pml4 : s'.pml4 = s.pml4
  cell : ∀ q j, q.length ≤ 3 → ¬(j :: q) <:+ region v → s'.cell q j = s.cell q j
  pde : has (s.pdeAt v) pflagPsize = false → has (s'.pdeAt v) pflagPsize = false

namespace Opened

theorem pteAt (h : Opened env s s' v) (w : Nat) : s'.pteAt w = s.pteAt w := by
  refine h.cell _ _ le_rfl fun hsuf => ?_
  have hlen := hsuf.length_le
  simp [region] at hlen

theorem pdeAt (h : Opened env s s' v) (hw : region w ≠ region v) : s'.pdeAt w = s.pdeAt w := by
  refine h.cell _ _ (by simp) fun hsuf => hw ?_
  exact hsuf.eq_of_length rfl

end Opened

theorem SameCells.opened (h : SameCells env s s') (v : Nat) : Opened env s s' v :=
  ⟨h.inv, h.pml4, fun q j hq _ => h.cell q j hq, fun hpde => by rwa [Vmem.pdeAt, h.cell _ _ (by simp)]⟩

theorem table_of_cells (hpml4 : s'.pml4 = s.pml4)
    (hcell : ∀ q j, (j :: q) <:+ p → s'.cell q j = s.cell q j) : s'.table p = s.table p := by
  induction p with
  | nil => simp [Vmem.table, Vmem.radix, hpml4]
  | cons i p ih =>
      have hp := ih fun q j hq => hcell q j (hq.trans (List.suffix_cons i p))
      cases hf : s.table p with
      | none => rw [Vmem.table_cons_of_none hf, Vmem.table_cons_of_none (hp.trans hf)]
      | some f =>
          rw [Vmem.table_cons_of_some hf, Vmem.table_cons_of_some (hp.trans hf),
            hcell p i (List.suffix_refl _)]

theorem Grown.table_self (h : Grown env s s' p i) (hp : p.length ≤ 3) : s'.table p = s.table p := by
  refine table_of_cells h.pml4 fun q j hq => h.cell q j ?_ ?_
  · have hlen := hq.length_le
    rw [List.length_cons] at hlen
    omega
  · rintro ⟨rfl, rfl⟩
    have hlen := hq.length_le
    rw [List.length_cons] at hlen
    omega

/-- The address of the entry below the one at `4096 * f + 8 * i`. -/
theorem Vmem.below_eq (hf : s.table p = some f) (hg : s.table (i :: p) = some w) :
    s.mem (4096 * f + 8 * i.val) / 4096 % 2 ^ 40 = w := by
  rw [Vmem.table_cons_of_some hf, Vmem.cell_of_table hf] at hg
  exact (nextTable_eq_some.mp hg).2.2

/-- The two upper levels of `make_entry`: both tables are there, or one cannot be made. -/
theorem makeEntry_levels (h : TableInv env s) (hs : TableSupply env) (v size : Nat) :
    (∃ s₁ s₂ f, Made env s s₁ [] (index v 39) ∧ Made env s₁ s₂ [index v 39] (index v 30) ∧
      s₂.table [index v 30, index v 39] = some f ∧
      makeEntry env s v size = makeEntryAt env v size (4096 * f + 8 * (index v 21).val) s₂) ∨
    (∃ s₁, Refused env s s₁ [] (index v 39) ∧ makeEntry env s v size = (s₁, none)) ∨
    ∃ s₁ s₂, Made env s s₁ [] (index v 39) ∧ Refused env s₁ s₂ [index v 39] (index v 30) ∧
      makeEntry env s v size = (s₂, none) := by
  unfold makeEntry
  rw [Vmem.getPml4e, h.getPml4e_eq]
  rcases withTable_spec (p := []) (i := index v 39) h hs (Nat.zero_le 2) (TableInv.table_root s)
    (h.upper [] _ (Nat.zero_le 1)) _ with ⟨s₁, hcall, hgrown⟩ | ⟨s₁, hcall, hsame⟩
  swap
  · exact .inr (.inl ⟨s₁, hsame, hcall⟩)
  rw [hcall]
  obtain ⟨f₃, hf₃⟩ := hgrown.below
  rw [getPdpte_eq, Vmem.getPml4e, hgrown.inv.getPml4e_eq, Vmem.below_eq (TableInv.table_root s₁) hf₃]
  rcases withTable_spec (i := index v 30) hgrown.inv hs (show [index v 39].length ≤ 2 by simp) hf₃
    (hgrown.inv.upper _ _ le_rfl) _ with ⟨s₂, hcall₂, hgrown₂⟩ | ⟨s₂, hcall₂, hsame₂⟩
  swap
  · exact .inr (.inr ⟨s₁, s₂, hgrown, hsame₂, hcall₂⟩)
  rw [hcall₂]
  obtain ⟨f₂, hf₂⟩ := hgrown₂.below
  have hf₃' := (hgrown₂.table_self (by simp)).trans hf₃
  exact .inl ⟨s₁, s₂, f₂, hgrown, hgrown₂, hf₂, by rw [getPde_eq, Vmem.below_eq hf₃' hf₂]⟩

theorem Grown.pdeAt (h : Grown env s s' p i) (hp : p.length ≤ 1) (w : Nat) :
    s'.pdeAt w = s.pdeAt w := by
  apply h.cell _ _ (by simp)
  rintro ⟨rfl, -⟩
  exact absurd hp (by simp)

theorem Grown.opened (h : Grown env s s' p i) (hp : p.length ≤ 1) (hv : i :: p <:+ region v) :
    Opened env s s' v where
  inv := h.inv
  pml4 := h.pml4
  cell q j hq hne := by
    apply h.cell q j hq
    rintro ⟨rfl, rfl⟩
    exact hne hv
  pde hpde := by rwa [h.pdeAt hp]

theorem Opened.trans {s'' : Vmem} (h : Opened env s s' v) (h' : Opened env s' s'' v) :
    Opened env s s'' v where
  inv := h'.inv
  pml4 := h'.pml4.trans h.pml4
  cell q j hq hne := (h'.cell q j hq hne).trans (h.cell q j hq hne)
  pde hpde := h'.pde (h.pde hpde)

theorem makeEntry_upper (h : TableInv env s) (hs : TableSupply env) (v size : Nat) :
    (∃ s' f, makeEntry env s v size = makeEntryAt env v size (4096 * f + 8 * (index v 21).val) s' ∧
      s'.table [index v 30, index v 39] = some f ∧ Opened env s s' v ∧
      s'.pdeAt v = s.pdeAt v) ∨
    ∃ s', makeEntry env s v size = (s', none) ∧ Opened env s s' v := by
  have htop : [index v 39] <:+ region v := ⟨[index v 21, index v 30], rfl⟩
  have hdir : [index v 30, index v 39] <:+ region v := ⟨[index v 21], rfl⟩
  rcases makeEntry_levels h hs v size with
    ⟨s₁, s₂, f, hgrown, hgrown₂, hf, hcall⟩ | ⟨s₁, hsame, hcall⟩ | ⟨s₁, s₂, hgrown, hsame, hcall⟩
  · have hopened := (hgrown.opened (Nat.zero_le 1) htop).trans (hgrown₂.opened le_rfl hdir)
    have hpde := (hgrown₂.pdeAt le_rfl v).trans (hgrown.pdeAt (Nat.zero_le 1) v)
    exact .inl ⟨s₂, f, hcall, hf, hopened, hpde⟩
  · exact .inr ⟨s₁, hcall, hsame.opened v⟩
  · exact .inr ⟨s₂, hcall, (hgrown.opened (Nat.zero_le 1) htop).trans (hsame.opened v)⟩

theorem TableInv.setLeaf (h : TableInv env s) (hp : p.length = 3) (hf : s.table p = some f)
    (e : Nat) :
    TableInv env (s.setEntry (4096 * f + 8 * i.val) e) ∧
      ∀ q j, q.length ≤ 3 → (s.setEntry (4096 * f + 8 * i.val) e).cell q j =
        if q = p ∧ j = i then e else s.cell q j := by
  have hmem : cells (s.setEntry (4096 * f + 8 * i.val) e).mem = Radix.write (cells s.mem) f i e :=
    cells_update s.mem f i e
  have htable : ∀ q, q.length ≤ 3 → (s.setEntry (4096 * f + 8 * i.val) e).table q = s.table q := by
    intro q hq
    rw [Vmem.table, hmem]
    exact h.tree.table_write (hp.le) hf (.inr hp) hq
  have hcell : ∀ q j, q.length ≤ 3 → (s.setEntry (4096 * f + 8 * i.val) e).cell q j =
      if q = p ∧ j = i then e else s.cell q j := by
    intro q j hq
    rw [Vmem.cell, hmem]
    exact h.tree.cell_write hp.le hf (.inr hp) hq
  have hshort : ∀ q j, q.length ≤ 2 → (s.setEntry (4096 * f + 8 * i.val) e).cell q j = s.cell q j := by
    intro q j hq
    rw [hcell q j (by omega), if_neg]
    rintro ⟨rfl, -⟩
    omega
  refine ⟨⟨h.root, ?_, ?_, ?_, ?_⟩, hcell⟩
  · rw [hmem]
    exact h.tree.write hp.le hf (.inr hp)
  · intro q f' hq hf'
    rw [htable q hq] at hf'
    exact h.supply q f' hq hf'
  · intro q j hq
    rw [hshort q j (by omega)]
    exact h.upper q j hq
  · intro q j hq
    rw [hshort q j hq.le]
    exact h.directory q j hq

/-- A directory entry becomes, or remains, one of a 2 MiB page. -/
theorem TableInv.setDirectory (h : TableInv env s) (hp : p.length = 2) (hf : s.table p = some f)
    (he : has e pflagPsize = true) :
    TableInv env (s.setEntry (4096 * f + 8 * i.val) e) ∧
      ∀ q j, q.length ≤ 3 → (s.setEntry (4096 * f + 8 * i.val) e).cell q j =
        if q = p ∧ j = i then e else if (i :: p) <:+ q then 0 else s.cell q j := by
  have hmem : cells (s.setEntry (4096 * f + 8 * i.val) e).mem = Radix.write (cells s.mem) f i e :=
    cells_update s.mem f i e
  have hdepth : p.length ≤ s.radix.depth := by
    rw [hp]
    exact Nat.le_succ 2
  have hnone : s.radix.next e = none := by
    refine Option.eq_none_iff_forall_ne_some.mpr fun g hg => ?_
    rw [(nextTable_eq_some.mp hg).2.1] at he
    cases he
  have hcell : ∀ q j, q.length ≤ 3 → (s.setEntry (4096 * f + 8 * i.val) e).cell q j =
      if q = p ∧ j = i then e else if (i :: p) <:+ q then 0 else s.cell q j := by
    intro q j hq
    rw [Vmem.cell, hmem]
    exact h.tree.cell_cut hdepth hf hnone hq
  have hlong : ∀ q : List (Fin 512), q.length ≤ 2 → ¬(i :: p) <:+ q := by
    intro q hq hsuf
    have hlen := hsuf.length_le
    rw [List.length_cons] at hlen
    omega
  refine ⟨⟨h.root, ?_, ?_, ?_, ?_⟩, hcell⟩
  · rw [hmem]
    exact h.tree.cut hdepth hf hnone
  · intro q f' hq hf'
    rw [Vmem.table, hmem] at hf'
    have hcut := h.tree.table_cut (i := i) hdepth hf hnone hq
    rw [show (s.setEntry (4096 * f + 8 * i.val) e).radix = s.radix from rfl, hcut] at hf'
    split at hf'
    · cases hf'
    · exact h.supply q f' hq hf'
  · intro q j hq
    rw [hcell q j (by omega), if_neg (by rintro ⟨rfl, -⟩; omega), if_neg (hlong q (by omega))]
    exact h.upper q j hq
  · intro q j hq
    rw [hcell q j (by omega), if_neg (hlong q hq.le)]
    split
    · exact .inr (.inr he)
    · exact h.directory q j hq

theorem page_eq_iff : page w = page v ↔ region w = region v ∧ index w 12 = index v 12 := by
  rw [page, page, List.cons.injEq, and_comm]

/-- What `MAP_PAGE` does when the directory entry has no page-size bit. -/
theorem mapPage_small (h : TableInv env s) (hs : TableSupply env)
    (hsmall : has (s.pdeAt v) pflagPsize = false) (paddr : Nat) :
    Opened env s (mapPage env s pageSize v paddr).1 v ∧
      (mapPage env s pageSize v paddr).2 ≠ 0 ∨
    ∃ s₁, Opened env s s₁ v ∧ (mapPage env s pageSize v paddr).2 = 0 ∧
      TableInv env (mapPage env s pageSize v paddr).1 ∧
      (nextTable (s₁.pdeAt v)).isSome ∧ has (s.pteAt v) pflagPresent = false ∧
      (mapPage env s pageSize v paddr).1.pml4 = s.pml4 ∧
      ∀ q j, q.length ≤ 3 → (mapPage env s pageSize v paddr).1.cell q j =
        if q = region v ∧ j = index v 12 then fillEntry (s.pteAt v) paddr else s₁.cell q j := by
  unfold mapPage
  rcases makeEntry_upper h hs v pageSize with ⟨s₁, f₂, hcall, hf₂, hop, hpde⟩ | ⟨s₁, hcall, hop⟩
  swap
  · rw [hcall]
    exact .inl ⟨hop, show vmemErrNospace ≠ 0 by decide⟩
  rw [hcall, makeEntryAt, if_neg (show pageSize ≠ pageSize2 by decide)]
  have hentry : s₁.cell [index v 30, index v 39] (index v 21) = 0 ∨
      (nextTable (s₁.cell [index v 30, index v 39] (index v 21))).isSome := by
    rcases hop.inv.directory [index v 30, index v 39] (index v 21) rfl with hd | hd | hd
    · exact .inl hd
    · exact .inr hd
    · change has (s₁.pdeAt v) pflagPsize = true at hd
      rw [hpde, hsmall] at hd
      cases hd
  rcases withTable_spec hop.inv hs (show [index v 30, index v 39].length ≤ 2 by simp) hf₂ hentry _
    with ⟨s₂, hcall₂, hgrown⟩ | ⟨s₂, hcall₂, hsame⟩
  swap
  · rw [hcall₂]
    exact .inl ⟨hop.trans (hsame.opened v), show vmemErrNospace ≠ 0 by decide⟩
  rw [hcall₂]
  obtain ⟨f₁, hf₁⟩ := hgrown.below
  have hf₂' := (hgrown.table_self (by simp)).trans hf₂
  have hsome : (nextTable (s₂.pdeAt v)).isSome := by
    rw [Vmem.table_cons_of_some hf₂'] at hf₁
    exact Option.isSome_iff_exists.mpr ⟨f₁, hf₁⟩
  have hop₂ : Opened env s s₂ v := by
    refine ⟨hgrown.inv, hgrown.pml4.trans hop.pml4, fun q j hq hne => ?_, fun _ => ?_⟩
    · rw [hgrown.cell q j hq (by rintro ⟨rfl, rfl⟩; exact hne (List.suffix_refl _)),
        hop.cell q j hq hne]
    · obtain ⟨g, hg⟩ := Option.isSome_iff_exists.mp hsome
      exact (nextTable_eq_some.mp hg).2.1
  have hpte : s₂.mem (4096 * f₁ + 8 * (index v 12).val) = s.pteAt v := by
    rw [← Vmem.cell_of_table hf₁]
    exact hop₂.pteAt v
  simp only [getPte_eq, Vmem.below_eq hf₂' hf₁, hpte]
  cases hpresent : has (s.pteAt v) pflagPresent with
  | true => exact .inl ⟨hop₂, show vmemErrVirtOccupied ≠ 0 by decide⟩
  | false =>
      obtain ⟨hinv, hcell⟩ := hgrown.inv.setLeaf (i := index v 12) rfl hf₁ (fillEntry (s.pteAt v) paddr)
      exact .inr ⟨s₂, hop₂, rfl, hinv, hsome, rfl, hop₂.pml4, hcell⟩

/-- `MAP_PAGE` that fails at a directory entry with the page-size bit leaves the tables a tree. -/
theorem mapPage_fails_inv (h : TableInv env s) (hs : TableSupply env)
    (hpsize : has (s.pdeAt v) pflagPsize = true) {a : Nat}
    (hfail : (mapPage env s pageSize v a).2 ≠ 0) :
    TableInv env (mapPage env s pageSize v a).1 := by
  unfold mapPage at hfail ⊢
  rcases makeEntry_upper h hs v pageSize with ⟨s₁, f, hcall, hf, hop, hpde⟩ | ⟨s₁, hcall, hop⟩
  swap
  · rw [hcall]
    exact hop.inv
  rw [hcall, makeEntryAt, if_neg (show pageSize ≠ pageSize2 by decide)] at hfail ⊢
  have hold : s₁.cell [index v 30, index v 39] (index v 21) = s.pdeAt v := hpde
  unfold withTable at hfail ⊢
  by_cases hpresent : has (s₁.mem (4096 * f + 8 * (index v 21).val)) pflagPresent = true
  · -- the data of the 2 MiB page is read as a page table
    rw [if_pos hpresent] at hfail ⊢
    dsimp only at hfail ⊢
    split at hfail
    · next hword =>
        rw [if_pos hword]
        exact hop.inv
    · exact absurd rfl hfail
  · rw [if_neg hpresent] at hfail ⊢
    cases ht : env.kmallocAlign s₁.tables with
    | none => exact hop.inv.countTable.inv
    | some t =>
        -- the new table is put behind what an earlier 2 MiB page left
        obtain ⟨g, -, hg⟩ := hs.frame _ _ ht
        have hclear := hop.inv.clearFresh hs ht
        set s₂ := Vmem.clearTable { s₁ with tables := s₁.tables + 1 } t with hs₂
        have hf₂ : s₂.table [index v 30, index v 39] = some f := by
          rw [table_of_cells hclear.pml4 fun q j hq => hclear.cell q j ?_, hf]
          have hlen := hq.length_le
          simp only [List.length_cons, List.length_nil] at hlen
          omega
        have hentry : s₂.mem (4096 * f + 8 * (index v 21).val) = s.pdeAt v := by
          rw [← Vmem.cell_of_table hf₂, hclear.cell _ _ (by simp), hold]
        have hinv := (hclear.inv.setDirectory (i := index v 21) rfl hf₂
          (psize_fillEntry_of_psize hpsize t)).1
        rw [← hentry] at hinv
        simp only [ht] at hfail ⊢
        split at hfail
        · next hword =>
            rw [if_pos hword]
            exact hinv
        · exact absurd rfl hfail

/-- What `MAP_PAGE2` does. -/
theorem mapPage_large (h : TableInv env s) (hs : TableSupply env) (v paddr : Nat) :
    (mapPage env s pageSize2 v paddr).1.pml4 = s.pml4 ∧
      TableInv env (mapPage env s pageSize2 v paddr).1 ∧
      (∀ w, region w ≠ region v →
        (mapPage env s pageSize2 v paddr).1.pdeAt w = s.pdeAt w ∧
        (mapPage env s pageSize2 v paddr).1.pteAt w = s.pteAt w) ∧
      ((mapPage env s pageSize2 v paddr).2 = 0 → has (s.pdeAt v) pflagPresent = false ∧
        (mapPage env s pageSize2 v paddr).1.pdeAt v = fillEntry (s.pdeAt v ||| pflagPsize) paddr) := by
  unfold mapPage
  rcases makeEntry_upper h hs v pageSize2 with ⟨s₁, f₂, hcall, hf₂, hop, hpde⟩ | ⟨s₁, hcall, hop⟩
  swap
  · rw [hcall]
    refine ⟨hop.pml4, hop.inv, fun w hw => ⟨hop.pdeAt hw, hop.pteAt w⟩, fun hret => ?_⟩
    exact absurd hret (show vmemErrNospace ≠ 0 by decide)
  rw [hcall, makeEntryAt, if_pos rfl]
  have hold : s₁.mem (4096 * f₂ + 8 * (index v 21).val) = s.pdeAt v := by
    rw [← Vmem.cell_of_table hf₂, ← hpde]
    rfl
  rw [hold]
  obtain ⟨hinv, hcell⟩ := hop.inv.setDirectory (i := index v 21) rfl hf₂ (psize_or (s.pdeAt v))
  set s₂ := s₁.setEntry (4096 * f₂ + 8 * (index v 21).val) (s.pdeAt v ||| pflagPsize) with hs₂
  have hnew : s₂.mem (4096 * f₂ + 8 * (index v 21).val) = s.pdeAt v ||| pflagPsize := by
    simp [hs₂, Vmem.setEntry]
  have hother : ∀ {w}, region w ≠ region v → ∀ {s'' : Vmem} {e : Nat},
      (∀ q j, q.length ≤ 3 → s''.cell q j = if q = [index v 30, index v 39] ∧ j = index v 21 then e
        else if region v <:+ q then 0 else s₁.cell q j) →
      s''.pdeAt w = s.pdeAt w ∧ s''.pteAt w = s.pteAt w := by
    intro w hw s'' e hcell
    constructor
    · rw [Vmem.pdeAt, hcell _ _ (by simp), if_neg, if_neg, ← hop.pdeAt hw, Vmem.pdeAt]
      · intro hsuf
        have hlen := hsuf.length_le
        simp [region] at hlen
      · rintro ⟨h₁, h₂⟩
        exact hw (by rw [region, h₁, h₂, region])
    · rw [Vmem.pteAt, hcell _ _ le_rfl, if_neg, if_neg, ← hop.pteAt w, Vmem.pteAt]
      · exact fun hsuf => hw (hsuf.eq_of_length rfl).symm
      · rintro ⟨h₁, -⟩
        simpa using congrArg List.length h₁
  simp only [hnew]
  cases hpresent : has (s.pdeAt v ||| pflagPsize) pflagPresent with
  | true =>
      refine ⟨hop.pml4, hinv, fun w hw => hother hw hcell, fun hret => ?_⟩
      exact absurd hret (show vmemErrVirtOccupied ≠ 0 by decide)
  | false =>
      have hpsize := psize_fillEntry_of_psize (psize_or (s.pdeAt v)) paddr
      have hover : s₂.setEntry (4096 * f₂ + 8 * (index v 21).val)
          (fillEntry (s.pdeAt v ||| pflagPsize) paddr) =
          s₁.setEntry (4096 * f₂ + 8 * (index v 21).val)
            (fillEntry (s.pdeAt v ||| pflagPsize) paddr) := by
        simp [hs₂, Vmem.setEntry]
      obtain ⟨hinv', hcell'⟩ := hop.inv.setDirectory (i := index v 21) rfl hf₂ hpsize
      simp only [Bool.false_eq_true, if_false, hover]
      refine ⟨hop.pml4, hinv', fun w hw => hother hw hcell', fun _ => ⟨?_, ?_⟩⟩
      · rwa [present_or_psize] at hpresent
      · rw [Vmem.pdeAt, hcell' _ _ (by simp), if_pos ⟨rfl, rfl⟩]

section Walk

theorem region_of_page (h : page w = page v) : region w = region v := (page_eq_iff.mp h).1

theorem pdeAt_congr (s : Vmem) (h : region w = region v) : s.pdeAt w = s.pdeAt v := by
  simp only [region, List.cons.injEq, and_true] at h
  rw [Vmem.pdeAt, Vmem.pdeAt, h.1, h.2.1, h.2.2]

theorem pteAt_of_none (h : nextTable (s.pdeAt w) = none) : s.pteAt w = 0 := by
  cases hf : s.table [index w 30, index w 39] with
  | none => exact Vmem.cell_of_none (Vmem.table_cons_of_none hf)
  | some f => exact Vmem.cell_of_none ((Vmem.table_cons_of_some hf).trans h)

/-- The entries that `MAP_PAGE` leaves as they were. -/
theorem mapPage_small_others (h : TableInv env s) (hs : TableSupply env)
    (hsmall : has (s.pdeAt v) pflagPsize = false)
    (hret : (mapPage env s pageSize v paddr).2 = 0) :
    TableInv env (mapPage env s pageSize v paddr).1 ∧
      (∀ w, page w ≠ page v → (mapPage env s pageSize v paddr).1.pteAt w = s.pteAt w) ∧
      (∀ w, region w ≠ region v → (mapPage env s pageSize v paddr).1.pdeAt w = s.pdeAt w) ∧
      ∀ w, has (s.pdeAt w) pflagPsize = false →
        has ((mapPage env s pageSize v paddr).1.pdeAt w) pflagPsize = false := by
  rcases mapPage_small h hs hsmall paddr with ⟨-, hne⟩ | ⟨s₁, hop, -, hinv, hsome, -, -, hcell⟩
  · exact absurd hret hne
  have hpde : ∀ w, (mapPage env s pageSize v paddr).1.pdeAt w = s₁.pdeAt w := by
    intro w
    rw [Vmem.pdeAt, hcell _ _ (by simp), if_neg]
    · rfl
    · rintro ⟨hlen, -⟩
      simpa [region] using congrArg List.length hlen
  refine ⟨hinv, fun w hw => ?_, fun w hw => ?_, fun w hw => ?_⟩
  · rw [Vmem.pteAt, hcell _ _ le_rfl, if_neg, ← hop.pteAt w, Vmem.pteAt]
    exact fun heq => hw (page_eq_iff.mpr heq)
  · rw [hpde, hop.pdeAt hw]
  · rw [hpde]
    by_cases hregion : region w = region v
    · obtain ⟨g, hg⟩ := Option.isSome_iff_exists.mp hsome
      rw [pdeAt_congr s₁ hregion]
      exact (nextTable_eq_some.mp hg).2.1
    · rwa [hop.pdeAt hregion]

/-- After `MAP_PAGE` the page is mapped by its entry, and no other page has changed. -/
theorem walk_mapPage_small (h : TableInv env s) (hs : TableSupply env)
    (hsmall : has (s.pdeAt v) pflagPsize = false)
    (hret : (mapPage env s pageSize v paddr).2 = 0) (w : Nat) :
    (mapPage env s pageSize v paddr).1.translate w =
      if page w = page v then
        some ((fillEntry (s.pteAt v) paddr &&& addrMask) ||| getBits w 0 12)
      else s.translate w := by
  rcases mapPage_small h hs hsmall paddr with ⟨-, hne⟩ | ⟨s₁, hop, -, hinv, hsome, -, -, hcell⟩
  · exact absurd hret hne
  rw [Vmem.translate, Vmem.translate, walk_eq hinv, walk_eq h]
  have hpde : (mapPage env s pageSize v paddr).1.pdeAt w = s₁.pdeAt w := by
    rw [Vmem.pdeAt, hcell _ _ (by simp), if_neg]
    · rfl
    · rintro ⟨hlen, -⟩
      simpa [region] using congrArg List.length hlen
  have hpte : (mapPage env s pageSize v paddr).1.pteAt w =
      if page w = page v then fillEntry (s.pteAt v) paddr else s.pteAt w := by
    rw [Vmem.pteAt, hcell _ _ le_rfl, ← hop.pteAt w]
    exact if_congr page_eq_iff.symm rfl rfl
  rw [hpde, hpte]
  by_cases hregion : region w = region v
  · obtain ⟨g, hg⟩ := Option.isSome_iff_exists.mp hsome
    obtain ⟨hpresent, hpsize, -⟩ := nextTable_eq_some.mp hg
    rw [pdeAt_congr s₁ hregion]
    by_cases hpage : page w = page v
    · rw [if_pos hpage, if_pos hpage, walkOf, hpresent, hpsize, present_fillEntry]
      rfl
    · rw [if_neg hpage, if_neg hpage, walkOf, hpresent, hpsize, walkOf, pdeAt_congr s hregion, hsmall]
      -- where a table was made, the page was not mapped and is not mapped
      cases hold : nextTable (s.pdeAt v) with
      | some g' =>
          rw [(nextTable_eq_some.mp hold).1]
          rfl
      | none =>
          have hzero : s.pteAt w = 0 := pteAt_of_none (by rw [pdeAt_congr s hregion, hold])
          rw [hzero, has_zero]
          cases has (s.pdeAt v) pflagPresent <;> rfl
  · rw [hop.pdeAt hregion, if_neg (fun hpage => hregion (region_of_page hpage)),
      if_neg (fun hpage => hregion (region_of_page hpage))]

/-- After `MAP_PAGE2` its region is mapped by its entry, and no other page has changed. -/
theorem walk_mapPage_large (h : TableInv env s) (hs : TableSupply env)
    (hret : (mapPage env s pageSize2 v paddr).2 = 0)
    (hbits : getBits (fillEntry (s.pdeAt v ||| pflagPsize) paddr) 13 21 = 0) (w : Nat) :
    (mapPage env s pageSize2 v paddr).1.translate w =
      if region w = region v then
        some (getPdePhysaddr w (fillEntry (s.pdeAt v ||| pflagPsize) paddr))
      else s.translate w := by
  obtain ⟨-, hinv, hother, hnew⟩ := mapPage_large h hs v paddr
  rw [Vmem.translate, Vmem.translate, walk_eq hinv, walk_eq h]
  by_cases hregion : region w = region v
  · rw [if_pos hregion, pdeAt_congr _ hregion, (hnew hret).2, walkOf, present_fillEntry,
      psize_fillEntry_of_psize (psize_or _), hbits]
    rfl
  · rw [if_neg hregion, (hother w hregion).1, (hother w hregion).2]

end Walk

section Unmap

theorem TableInv.setPhys (h : TableInv env s) (a : Allocator) : TableInv env { s with phys := a } :=
  ⟨h.root, h.tree, h.supply, h.upper, h.directory⟩

/-- `get_entry` gives the entry of a 2 MiB page or one of a page table. -/
theorem getEntry_cases (h : TableInv env s) {ent : Nat} (hent : getEntry s v = some ent) :
    (∃ f, s.table [index v 30, index v 39] = some f ∧ ent = 4096 * f + 8 * (index v 21).val ∧
      has (s.pdeAt v) pflagPsize = true) ∨
    ∃ f, s.table (region v) = some f ∧ ent = 4096 * f + 8 * (index v 12).val := by
  unfold getEntry at hent
  simp only [Vmem.getPml4e, h.getPml4e_eq] at hent
  rw [← Vmem.cell_of_table (s := s) (p := []) (TableInv.table_root s)] at hent
  rcases h.upper_cases (p := []) (by decide) (TableInv.table_root s) (index v 39) with
    ⟨hzero, -⟩ | ⟨hpresent, -, hsome⟩
  · rw [hzero, has_zero] at hent
    cases hent
  rw [hpresent, getPdpte_eq, ← Vmem.cell_of_table hsome] at hent
  rcases h.upper_cases (p := [index v 39]) le_rfl hsome (index v 30) with
    ⟨hzero, -⟩ | ⟨hpresent', -, hsome'⟩
  · rw [hzero, has_zero] at hent
    cases hent
  rw [hpresent', getPde_eq, ← Vmem.cell_of_table hsome'] at hent
  cases hp : has (s.cell [index v 30, index v 39] (index v 21)) pflagPresent with
  | false =>
      rw [hp] at hent
      cases hent
  | true =>
      cases hps : has (s.cell [index v 30, index v 39] (index v 21)) pflagPsize with
      | true =>
          rw [hp, hps] at hent
          exact .inl ⟨_, hsome', (Option.some.inj hent).symm, hps⟩
      | false =>
          rw [hp, hps, getPte_eq] at hent
          refine .inr ⟨_, ?_, (Option.some.inj hent).symm⟩
          rw [region, Vmem.table_cons_of_some hsome']
          exact nextTable_eq_some.mpr ⟨hp, hps, rfl⟩

theorem psize_unset (e : Nat) :
    has (e &&& (2 ^ 64 - 1 - pflagPresent)) pflagPsize = has e pflagPsize := by
  rw [pflagPsize, has_iff, has_iff, Nat.testBit_and,
    show Nat.testBit (2 ^ 64 - 1 - pflagPresent) 7 = true by decide, Bool.and_true]

theorem TableInv.unmapPage (h : TableInv env s) {fuel : Nat} {r : Vmem × Int}
    (hret : unmapPage env fuel s size v = some r) : TableInv env r.1 := by
  unfold Vmemory.unmapPage at hret
  cases hent : getEntry s v with
  | none =>
      rw [hent] at hret
      obtain rfl := Option.some.inj hret
      exact h
  | some ent =>
      rw [hent] at hret
      obtain ⟨a, -, rfl⟩ := Option.map_eq_some_iff.mp hret
      rcases getEntry_cases h hent with ⟨f, hf, rfl, hpsize⟩ | ⟨f, hf, rfl⟩
      · refine ((h.setPhys a).setDirectory rfl hf ?_).1
        rw [psize_unset, ← Vmem.cell_of_table hf]
        exact hpsize
      · exact ((h.setPhys a).setLeaf rfl hf _).1

end Unmap

end UntitledOs.Vmemory
