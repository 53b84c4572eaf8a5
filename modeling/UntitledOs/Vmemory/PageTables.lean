import UntitledOs.Lib.Bits
import UntitledOs.Lib.RadixTree
import UntitledOs.Vmemory.Paging

/-!
# Page tables as a tree

The tables of a handle are a radix tree over the four index fields of an address.
The walk only depends on two of its cells, the directory entry and the page
table entry of an address.
-/

namespace UntitledOs.Vmemory

open UntitledOs.Lib

variable {env : VmemEnv} {s s' : Vmem} {e f v w t : Nat} {i : Fin 512} {p q : List (Fin 512)}

section Entries

theorem has_iff (e k : Nat) : has e (1 <<< k) = e.testBit k := by
  rw [Bool.eq_iff_iff, ← and_flag_ne_zero, has, bne_iff_ne]

theorem getBits_eq (x start stop : Nat) :
    getBits x start stop = x / 2 ^ start % 2 ^ (stop - start) :=
  shiftRight_and_mask x start _

theorem and_addrMask (e : Nat) : e &&& addrMask = 4096 * (e / 4096 % 2 ^ 40) :=
  and_mask e 12 40

theorem and_addrMask2 (e : Nat) : e &&& addrMask2 = 2 ^ 21 * (e / 2 ^ 21 % 2 ^ 31) :=
  and_mask e 21 31

/-- The index field of an address that starts at bit `k`. -/
def index (v k : Nat) : Fin 512 := ⟨v / 2 ^ k % 512, Nat.mod_lt _ (by decide)⟩

theorem or_index (f v k : Nat) :
    (4096 * f) ||| (getBits v k (k + 9) <<< 3) = 4096 * f + 8 * (index v k).val := by
  have hlt : 8 * (index v k).val < 2 ^ 12 := by
    have := (index v k).isLt
    omega
  rw [getBits_eq, Nat.add_sub_cancel_left, Nat.shiftLeft_eq, Nat.mul_comm _ (2 ^ 3)]
  exact or_eq_add f 12 hlt

theorem getPdpte_eq (v e : Nat) :
    getPdpte v e = 4096 * (e / 4096 % 2 ^ 40) + 8 * (index v 30).val := by
  rw [getPdpte, and_addrMask]
  exact or_index _ v 30

theorem getPde_eq (v e : Nat) :
    getPde v e = 4096 * (e / 4096 % 2 ^ 40) + 8 * (index v 21).val := by
  rw [getPde, and_addrMask]
  exact or_index _ v 21

theorem getPte_eq (v e : Nat) :
    getPte v e = 4096 * (e / 4096 % 2 ^ 40) + 8 * (index v 12).val := by
  rw [getPte, and_addrMask]
  exact or_index _ v 12

/-- The table that an entry points to, as the number of its frame. -/
def nextTable (e : Nat) : Option Nat :=
  if has e pflagPresent && !has e pflagPsize then some (e / 4096 % 2 ^ 40) else none

theorem nextTable_eq_some : nextTable e = some f ↔
    has e pflagPresent = true ∧ has e pflagPsize = false ∧ e / 4096 % 2 ^ 40 = f := by
  simp [nextTable, and_assoc]

theorem nextTable_zero : nextTable 0 = none := by decide

theorem has_zero (flag : Nat) : has 0 flag = false := by simp [has]

theorem present_fillEntry (e a : Nat) : has (fillEntry e a) pflagPresent = true := by
  rw [pflagPresent, has_iff, fillEntry, Nat.testBit_or]
  simp [pflagPresent, pflagCanwrite]

theorem psize_fillEntry (e f : Nat) :
    has (fillEntry e (4096 * f)) pflagPsize = has e pflagPsize := by
  rw [pflagPsize, has_iff, has_iff, fillEntry, Nat.testBit_or, Nat.testBit_or,
    show 4096 * f = 2 ^ 12 * f from rfl, Nat.testBit_two_pow_mul]
  have hflags : (pflagPresent ||| pflagCanwrite).testBit 7 = false := by decide
  simp [hflags]

theorem psize_or (e : Nat) : has (e ||| pflagPsize) pflagPsize = true := by
  rw [pflagPsize, has_iff, Nat.testBit_or, show (1 <<< 7).testBit 7 = true by decide, Bool.or_true]

theorem psize_fillEntry_of_psize (h : has e pflagPsize = true) (a : Nat) :
    has (fillEntry e a) pflagPsize = true := by
  rw [pflagPsize, has_iff] at h ⊢
  simp [fillEntry, Nat.testBit_or, h]

theorem present_or_psize (e : Nat) : has (e ||| pflagPsize) pflagPresent = has e pflagPresent := by
  rw [pflagPresent, has_iff, has_iff, Nat.testBit_or]
  have hflag : pflagPsize.testBit 0 = false := by decide
  simp [hflag]

theorem nextTable_fillEntry (hf : f < 2 ^ 40) : nextTable (fillEntry 0 (4096 * f)) = some f := by
  refine nextTable_eq_some.mpr ⟨present_fillEntry _ _, ?_, ?_⟩
  · rw [psize_fillEntry, has_zero]
  · have hfill : fillEntry 0 (4096 * f) = 4096 * f + 3 := by
      rw [fillEntry, Nat.zero_or]
      exact or_eq_add f 12 (by decide)
    omega

end Entries

section Tree

/-- The words of memory, by frame and index. -/
def cells (mem : Nat → Nat) (f : Nat) (i : Fin 512) : Nat := mem (4096 * f + 8 * i.val)

theorem cells_update (mem : Nat → Nat) (f : Nat) (i : Fin 512) (e : Nat) :
    cells (Function.update mem (4096 * f + 8 * i.val) e) = Radix.write (cells mem) f i e := by
  funext g j
  simp only [cells, Radix.write, Function.update_apply]
  have hi := i.isLt
  have hj := j.isLt
  have hiff : 4096 * g + 8 * j.val = 4096 * f + 8 * i.val ↔ g = f ∧ j = i := by
    rw [Fin.ext_iff]
    omega
  simp only [hiff]

theorem cells_clearTable (s : Vmem) (f : Nat) :
    cells (s.clearTable (4096 * f)).mem = fun g j => if g = f then 0 else cells s.mem g j := by
  funext g j
  simp only [cells, Vmem.clearTable]
  have hj := j.isLt
  have hiff : 4096 * f ≤ 4096 * g + 8 * j.val ∧ 4096 * g + 8 * j.val < 4096 * f + 512 * 8 ↔
      g = f := by omega
  simp only [hiff]

namespace Vmem

def radix (s : Vmem) : Radix Nat (Fin 512) Nat := ⟨nextTable, s.pml4 / 4096, 3, 0⟩

def table (s : Vmem) (p : List (Fin 512)) : Option Nat := s.radix.table (cells s.mem) p

def cell (s : Vmem) (p : List (Fin 512)) (i : Fin 512) : Nat := s.radix.cell (cells s.mem) p i

/-- The directory entry of an address. -/
def pdeAt (s : Vmem) (v : Nat) : Nat := s.cell [index v 30, index v 39] (index v 21)

/-- The page table entry of an address. -/
def pteAt (s : Vmem) (v : Nat) : Nat := s.cell [index v 21, index v 30, index v 39] (index v 12)

theorem table_cons_of_some (h : s.table p = some f) : s.table (i :: p) = nextTable (s.cell p i) :=
  Radix.table_cons_of_some h

theorem cell_of_table (h : s.table p = some f) : s.cell p i = s.mem (4096 * f + 8 * i.val) :=
  Radix.cell_of_table h

theorem cell_of_none (h : s.table p = none) : s.cell p i = 0 := Radix.cell_of_none h

theorem table_cons_of_none (h : s.table p = none) : s.table (i :: p) = none := by
  rw [table, Radix.table_cons]
  rw [table] at h
  rw [h, Option.bind_none]

end Vmem

/-- The blocks that `kmalloc_align` gives: whole frames, none of them twice. -/
structure TableSupply (env : VmemEnv) : Prop where
  frame : ∀ k t, env.kmallocAlign k = some t → ∃ f < 2 ^ 40, t = 4096 * f
  inj : ∀ j k t, env.kmallocAlign j = some t → env.kmallocAlign k = some t → j = k

/--
The tables are a tree of blocks from `kmalloc_align`, and an entry that is not
present is empty, or it was a 2 MiB page.
-/
structure TableInv (env : VmemEnv) (s : Vmem) : Prop where
  root : s.pml4 % 4096 = 0
  tree : s.radix.IsTree (cells s.mem)
  supply : ∀ p f, p.length ≤ 3 → s.table p = some f →
    ∃ k < s.tables, env.kmallocAlign k = some (4096 * f)
  upper : ∀ p i, p.length ≤ 1 → s.cell p i = 0 ∨ (nextTable (s.cell p i)).isSome
  directory : ∀ p i, p.length = 2 → s.cell p i = 0 ∨ (nextTable (s.cell p i)).isSome ∨
    has (s.cell p i) pflagPsize = true

namespace TableInv

theorem table_root (s : Vmem) : s.table [] = some (s.pml4 / 4096) := rfl

theorem getPml4e_eq (h : TableInv env s) (v : Nat) :
    s.pml4 ||| (getBits v 39 48 <<< 3) = 4096 * (s.pml4 / 4096) + 8 * (index v 39).val := by
  rw [← or_index _ v 39, Nat.mul_div_cancel' (Nat.dvd_of_mod_eq_zero h.root)]

/-- An upper entry is empty or points to the table below it. -/
theorem upper_cases (h : TableInv env s) (hp : p.length ≤ 1) (hf : s.table p = some f) (i : Fin 512) :
    (s.cell p i = 0 ∧ s.table (i :: p) = none) ∨
    (has (s.cell p i) pflagPresent = true ∧ has (s.cell p i) pflagPsize = false ∧
      s.table (i :: p) = some (s.cell p i / 4096 % 2 ^ 40)) := by
  rw [Vmem.table_cons_of_some hf]
  rcases h.upper p i hp with hzero | hsome
  · exact .inl ⟨hzero, by rw [hzero, nextTable_zero]⟩
  · obtain ⟨g, hg⟩ := Option.isSome_iff_exists.mp hsome
    obtain ⟨hpresent, hpsize, rfl⟩ := nextTable_eq_some.mp hg
    exact .inr ⟨hpresent, hpsize, hg⟩

end TableInv

/-- The walk, from the two entries of an address. -/
def walkOf (pde pte v : Nat) : Option Nat :=
  if !has pde pflagPresent then none
  else if has pde pflagPsize then
    if getBits pde 13 21 = 0 then some (getPdePhysaddr v pde) else none
  else if !has pte pflagPresent then none
  else some ((pte &&& addrMask) ||| getBits v 0 12)

/-- The walk depends on the directory entry and the page table entry only. -/
theorem walk_eq (h : TableInv env s) (v : Nat) :
    walk s.mem s.pml4 v = walkOf (s.pdeAt v) (s.pteAt v) v := by
  simp only [walk, h.getPml4e_eq]
  rw [← Vmem.cell_of_table (s := s) (p := []) (TableInv.table_root s)]
  rcases h.upper_cases (p := []) (by decide) (TableInv.table_root s) (index v 39) with
    ⟨hzero, hnone⟩ | ⟨hpresent, hpsize, hsome⟩
  · rw [hzero, has_zero, Vmem.pdeAt, Vmem.cell_of_none (Vmem.table_cons_of_none hnone), walkOf,
      has_zero]
    rfl
  rw [hpresent, hpsize, getPdpte_eq, ← Vmem.cell_of_table hsome]
  rcases h.upper_cases (p := [index v 39]) le_rfl hsome (index v 30) with
    ⟨hzero, hnone⟩ | ⟨hpresent', hpsize', hsome'⟩
  · rw [hzero, has_zero, Vmem.pdeAt, Vmem.cell_of_none hnone, walkOf, has_zero]
    rfl
  rw [hpresent', hpsize', getPde_eq, ← Vmem.cell_of_table hsome', walkOf]
  rw [Vmem.pdeAt]
  cases hp : has (s.cell [index v 30, index v 39] (index v 21)) pflagPresent with
  | false => rfl
  | true =>
      cases hps : has (s.cell [index v 30, index v 39] (index v 21)) pflagPsize with
      | true => rfl
      | false =>
          have hpt := Vmem.table_cons_of_some (i := index v 21) hsome'
          rw [nextTable_eq_some.mpr ⟨hp, hps, rfl⟩] at hpt
          rw [getPte_eq, ← Vmem.cell_of_table hpt]
          rfl

end Tree

end UntitledOs.Vmemory
