import Mathlib.Data.List.Infix

/-!
# Radix trees in memory

The memory is an array of tables, and `next` reads the table that a cell points
to.  A path is the list of the indices from the root on, the last one first.  In
a tree no table is reached on two paths, so that a write to one cell is seen on
one path only.
-/

namespace UntitledOs.Lib

variable {τ ι β : Type*}

/-- How the tables of a memory hang together. -/
structure Radix (τ ι β : Type*) where
  next : β → Option τ
  root : τ
  /-- the length of the longest path to a table -/
  depth : Nat
  /-- what a cell that is in no table reads as -/
  blank : β

namespace Radix

def table (X : Radix τ ι β) (M : τ → ι → β) : List ι → Option τ
  | [] => some X.root
  | i :: p => (X.table M p).bind fun t => X.next (M t i)

def cell (X : Radix τ ι β) (M : τ → ι → β) (p : List ι) (i : ι) : β :=
  (X.table M p).elim X.blank fun t => M t i

structure IsTree (X : Radix τ ι β) (M : τ → ι → β) : Prop where
  inj : ∀ {p q t}, p.length ≤ X.depth → q.length ≤ X.depth →
    X.table M p = some t → X.table M q = some t → p = q

def write [DecidableEq τ] [DecidableEq ι] (M : τ → ι → β) (t : τ) (i : ι) (b : β) : τ → ι → β :=
  fun t' j => if t' = t ∧ j = i then b else M t' j

variable {X : Radix τ ι β} {M M' : τ → ι → β} {p q : List ι} {t t₀ : τ} {i j : ι} {b : β}

@[simp] theorem table_nil : X.table M [] = some X.root := rfl

theorem table_cons : X.table M (i :: p) = (X.table M p).bind fun t => X.next (M t i) := rfl

theorem cell_of_table (h : X.table M p = some t) : X.cell M p i = M t i := by
  rw [cell, h, Option.elim_some]

theorem cell_of_none (h : X.table M p = none) : X.cell M p i = X.blank := by
  rw [cell, h, Option.elim_none]

theorem table_cons_of_some (h : X.table M p = some t) :
    X.table M (i :: p) = X.next (X.cell M p i) := by
  rw [table_cons, h, Option.bind_some, cell_of_table h]

/-- The same tables, followed down paths of another length. -/
def upTo (X : Radix τ ι β) (n : Nat) : Radix τ ι β := { X with depth := n }

@[simp] theorem table_upTo (X : Radix τ ι β) (M : τ → ι → β) (n : Nat) (p : List ι) :
    (X.upTo n).table M p = X.table M p := by
  induction p with
  | nil => rfl
  | cons i p ih =>
      rw [table_cons, table_cons, ih]
      rfl

@[simp] theorem cell_upTo (X : Radix τ ι β) (M : τ → ι → β) (n : Nat) (p : List ι) (i : ι) :
    (X.upTo n).cell M p i = X.cell M p i := by
  rw [cell, cell, table_upTo]
  rfl

/-- Only the tables of the tree count. -/
theorem table_congr (h : ∀ p t, p.length ≤ X.depth → X.table M p = some t → M' t = M t)
    (hq : q.length ≤ X.depth) : X.table M' q = X.table M q := by
  induction q with
  | nil => rfl
  | cons i q ih =>
      have hq' : q.length ≤ X.depth := by
        rw [List.length_cons] at hq
        omega
      rw [table_cons, table_cons, ih hq']
      cases ht : X.table M q with
      | none => rfl
      | some t => rw [Option.bind_some, Option.bind_some, h q t hq' ht]

theorem cell_congr (h : ∀ p t, p.length ≤ X.depth → X.table M p = some t → M' t = M t)
    (hq : q.length ≤ X.depth) : X.cell M' q j = X.cell M q j := by
  rw [cell, cell, table_congr h hq]
  cases ht : X.table M q with
  | none => rfl
  | some t => rw [Option.elim_some, Option.elim_some, h q t hq ht]

theorem IsTree.congr (hM : X.IsTree M)
    (h : ∀ p t, p.length ≤ X.depth → X.table M p = some t → M' t = M t) : X.IsTree M' where
  inj hp hq ht ht' := hM.inj hp hq (table_congr h hp ▸ ht) (table_congr h hq ▸ ht')

/-- The written cell lies on the one path to its table. -/
theorem IsTree.cell_iff (hM : X.IsTree M) (hp : p.length ≤ X.depth) (ht : X.table M p = some t)
    {t' : τ} (hq : q.length ≤ X.depth) (ht' : X.table M q = some t') :
    t' = t ∧ j = i ↔ q = p ∧ j = i := by
  constructor
  · rintro ⟨rfl, rfl⟩
    exact ⟨hM.inj hq hp ht' ht, rfl⟩
  · rintro ⟨rfl, rfl⟩
    exact ⟨Option.some.inj (ht'.symm.trans ht), rfl⟩

section Write

variable [DecidableEq τ] [DecidableEq ι]

/-- The cell still points where it did, or to data. -/
theorem IsTree.table_write (hM : X.IsTree M) (hp : p.length ≤ X.depth) (ht : X.table M p = some t)
    (hb : X.next b = X.next (M t i) ∨ p.length = X.depth) (hq : q.length ≤ X.depth) :
    X.table (write M t i b) q = X.table M q := by
  induction q with
  | nil => rfl
  | cons j q ih =>
      have hq' : q.length < X.depth := hq
      rw [table_cons, table_cons, ih hq'.le]
      cases ht' : X.table M q with
      | none => rfl
      | some t' =>
          rw [Option.bind_some, Option.bind_some]
          simp only [write, hM.cell_iff hp ht hq'.le ht']
          split
          · rename_i heq
            obtain ⟨rfl, rfl⟩ := heq
            rcases hb with hb | hb
            · obtain rfl : t' = t := Option.some.inj (ht'.symm.trans ht)
              exact hb
            · omega
          · rfl

theorem IsTree.cell_write (hM : X.IsTree M) (hp : p.length ≤ X.depth) (ht : X.table M p = some t)
    (hb : X.next b = X.next (M t i) ∨ p.length = X.depth) (hq : q.length ≤ X.depth) :
    X.cell (write M t i b) q j = if q = p ∧ j = i then b else X.cell M q j := by
  rw [cell, hM.table_write hp ht hb hq]
  cases ht' : X.table M q with
  | none =>
      have hne : q ≠ p := by
        rintro rfl
        rw [ht] at ht'
        cases ht'
      rw [Option.elim_none, if_neg (fun h => hne h.1), cell_of_none ht']
  | some t' =>
      rw [Option.elim_some, cell_of_table ht']
      simp only [write, hM.cell_iff hp ht hq ht']

theorem IsTree.write (hM : X.IsTree M) (hp : p.length ≤ X.depth) (ht : X.table M p = some t)
    (hb : X.next b = X.next (M t i) ∨ p.length = X.depth) : X.IsTree (write M t i b) where
  inj hq hr hqt hrt := by
    rw [hM.table_write hp ht hb hq] at hqt
    rw [hM.table_write hp ht hb hr] at hrt
    exact hM.inj hq hr hqt hrt

/-- The cell no longer points to a table. -/
theorem IsTree.table_cut (hM : X.IsTree M) (hp : p.length ≤ X.depth) (ht : X.table M p = some t)
    (hb : X.next b = none) (hq : q.length ≤ X.depth) :
    X.table (Radix.write M t i b) q = if (i :: p) <:+ q then none else X.table M q := by
  induction q with
  | nil => simp
  | cons j q ih =>
      have hq' : q.length ≤ X.depth := by
        rw [List.length_cons] at hq
        omega
      rw [table_cons, table_cons, ih hq']
      by_cases hsuf : (i :: p) <:+ q
      · rw [if_pos hsuf, if_pos (hsuf.trans (List.suffix_cons j q))]
        rfl
      rw [if_neg hsuf]
      cases ht' : X.table M q with
      | none => simp
      | some t' =>
          rw [Option.bind_some, Option.bind_some]
          have hiff : (i :: p) <:+ (j :: q) ↔ q = p ∧ j = i := by
            rw [List.suffix_cons_iff, List.cons.injEq]
            constructor
            · rintro (⟨rfl, rfl⟩ | h)
              · exact ⟨rfl, rfl⟩
              · exact absurd h hsuf
            · rintro ⟨rfl, rfl⟩
              exact .inl ⟨rfl, rfl⟩
          simp only [Radix.write, hM.cell_iff hp ht hq' ht', hiff]
          split
          · exact hb
          · rfl

theorem IsTree.cut (hM : X.IsTree M) (hp : p.length ≤ X.depth) (ht : X.table M p = some t)
    (hb : X.next b = none) : X.IsTree (Radix.write M t i b) where
  inj hq hr hqt hrt := by
    rw [hM.table_cut hp ht hb hq] at hqt
    rw [hM.table_cut hp ht hb hr] at hrt
    split at hqt
    · cases hqt
    split at hrt
    · cases hrt
    exact hM.inj hq hr hqt hrt

theorem IsTree.cell_cut (hM : X.IsTree M) (hp : p.length ≤ X.depth) (ht : X.table M p = some t)
    (hb : X.next b = none) (hq : q.length ≤ X.depth) :
    X.cell (Radix.write M t i b) q j =
      if q = p ∧ j = i then b else if (i :: p) <:+ q then X.blank else X.cell M q j := by
  rw [cell, hM.table_cut hp ht hb hq]
  by_cases hsuf : (i :: p) <:+ q
  · have hne : q ≠ p := by
      rintro rfl
      have hlen := hsuf.length_le
      rw [List.length_cons] at hlen
      omega
    rw [if_pos hsuf, if_neg (fun h => hne h.1), if_pos hsuf, Option.elim_none]
  rw [if_neg hsuf, if_neg hsuf]
  cases ht' : X.table M q with
  | none =>
      have hne : q ≠ p := by
        rintro rfl
        rw [ht] at ht'
        cases ht'
      rw [Option.elim_none, if_neg (fun h => hne h.1), cell_of_none ht']
  | some t' =>
      rw [Option.elim_some, cell_of_table ht']
      simp only [Radix.write, hM.cell_iff hp ht hq ht']

/-- The cell is made to point to a blank table that was in no path. -/
theorem IsTree.table_grow (hM : X.IsTree M) (hp : p.length < X.depth) (ht : X.table M p = some t)
    (hnone : X.next (M t i) = none) (hb : X.next b = some t₀)
    (hfresh : ∀ q, q.length ≤ X.depth → X.table M q ≠ some t₀) (hblank : ∀ j, M t₀ j = X.blank)
    (hnext : X.next X.blank = none) (hq : q.length ≤ X.depth) :
    X.table (Radix.write M t i b) q = if q = i :: p then some t₀ else X.table M q := by
  have hne : t₀ ≠ t := by
    rintro rfl
    exact hfresh p hp.le ht
  induction q with
  | nil => simp
  | cons j q ih =>
      have hq' : q.length ≤ X.depth := by
        rw [List.length_cons] at hq
        omega
      rw [table_cons, table_cons, ih hq']
      by_cases hqp : q = i :: p
      · subst hqp
        have hold : X.table M (i :: p) = none := by rw [table_cons, ht, Option.bind_some, hnone]
        simp [Radix.write, hne, hblank, hnext, hold]
      rw [if_neg hqp]
      cases ht' : X.table M q with
      | none =>
          have hqne : q ≠ p := by
            rintro rfl
            rw [ht] at ht'
            cases ht'
          simp [hqne]
      | some t' =>
          rw [Option.bind_some, Option.bind_some]
          simp only [Radix.write, hM.cell_iff hp.le ht hq' ht', List.cons.injEq, and_comm]
          split
          · exact hb
          · rfl

theorem IsTree.grow (hM : X.IsTree M) (hp : p.length < X.depth) (ht : X.table M p = some t)
    (hnone : X.next (M t i) = none) (hb : X.next b = some t₀)
    (hfresh : ∀ q, q.length ≤ X.depth → X.table M q ≠ some t₀) (hblank : ∀ j, M t₀ j = X.blank)
    (hnext : X.next X.blank = none) : X.IsTree (Radix.write M t i b) where
  inj {q r u} hq hr hqt hrt := by
    rw [hM.table_grow hp ht hnone hb hfresh hblank hnext hq] at hqt
    rw [hM.table_grow hp ht hnone hb hfresh hblank hnext hr] at hrt
    split at hqt <;> split at hrt
    · simp_all
    · exact absurd (hrt.trans hqt.symm) (hqt ▸ hfresh r hr)
    · exact absurd (hqt.trans hrt.symm) (hrt ▸ hfresh q hq)
    · exact hM.inj hq hr hqt hrt

theorem IsTree.cell_grow (hM : X.IsTree M) (hp : p.length < X.depth) (ht : X.table M p = some t)
    (hnone : X.next (M t i) = none) (hb : X.next b = some t₀)
    (hfresh : ∀ q, q.length ≤ X.depth → X.table M q ≠ some t₀) (hblank : ∀ j, M t₀ j = X.blank)
    (hnext : X.next X.blank = none) (hq : q.length ≤ X.depth) :
    X.cell (Radix.write M t i b) q j = if q = p ∧ j = i then b else X.cell M q j := by
  have hne : t₀ ≠ t := by
    rintro rfl
    exact hfresh p hp.le ht
  rw [cell, hM.table_grow hp ht hnone hb hfresh hblank hnext hq]
  by_cases hqp : q = i :: p
  · subst hqp
    have hold : X.table M (i :: p) = none := by rw [table_cons, ht, Option.bind_some, hnone]
    have hcons : i :: p ≠ p := List.cons_ne_self i p
    simp [Radix.write, hne, hblank, cell_of_none hold, hcons]
  rw [if_neg hqp]
  cases ht' : X.table M q with
  | none =>
      have hqne : q ≠ p := by
        rintro rfl
        rw [ht] at ht'
        cases ht'
      rw [Option.elim_none, if_neg (fun h => hqne h.1), cell_of_none ht']
  | some t' =>
      rw [Option.elim_some, cell_of_table ht']
      simp only [Radix.write, hM.cell_iff hp.le ht hq ht']

end Write

end Radix

end UntitledOs.Lib
