import UntitledOs.Vmemory.Failure

/-!
# Slots of the page tables

`make_entry` for 4 KiB pages over the whole life of a handle: which addresses
have a slot, which slot it is, and that later calls leave what is there.
-/

namespace UntitledOs.Vmemory

open UntitledOs.Lib

variable {env : VmemEnv} {s s' : Vmem} {v w f slot : Nat} {p q : List (Fin 512)} {i j : Fin 512}
  {cs : List (Nat × Nat)}

/--
The runs of `make_entry` from a new handle on, with the calls so far that gave a
slot.  The caller may fill the slots that it was given.
-/
inductive SlotRun (env : VmemEnv) : List (Nat × Nat) → Vmem → Prop
  | create (s : Vmem) (created : (createMemHndl env s).2 = 0) :
      SlotRun env [] (createMemHndl env s).1
  | made {cs : List (Nat × Nat)} {s s' : Vmem} {v slot : Nat} (run : SlotRun env cs s)
      (made : makeEntry env s v pageSize = (s', some slot)) : SlotRun env (cs ++ [(v, slot)]) s'
  | failed {cs : List (Nat × Nat)} {s s' : Vmem} {v : Nat} (run : SlotRun env cs s)
      (failed : makeEntry env s v pageSize = (s', none)) : SlotRun env cs s'
  | filled {cs : List (Nat × Nat)} {s : Vmem} (run : SlotRun env cs s) (c : Nat × Nat)
      (given : c ∈ cs) (e : Nat) : SlotRun env cs (s.setEntry c.2 e)

/-- No entry over a page table was made a 2 MiB page. -/
def AllSmall (s : Vmem) : Prop :=
  ∀ p i, p.length = 2 → s.cell p i = 0 ∨ (nextTable (s.cell p i)).isSome

/-- `s'` has the tables and the entries of `s`, and maybe new tables over `v`. -/
structure Deepened (env : VmemEnv) (s s' : Vmem) (v : Nat) : Prop where
  inv : TableInv env s'
  small : AllSmall s'
  table : ∀ q, q.length ≤ 3 → s'.table q = s.table q ∨ s.table q = none ∧ q <:+ region v
  cell : ∀ q j, q.length ≤ 3 → s.cell q j ≠ 0 → s'.cell q j = s.cell q j

section Deepened

theorem Deepened.refl (h : TableInv env s) (hsmall : AllSmall s) (v : Nat) : Deepened env s s v :=
  ⟨h, hsmall, fun _ _ => .inl rfl, fun _ _ _ _ => rfl⟩

theorem Deepened.keeps (h : Deepened env s s' v) (hq : q.length ≤ 3) (hf : s.table q = some f) :
    s'.table q = some f := by
  rcases h.table q hq with hsame | ⟨hnone, -⟩
  · rw [hsame, hf]
  · rw [hnone] at hf
    cases hf

theorem Deepened.trans {s'' : Vmem} (h : Deepened env s s' v) (h' : Deepened env s' s'' v) :
    Deepened env s s'' v where
  inv := h'.inv
  small := h'.small
  table q hq := by
    rcases h.table q hq with hsame | hnew
    · rw [← hsame]
      exact h'.table q hq
    · exact .inr hnew
  cell q j hq hne := by
    have hsame := h.cell q j hq hne
    rw [h'.cell q j hq (by rwa [hsame]), hsame]

theorem Grown.table_other (h : Grown env s s' p i) (hf : s.table p = some f)
    (hzero : s.cell p i = 0) (hq : q.length ≤ 3) (hne : q ≠ i :: p) : s'.table q = s.table q := by
  induction q with
  | nil => simp [Vmem.table, Vmem.radix, h.pml4]
  | cons j q ih =>
      have hq' : q.length ≤ 3 := (Nat.le_succ _).trans hq
      by_cases hnew : q = i :: p
      · subst hnew
        -- the new table is empty, so there is none below it
        obtain ⟨g, hg⟩ := h.below
        have hnone : s.table (i :: p) = none := by
          rw [Vmem.table_cons_of_some hf, hzero, nextTable_zero]
        rw [Vmem.table_cons_of_none hnone, Vmem.table_cons_of_some hg,
          h.cell _ _ hq' (fun heq => absurd heq.1 (List.cons_ne_self i p)),
          Vmem.cell_of_none hnone, nextTable_zero]
      · have hsame := ih hq' hnew
        cases hg : s.table q with
        | none => rw [Vmem.table_cons_of_none hg, Vmem.table_cons_of_none (hsame.trans hg)]
        | some g =>
            have hother : ¬(q = p ∧ j = i) := by
              rintro ⟨rfl, rfl⟩
              exact hne rfl
            rw [Vmem.table_cons_of_some hg, Vmem.table_cons_of_some (hsame.trans hg),
              h.cell q j hq' hother]

theorem Grown.deepened (h : Grown env s s' p i) (hsmall : AllSmall s) (hp : p.length ≤ 2)
    (hf : s.table p = some f) (hzero : s.cell p i = 0) (hv : i :: p <:+ region v) :
    Deepened env s s' v where
  inv := h.inv
  small q j hq := by
    by_cases hnew : q = p ∧ j = i
    · obtain ⟨rfl, rfl⟩ := hnew
      obtain ⟨g, hg⟩ := h.below
      rw [Vmem.table_cons_of_some ((h.table_self (by omega)).trans hf)] at hg
      exact .inr (Option.isSome_of_eq_some hg)
    · rw [h.cell q j (by omega) hnew]
      exact hsmall q j hq
  table q hq := by
    by_cases hnew : q = i :: p
    · subst hnew
      refine .inr ⟨?_, hv⟩
      rw [Vmem.table_cons_of_some hf, hzero, nextTable_zero]
    · exact .inl (h.table_other hf hzero hq hnew)
  cell q j hq hne := by
    apply h.cell q j hq
    rintro ⟨rfl, rfl⟩
    exact hne hzero

theorem Made.deepened (h : Made env s s' p i) (hinv : TableInv env s) (hsmall : AllSmall s)
    (hp : p.length ≤ 2) (hf : s.table p = some f) (hv : i :: p <:+ region v) :
    Deepened env s s' v := by
  rcases h.made with hzero | rfl
  · exact h.toGrown.deepened hsmall hp hf hzero hv
  · exact .refl hinv hsmall v

theorem Refused.table (h : Refused env s s' p i) (hq : q.length ≤ 3) : s'.table q = s.table q := by
  refine table_of_cells h.pml4 fun r j hr => h.cell r j ?_
  have hlen := hr.length_le
  rw [List.length_cons] at hlen
  omega

theorem Refused.deepened (h : Refused env s s' p i) (hsmall : AllSmall s) (v : Nat) :
    Deepened env s s' v where
  inv := h.inv
  small q j hq := by
    rw [h.cell q j (by omega)]
    exact hsmall q j hq
  table q hq := .inl (h.table hq)
  cell q j hq _ := h.cell q j hq

theorem Refused.table_none (h : Refused env s s' p i) (hp : p.length ≤ 2)
    (hf : s.table p = some f) : s'.table (i :: p) = none := by
  rw [h.table (by rw [List.length_cons]; omega), Vmem.table_cons_of_some hf, h.missing,
    nextTable_zero]

end Deepened

section Calls

/-- The entry of `v` in the page table at the frame `f`. -/
def slotAt (f v : Nat) : Nat := 4096 * f + 8 * (index v 12).val

theorem slotAt_inj {g : Nat} (heq : slotAt f v = slotAt g w) :
    f = g ∧ index v 12 = index w 12 := by
  have hv := (index v 12).isLt
  have hw := (index w 12).isLt
  rw [slotAt, slotAt] at heq
  rw [Fin.ext_iff]
  omega

/-- `make_entry` gives the slot in the page table over `v`, if that could be made. -/
theorem makeEntry_deepened (h : TableInv env s) (hs : TableSupply env) (hsmall : AllSmall s) (v : Nat) :
    ∃ s', Deepened env s s' v ∧
      ((∃ f, s'.table (region v) = some f ∧ makeEntry env s v pageSize = (s', some (slotAt f v))) ∨
        s'.table (region v) = none ∧ makeEntry env s v pageSize = (s', none)) := by
  have hroot := TableInv.table_root s
  have htop : [index v 39] <:+ region v := ⟨[index v 21, index v 30], rfl⟩
  have hdir : [index v 30, index v 39] <:+ region v := ⟨[index v 21], rfl⟩
  rcases makeEntry_levels h hs v pageSize with
    ⟨s₁, s₂, f₂, hmade, hmade₂, hf₂, hcall⟩ | ⟨s₁, href, hcall⟩ | ⟨s₁, s₂, hmade, href, hcall⟩
  · obtain ⟨f₃, hf₃⟩ := hmade.below
    have hdeep := hmade.deepened h hsmall (Nat.zero_le 2) hroot htop
    have hdeep₂ := hmade₂.deepened hdeep.inv hdeep.small (by simp) hf₃ hdir
    rw [makeEntryAt, if_neg (show pageSize ≠ pageSize2 by decide)] at hcall
    rcases withTable_spec hdeep₂.inv hs (show [index v 30, index v 39].length ≤ 2 by simp) hf₂
      (hdeep₂.small _ (index v 21) rfl) (fun s => (s, some (getPte v
        (s.mem (4096 * f₂ + 8 * (index v 21).val))))) with
      ⟨s₃, hcall₃, hmade₃⟩ | ⟨s₃, hcall₃, href⟩
    · have hdeep₃ := hmade₃.deepened hdeep₂.inv hdeep₂.small (by simp) hf₂ (List.suffix_refl _)
      obtain ⟨f₁, hf₁⟩ := hmade₃.below
      refine ⟨s₃, (hdeep.trans hdeep₂).trans hdeep₃, .inl ⟨f₁, hf₁, ?_⟩⟩
      rw [hcall, hcall₃, getPte_eq, Vmem.below_eq (hdeep₃.keeps (by simp) hf₂) hf₁]
      rfl
    · have hdeep₃ := href.deepened hdeep₂.small v
      exact ⟨s₃, (hdeep.trans hdeep₂).trans hdeep₃,
        .inr ⟨href.table_none (by simp) hf₂, hcall.trans hcall₃⟩⟩
  · have hnone := href.table_none (Nat.zero_le 2) hroot
    exact ⟨s₁, href.deepened hsmall v,
      .inr ⟨Vmem.table_cons_of_none (Vmem.table_cons_of_none hnone), hcall⟩⟩
  · obtain ⟨f₃, hf₃⟩ := hmade.below
    have hdeep := hmade.deepened h hsmall (Nat.zero_le 2) hroot htop
    have hnone := href.table_none (by simp) hf₃
    exact ⟨s₂, hdeep.trans (href.deepened hdeep.small v),
      .inr ⟨Vmem.table_cons_of_none hnone, hcall⟩⟩

/-- `get_entry` finds the slot where there is a page table. -/
theorem getEntry_eq (h : TableInv env s) (hsmall : AllSmall s) (v : Nat) :
    getEntry s v = (s.table (region v)).map fun f => slotAt f v := by
  simp only [getEntry, Vmem.getPml4e, h.getPml4e_eq]
  rw [← Vmem.cell_of_table (TableInv.table_root s)]
  rcases h.upper_cases (p := []) (Nat.zero_le 1) (TableInv.table_root s) (index v 39) with
    ⟨hzero, hnone⟩ | ⟨hpresent, -, hsome⟩
  · rw [hzero, has_zero, region, Vmem.table_cons_of_none (Vmem.table_cons_of_none hnone)]
    rfl
  rw [hpresent, getPdpte_eq, ← Vmem.cell_of_table hsome]
  rcases h.upper_cases le_rfl hsome (index v 30) with ⟨hzero, hnone⟩ | ⟨hpresent', -, hsome'⟩
  · rw [hzero, has_zero, region, Vmem.table_cons_of_none hnone]
    rfl
  rw [hpresent', getPde_eq, ← Vmem.cell_of_table hsome', region, Vmem.table_cons_of_some hsome']
  rcases hsmall [index v 30, index v 39] (index v 21) rfl with hzero | hsome''
  · rw [hzero, has_zero, nextTable_zero]
    rfl
  · obtain ⟨f, hf⟩ := Option.isSome_iff_exists.mp hsome''
    obtain ⟨hp, hps, rfl⟩ := nextTable_eq_some.mp hf
    rw [hp, hps, hf, getPte_eq]
    rfl

/-- Where there is a slot, `make_entry` gives it and leaves all as it is. -/
theorem makeEntry_of_getEntry (h : TableInv env s) (hsmall : AllSmall s)
    (hslot : getEntry s v = some slot) : makeEntry env s v pageSize = (s, some slot) := by
  rw [getEntry_eq h hsmall, Option.map_eq_some_iff] at hslot
  obtain ⟨f₁, hf₁, rfl⟩ := hslot
  cases hf₂ : s.table [index v 30, index v 39] with
  | none =>
      rw [region, Vmem.table_cons_of_none hf₂] at hf₁
      cases hf₁
  | some f₂ =>
      have hnext := hf₁
      rw [region, Vmem.table_cons_of_some hf₂, Vmem.cell_of_table hf₂] at hnext
      rw [makeEntry_open h hf₂, makeEntryAt, if_neg (show pageSize ≠ pageSize2 by decide),
        withTable_present (nextTable_eq_some.mp hnext).1, getPte_eq, (nextTable_eq_some.mp hnext).2.2]
      rfl

end Calls

section Runs

/-- What holds after every run: the page tables are those over the calls, whose slots are found. -/
structure SlotInv (env : VmemEnv) (cs : List (Nat × Nat)) (s : Vmem) : Prop where
  inv : TableInv env s
  small : AllSmall s
  opened : ∀ v, (s.table (region v)).isSome ↔ ∃ c ∈ cs, region c.1 = region v
  slots : ∀ c ∈ cs, getEntry s c.1 = some c.2

theorem SlotInv.create (hs : TableSupply env) (s : Vmem) (created : (createMemHndl env s).2 = 0) :
    SlotInv env [] (createMemHndl env s).1 where
  inv := createMemHndl_inv hs s created
  small p i _ := .inl (cell_of_blank (createMemHndl_blank hs s created) p i)
  opened v := by simp [region, table_of_blank (createMemHndl_blank hs s created)]
  slots := by simp

theorem SlotInv.getEntry_deepened (h : SlotInv env cs s) (hwide : Deepened env s s' v)
    (hslot : getEntry s w = some slot) : getEntry s' w = some slot := by
  rw [getEntry_eq h.inv h.small, Option.map_eq_some_iff] at hslot
  obtain ⟨f, hf, rfl⟩ := hslot
  rw [getEntry_eq hwide.inv hwide.small, hwide.keeps le_rfl hf]
  rfl

/-- A page table that is new is the one over the address of the call. -/
theorem Deepened.isSome_iff (hwide : Deepened env s s' v) :
    (s'.table (region w)).isSome ↔
      (s.table (region w)).isSome ∨ region v = region w ∧ (s'.table (region v)).isSome := by
  constructor
  · intro hsome
    rcases hwide.table (region w) le_rfl with hsame | ⟨-, hsuf⟩
    · rw [hsame] at hsome
      exact .inl hsome
    · have heq : region w = region v := hsuf.eq_of_length rfl
      rw [heq] at hsome
      exact .inr ⟨heq.symm, hsome⟩
  · rintro (hsome | ⟨heq, hsome⟩)
    · obtain ⟨f, hf⟩ := Option.isSome_iff_exists.mp hsome
      exact Option.isSome_of_eq_some (hwide.keeps le_rfl hf)
    · rwa [← heq]

theorem SlotInv.made (h : SlotInv env cs s) (hwide : Deepened env s s' v)
    (hf : s'.table (region v) = some f) : SlotInv env (cs ++ [(v, slotAt f v)]) s' where
  inv := hwide.inv
  small := hwide.small
  opened w := by
    rw [hwide.isSome_iff, h.opened, hf]
    simp only [Option.isSome_some, and_true, List.mem_append, List.mem_singleton]
    constructor
    · rintro (⟨c, hc, heq⟩ | heq)
      · exact ⟨c, .inl hc, heq⟩
      · exact ⟨_, .inr rfl, heq⟩
    · rintro ⟨c, hc | rfl, heq⟩
      · exact .inl ⟨c, hc, heq⟩
      · exact .inr heq
  slots c hc := by
    rcases List.mem_append.mp hc with hc | hc
    · exact h.getEntry_deepened hwide (h.slots c hc)
    · obtain rfl := List.mem_singleton.mp hc
      rw [getEntry_eq hwide.inv hwide.small, hf]
      rfl

theorem SlotInv.failed (h : SlotInv env cs s) (hwide : Deepened env s s' v)
    (hnone : s'.table (region v) = none) : SlotInv env cs s' where
  inv := hwide.inv
  small := hwide.small
  opened w := by
    rw [hwide.isSome_iff, h.opened, hnone]
    simp
  slots c hc := h.getEntry_deepened hwide (h.slots c hc)

/-- A slot is in a page table, and no table is found through it. -/
theorem SlotInv.filled (h : SlotInv env cs s) {c : Nat × Nat} (hc : c ∈ cs) (e : Nat) :
    SlotInv env cs (s.setEntry c.2 e) := by
  have hslot := h.slots c hc
  rw [getEntry_eq h.inv h.small, Option.map_eq_some_iff] at hslot
  obtain ⟨f, hf, hslot⟩ := hslot
  rw [← hslot]
  have hleaf : (region c.1).length = 3 := rfl
  have hinv : TableInv env (s.setEntry (slotAt f c.1) e) := (h.inv.setLeaf hleaf hf e).1
  have hcell := (h.inv.setLeaf (i := index c.1 12) hleaf hf e).2
  have hshort : ∀ q j, q.length ≤ 2 → (s.setEntry (slotAt f c.1) e).cell q j = s.cell q j := by
    intro q j hq
    rw [slotAt, hcell q j (by omega), if_neg]
    rintro ⟨rfl, -⟩
    exact absurd hq (by simp [region])
  have hsmall : AllSmall (s.setEntry (slotAt f c.1) e) := by
    intro q j hq
    rw [hshort q j hq.le]
    exact h.small q j hq
  have htable : ∀ w, (s.setEntry (slotAt f c.1) e).table (region w) = s.table (region w) := by
    intro w
    refine table_of_cells rfl fun q j hq => hshort q j ?_
    have hlen := hq.length_le
    rw [List.length_cons] at hlen
    exact Nat.le_of_succ_le_succ hlen
  refine ⟨hinv, hsmall, fun w => by rw [htable, h.opened], fun d hd => ?_⟩
  have hd' := h.slots d hd
  rw [getEntry_eq h.inv h.small] at hd'
  rw [getEntry_eq hinv hsmall, htable, hd']

theorem slotRun_inv (hs : TableSupply env) (run : SlotRun env cs s) : SlotInv env cs s := by
  induction run with
  | create s created => exact .create hs s created
  | made run made ih =>
      rcases makeEntry_deepened ih.inv hs ih.small _ with ⟨s', hwide, ⟨f, hf, hcall⟩ | ⟨-, hcall⟩⟩
      · rw [made] at hcall
        cases hcall
        exact ih.made hwide hf
      · rw [made] at hcall
        cases hcall
  | failed run failed ih =>
      rcases makeEntry_deepened ih.inv hs ih.small _ with ⟨s', hwide, ⟨f, -, hcall⟩ | ⟨hnone, hcall⟩⟩
      · rw [failed] at hcall
        cases hcall
      · rw [failed] at hcall
        cases hcall
        exact ih.failed hwide hnone
  | filled run c given e ih => exact ih.filled given e

/-- Two slots are the same for the same page only. -/
theorem SlotInv.slot_iff (h : SlotInv env cs s) {a b : Nat} (ha : getEntry s v = some a)
    (hb : getEntry s w = some b) : a = b ↔ page v = page w := by
  rw [getEntry_eq h.inv h.small, Option.map_eq_some_iff] at ha hb
  obtain ⟨f, hf, rfl⟩ := ha
  obtain ⟨g, hg, rfl⟩ := hb
  rw [page, page, List.cons.injEq]
  constructor
  · intro heq
    obtain ⟨rfl, hindex⟩ := slotAt_inj heq
    exact ⟨hindex, h.inv.tree.inj le_rfl le_rfl hf hg⟩
  · rintro ⟨hindex, hregion⟩
    rw [hregion, hg] at hf
    rw [slotAt, slotAt, hindex, Option.some.inj hf]

theorem region_iff_bits : region w = region v ↔ w / 2 ^ 21 % 2 ^ 27 = v / 2 ^ 21 % 2 ^ 27 := by
  rw [region_iff, pageNumber, pageNumber]
  omega

theorem withTable_gives {ent : Nat} {next : Vmem → Vmem × Option Nat}
    (hgive : (env.kmallocAlign s.tables).isSome)
    (hnext : ∀ s' : Vmem, s.tables ≤ s'.tables → s'.tables ≤ s.tables + 1 → (next s').2.isSome) :
    (withTable env ent s next).2.isSome := by
  obtain ⟨t, ht⟩ := Option.isSome_iff_exists.mp hgive
  unfold withTable
  split
  · exact hnext s le_rfl (Nat.le_succ _)
  · rw [ht]
    exact hnext _ (Nat.le_succ _) le_rfl

/-- A call makes at most three tables. -/
theorem makeEntry_gives (v : Nat)
    (hgive : ∀ k, s.tables ≤ k → k < s.tables + 3 → (env.kmallocAlign k).isSome) :
    (makeEntry env s v pageSize).2.isSome := by
  unfold makeEntry
  refine withTable_gives (hgive _ le_rfl (by omega)) fun s₁ hle₁ hlt₁ => ?_
  refine withTable_gives (hgive _ hle₁ (by omega)) fun s₂ hle₂ hlt₂ => ?_
  unfold makeEntryAt
  rw [if_neg (by decide)]
  exact withTable_gives (hgive _ (by omega) (by omega)) fun s₃ _ _ => rfl

/--
In every run of `make_entry`, an address has a slot when a call before was for its
2 MiB region.  It is the slot that `make_entry` gives, and the slot of this page
only.  A call changes no entry that is present, and it gives a slot if `kmalloc_align`
gives the tables that it makes.
-/
theorem make_entry_slots (hs : TableSupply env) (run : SlotRun env cs s) :
    (∀ v, (getEntry s v).isSome ↔
      ∃ c ∈ cs, c.1 / 2 ^ 21 % 2 ^ 27 = v / 2 ^ 21 % 2 ^ 27) ∧
    (∀ c ∈ cs, getEntry s c.1 = some c.2) ∧
    (∀ v slot, getEntry s v = some slot → makeEntry env s v pageSize = (s, some slot)) ∧
    (∀ v w a b, getEntry s v = some a → getEntry s w = some b →
      (a = b ↔ v / 2 ^ 12 % 2 ^ 36 = w / 2 ^ 12 % 2 ^ 36)) ∧
    (∀ v p f (i : Fin 512), p.length ≤ 3 → s.table p = some f →
      has (s.mem (4096 * f + 8 * i.val)) pflagPresent = true →
      (makeEntry env s v pageSize).1.table p = some f ∧
        (makeEntry env s v pageSize).1.mem (4096 * f + 8 * i.val) =
          s.mem (4096 * f + 8 * i.val)) ∧
    ∀ v, (∀ k, s.tables ≤ k → k < s.tables + 3 → (env.kmallocAlign k).isSome) →
      ∃ s' slot, makeEntry env s v pageSize = (s', some slot) ∧ getEntry s' v = some slot := by
  have h := slotRun_inv hs run
  refine ⟨fun v => ?_, h.slots, fun v slot => makeEntry_of_getEntry h.inv h.small,
    fun v w a b ha hb => ?_, fun v p f i hp hf hpresent => ?_, fun v hgive => ?_⟩
  · rw [getEntry_eq h.inv h.small, Option.isSome_map, h.opened]
    simp only [region_iff_bits]
  · rw [h.slot_iff ha hb, page_iff]
    rfl
  · obtain ⟨s', hwide, hcall⟩ := makeEntry_deepened h.inv hs h.small v
    have hstate : (makeEntry env s v pageSize).1 = s' := by
      rcases hcall with ⟨_, -, hcall⟩ | ⟨-, hcall⟩ <;> rw [hcall]
    have hf' := hwide.keeps hp hf
    have hne : s.cell p i ≠ 0 := by
      intro hzero
      rw [← Vmem.cell_of_table hf, hzero, has_zero] at hpresent
      cases hpresent
    rw [hstate, ← Vmem.cell_of_table hf', ← Vmem.cell_of_table hf]
    exact ⟨hf', hwide.cell p i hp hne⟩
  · obtain ⟨slot, hslot⟩ := Option.isSome_iff_exists.mp (makeEntry_gives v hgive)
    have hmade : SlotRun env (cs ++ [(v, slot)]) (makeEntry env s v pageSize).1 :=
      run.made (Prod.ext rfl hslot)
    exact ⟨_, slot, Prod.ext rfl hslot, (slotRun_inv hs hmade).slots (v, slot) (by simp)⟩

end Runs

/-- Two pages of one region in a new handle, and then one of another region. -/
theorem make_entry_slots_twoPages : ∃ s a b, SlotRun smallHeap [(0x400000, a), (0x401000, b)] s ∧
    getEntry s 0x400000 = some a ∧ a ≠ b ∧ getEntry s 0x600000 = none ∧
    ∃ s' c, makeEntry smallHeap s 0x600000 pageSize = (s', some c) ∧
      getEntry s' 0x600000 = some c := by
  let s₁ := (makeEntry smallHeap newHandle 0x400000 pageSize).1
  let s₂ := (makeEntry smallHeap s₁ 0x401000 pageSize).1
  have hcalls : (makeEntry smallHeap newHandle 0x400000 pageSize).2 = some (0x103000) ∧
      (makeEntry smallHeap s₁ 0x401000 pageSize).2 = some (0x103008) ∧ s₂.tables = 4 := by
    decide +kernel
  have hrun₁ : SlotRun smallHeap [(0x400000, 0x103000)] s₁ :=
    .made (.create _ (by decide)) (Prod.ext rfl hcalls.1)
  have hrun₂ : SlotRun smallHeap [(0x400000, 0x103000), (0x401000, 0x103008)] s₂ :=
    .made hrun₁ (Prod.ext rfl hcalls.2.1)
  obtain ⟨hsome, hslots, -, -, -, hgives⟩ := make_entry_slots smallHeap_supply hrun₂
  refine ⟨s₂, _, _, hrun₂, hslots (0x400000, 0x103000) (by simp), by decide, ?_,
    hgives 0x600000 fun k _ hk => ?_⟩
  · rw [← Option.not_isSome_iff_eq_none, hsome]
    decide
  · rw [hcalls.2.2] at hk
    simp only [smallHeap]
    rw [if_pos (by omega)]
    rfl

end UntitledOs.Vmemory
