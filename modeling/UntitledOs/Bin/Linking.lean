import UntitledOs.Bin.Relocation

/-!
# Linking a module

`elf_init_relocate` over a whole image.  The entries of all its tables are applied one after the
other; where their targets are apart, each one finds in its target what stood there before the run.
A module whose entries are among those that the loader relocates as their types ask is linked then.
-/

namespace UntitledOs.Bin

open Lib

variable {file : Bytes} {g : Loader} {header : ElfImage} {m : Bytes} {s : Nat}

section UntilError

variable {α β : Type} {step : β → Bytes → Int × Bytes} {target : β → Nat} {word : β → Nat → Nat}

theorem untilError_go {x : β} {xs : List β} (h : (step x m).1 = 0) :
    untilError step (x :: xs) m = untilError step xs (step x m).2 := if_neg (not_not.mpr h)

theorem untilError_stop {x : β} {xs : List β} (h : (step x m).1 ≠ 0) :
    untilError step (x :: xs) m = step x m := if_pos h

theorem untilError_append (xs ys : List β) (m : Bytes) :
    untilError step (xs ++ ys) m =
      if (untilError step xs m).1 ≠ 0 then untilError step xs m
      else untilError step ys (untilError step xs m).2 := by
  induction xs generalizing m with
  | nil => rfl
  | cons x xs ih =>
      rw [List.cons_append]
      by_cases hzero : (step x m).1 = 0
      · simp only [untilError_go hzero]
        exact ih _
      · simp only [untilError_stop hzero, ne_eq, hzero, not_false_eq_true, if_true]

/-- A loop in a loop stops at the same error as one over all the elements. -/
theorem untilError_flatMap (f : α → List β) (xs : List α) (m : Bytes) :
    untilError (fun x => untilError step (f x)) xs m = untilError step (xs.flatMap f) m := by
  induction xs generalizing m with
  | nil => rfl
  | cons x xs ih =>
      rw [List.flatMap_cons, untilError_append]
      by_cases hzero : (untilError step (f x) m).1 = 0
      · rw [if_neg (not_not.mpr hzero), ← ih]
        exact untilError_go hzero
      · rw [if_pos hzero]
        exact untilError_stop hzero

theorem untilError_map (f : α → β) (xs : List α) (m : Bytes) :
    untilError step (xs.map f) m = untilError (fun x => step (f x)) xs m := by
  induction xs generalizing m with
  | nil => rfl
  | cons x xs ih =>
      simp only [List.map_cons, untilError]
      split
      · rfl
      · exact ih _

theorem untilError_congr {step' : β → Bytes → Int × Bytes} {xs : List β}
    (h : ∀ x ∈ xs, ∀ m, step x m = step' x m) (m : Bytes) :
    untilError step xs m = untilError step' xs m := by
  induction xs generalizing m with
  | nil => rfl
  | cons x xs ih =>
      simp only [untilError, h x (List.mem_cons_self ..)]
      rw [ih fun y hy => h y (List.mem_cons_of_mem _ hy)]

/-- Steps that each store one word, in words that are apart, are all made, and each from what was
there before the loop. -/
theorem untilError_stores {xs : List β}
    (hstep : ∀ x ∈ xs, ∀ m, step x m = (0, store m (target x) (word x (getLe m (target x) 8))))
    (hapart : xs.Pairwise fun x y => target x + 8 ≤ target y ∨ target y + 8 ≤ target x)
    (m : Bytes) :
    (untilError step xs m).1 = 0 ∧
    (∀ x ∈ xs, getLe (untilError step xs m).2 (target x) 8 =
      u64 (word x (getLe m (target x) 8))) ∧
    ∀ i, (∀ x ∈ xs, i < target x ∨ target x + 8 ≤ i) → (untilError step xs m).2 i = m i := by
  induction xs generalizing m with
  | nil => exact ⟨rfl, fun x hx => absurd hx (List.not_mem_nil), fun i _ => rfl⟩
  | cons x xs ih =>
      obtain ⟨hfirst, hrest⟩ := List.pairwise_cons.mp hapart
      have hx := hstep x (List.mem_cons_self ..) m
      set m₁ := store m (target x) (word x (getLe m (target x) 8)) with hm₁
      have hrun : untilError step (x :: xs) m = untilError step xs m₁ := by
        rw [untilError, hx]
        exact if_neg fun h => h rfl
      obtain ⟨hzero, hwords, hothers⟩ := ih (fun y hy => hstep y (List.mem_cons_of_mem _ hy)) hrest m₁
      rw [hrun]
      refine ⟨hzero, fun y hy => ?_, fun i hi => ?_⟩
      · rcases List.mem_cons.mp hy with rfl | hy
        · -- the steps that follow leave its word
          have hkept : getLe (untilError step xs m₁).2 (target y) 8 = getLe m₁ (target y) 8 :=
            getLe_congr fun i hi => hothers _ fun z hz => by
              have := hfirst z hz
              omega
          rw [hkept, hm₁, getLe_store _ _ _ le_rfl]
          rfl
        · have hkept : getLe m₁ (target y) 8 = getLe m (target y) 8 := by
            rw [hm₁]
            exact getLe_setLe_of_disjoint (hfirst y hy).symm
          rw [hwords y hy, hkept]
      · rw [hothers i fun y hy => hi y (List.mem_cons_of_mem _ hy), hm₁]
        exact store_of_outside (hi x (List.mem_cons_self ..))

end UntilError

section Entries

/-- A relocation entry with an addend, and the header of its table. -/
structure RelaEntry where
  reltb : ElfSection
  rela : ElfRelocAddend

/-- The entries that `elf_init_relocate` visits in tables of this kind. -/
def relaEntries (header : ElfImage) : List RelaEntry :=
  (List.range header.shtEntryCount).flatMap fun i =>
    let sect := header.sections i
    if sect.type = elfSectTypeRela then
      (List.range (sect.size / sect.entrySize)).map fun j => ⟨sect, sect.rela j⟩
    else []

namespace RelaEntry

def type (e : RelaEntry) : Nat := elfRelocType e.rela.info

def target (header : ElfImage) (e : RelaEntry) : Nat := u64 (header.base + e.rela.offset)

/-- What the entry stores over the word `old`. -/
def word (g : Loader) (header : ElfImage) (e : RelaEntry) (old : Nat) : Nat :=
  let r := relocSymval g header e.reltb e.rela.info
  if e.type = elfRelocType32 then old + r.1 + wordOf e.rela.addend
  else if e.type = elfRelocTypePc32 then
    old + r.1 + wordOf e.rela.addend + (2 ^ 64 - e.target header)
  else if e.type = elfRelocTypeGlobDat then
    if r.2 = elfHintOtherModule then old + r.1 else old + r.1 + header.base
  else if e.type = elfRelocTypeJmpSlot then jmpSlotWord header r
  else header.base + wordOf e.rela.addend

def address (file : Bytes) (g : Loader) (header : ElfImage) (e : RelaEntry) : Option Nat :=
  runtimeAddress file g header e.reltb e.rela.info

/-- What the entry asks for when its symbol is at `s`. -/
def value (header : ElfImage) (e : RelaEntry) (s : Nat) : Nat :=
  relocationValue e.type s (wordOf e.rela.addend) (e.target header) header.base

end RelaEntry

/-- The loader visits its entries in one row where it meets no table without addends. -/
theorem elfInitRelocate_entries
    (hrela : ∀ i < header.shtEntryCount, (header.sections i).type ≠ elfSectTypeRel) (m : Bytes) :
    elfInitRelocate g header m =
      untilError (fun e => elfRelocateSymbolAddend g header e.rela e.reltb) (relaEntries header) m := by
  unfold elfInitRelocate relaEntries
  rw [← untilError_flatMap]
  refine untilError_congr (fun i hi m => ?_) m
  unfold relocateSection
  rw [if_neg (hrela i (List.mem_range.mp hi))]
  by_cases htype : (header.sections i).type = elfSectTypeRela
  · simp only [if_pos htype, untilError_map]
  · simp only [if_neg htype]
    rfl

theorem RelaEntry.relocate_word {e : RelaEntry} (hsup : supportedType e.type)
    (herr : (relocSymval g header e.reltb e.rela.info).2 ≠ elfErrExternSymbolNotDefined)
    (m : Bytes) :
    elfRelocateSymbolAddend g header e.rela e.reltb m =
      (0, store m (e.target header) (e.word g header (getLe m (e.target header) 8))) := by
  have hnone : e.type ≠ elfRelocTypeNone := by
    rcases hsup with h | h | h | h | h <;> rw [h] <;> decide
  unfold supportedType at hsup
  unfold elfRelocateSymbolAddend RelaEntry.word RelaEntry.target
  unfold RelaEntry.type at hsup hnone ⊢
  simp only [herr, hnone, if_false]
  split
  · rfl
  split
  · rfl
  split
  · split <;> rfl
  split
  · unfold jmpSlotWord
    split <;> rfl
  · rename_i h32 hpc hglob hjmp
    rw [if_pos (by tauto)]

end Entries

section Right

/-- The loader takes the symbol for an external one, and the API entry of its name is at `s`. -/
structure BoundToApi (file : Bytes) (g : Loader) (header : ElfImage) (reltb : ElfSection)
    (info s : Nat) : Prop where
  symbol : elfRelocSym info ≠ 0
  external : (fileRelocSymbol file header reltb info).size / 2 ^ 48 = 0
  found : ∃ entry, apiEntry g (relocName header reltb info) = some entry ∧ u64 entry.2 = u64 s

/-- The loader takes the symbol for an external one, its name is no API name, and the first entry
of the name that the search meets is one of another module, at `s`. -/
structure BoundInModule (file : Bytes) (g : Loader) (header : ElfImage) (reltb : ElfSection)
    (info s : Nat) : Prop where
  symbol : elfRelocSym info ≠ 0
  external : (fileRelocSymbol file header reltb info).size / 2 ^ 48 = 0
  notApi : apiEntry g (relocName header reltb info) = none
  found : ∃ c d, firstEntry file g header (relocName header reltb info) = some c ∧
    c.mod = some d ∧ u64 (c.sym.value + d.elfData.base) = u64 s

/-- The entries that are relocated as their types ask, in the memory `m` and with the symbol at
`s`.  The loader adds to a word what should replace it, which is the same for a word of zeros. -/
inductive RelaEntry.Right (file : Bytes) (g : Loader) (header : ElfImage) (m : Bytes)
    (e : RelaEntry) (s : Nat) : Prop
  | relative (type : e.type = elfRelocTypeRelative)
  | jmpSlot (type : e.type = elfRelocTypeJmpSlot)
      (bound : SlotBound file g header e.reltb e.rela.info s)
  | constant (type : e.type = elfRelocType32) (blank : getLe m (e.target header) 8 = 0)
      (bound : elfRelocSym e.rela.info = 0)
  | api (type : e.type = elfRelocType32) (blank : getLe m (e.target header) 8 = 0)
      (bound : BoundToApi file g header e.reltb e.rela.info s)
  | imported (type : e.type = elfRelocType32 ∨ e.type = elfRelocTypeGlobDat)
      (blank : getLe m (e.target header) 8 = 0)
      (bound : BoundInModule file g header e.reltb e.rela.info s)

theorem BoundToApi.symval {reltb : ElfSection} {info : Nat} (hload : LoadedFiles file g header)
    (h : BoundToApi file g header reltb info s) :
    ∃ v, relocSymval g header reltb info = (v, elfHintMloaderApi) ∧ u64 v = u64 s := by
  obtain ⟨entry, hapi, hs⟩ := h.found
  refine ⟨entry.2, ?_, hs⟩
  rw [relocSymval_eq h.symbol, elfGetSymbolValue_api ?_ hapi]
  rw [relocSymbol, hload.image.read]
  exact h.external

theorem BoundInModule.symval {reltb : ElfSection} {info : Nat} (hload : LoadedFiles file g header)
    (h : BoundInModule file g header reltb info s) :
    relocSymval g header reltb info = (u64 s, elfHintOtherModule) := by
  obtain ⟨c, d, hc, hmod, hs⟩ := h.found
  have hcandidate : firstCandidate g header (relocName header reltb info) =
      some ⟨c.name, c.sym.read, c.mod⟩ := by
    rw [hload.firstCandidate, hc]
    rfl
  rw [relocSymval_eq h.symbol, elfGetSymbolValue_candidate ?_ h.notApi hcandidate]
  · simp only [hmod, ← hs]
    rfl
  · rw [relocSymbol, hload.image.read]
    exact h.external

theorem u64_u64_add (a b : Nat) : u64 (u64 a + b) = u64 (a + b) := by
  unfold u64
  omega

variable {e : RelaEntry}

theorem RelaEntry.Right.supported (h : e.Right file g header m s) : supportedType e.type := by
  unfold supportedType
  cases h with
  | relative type => exact .inr (.inr (.inr (.inr type)))
  | jmpSlot type _ => exact .inr (.inr (.inr (.inl type)))
  | constant type _ _ => exact .inl type
  | api type _ _ => exact .inl type
  | imported type _ _ => exact type.imp_right fun type => .inr (.inl type)

theorem RelaEntry.word_of_relocates (hsup : supportedType e.type)
    (herr : (relocSymval g header e.reltb e.rela.info).2 ≠ elfErrExternSymbolNotDefined)
    (hwidth : relocationWidth e.type = 8) (h : Relocates g header e.rela e.reltb s) :
    u64 (e.word g header (getLe m (e.target header) 8)) = u64 (e.value header s) := by
  have hword := (h m).2.1
  rw [RelaEntry.relocate_word hsup herr] at hword
  dsimp only at hword
  rw [show relocationWidth (elfRelocType e.rela.info) = 8 from hwidth] at hword
  exact (getLe_store _ _ _ le_rfl).symm.trans hword

/-- The word for a 64-bit relocation of a word of zeros. -/
theorem RelaEntry.word_blank {v : Nat} {err : Int} (type : e.type = elfRelocType32)
    (hsym : relocSymval g header e.reltb e.rela.info = (v, err)) (hv : u64 v = u64 s) :
    u64 (e.word g header 0) = u64 (e.value header s) := by
  unfold RelaEntry.word RelaEntry.value relocationValue
  rw [hsym, if_pos type, if_pos type, Nat.zero_add]
  dsimp only
  rw [← u64_u64_add, hv, u64_u64_add]

theorem RelaEntry.Right.word (h : e.Right file g header m s) (hload : LoadedFiles file g header)
    (hlinked : elfRelocSym e.rela.info ≠ 0 → Linked header e.reltb e.rela.info)
    (hs : e.address file g header = some s) :
    u64 (e.word g header (getLe m (e.target header) 8)) = u64 (e.value header s) := by
  have hsup := h.supported
  have herr := relocSymval_defined hload hlinked
  cases h with
  | relative type =>
      refine word_of_relocates hsup herr (by rw [type]; rfl) ?_
      exact (relocates_iff hsup hload hlinked hs).mpr (.inl type)
  | jmpSlot type bound =>
      refine word_of_relocates hsup herr (by rw [type]; rfl) ?_
      exact (relocates_iff hsup hload hlinked hs).mpr (.inr ⟨type, bound⟩)
  | constant type blank bound =>
      have hr : relocSymval g header e.reltb e.rela.info = (0, 0) := if_neg (not_not.mpr bound)
      rw [RelaEntry.address, runtimeAddress, if_pos bound, Option.some.injEq] at hs
      subst hs
      rw [blank]
      exact word_blank type hr rfl
  | api type blank bound =>
      obtain ⟨v, hr, hv⟩ := bound.symval hload
      rw [blank]
      exact word_blank type hr hv
  | imported type blank bound =>
      have hr := bound.symval hload
      rw [blank]
      rcases type with type | type
      · exact word_blank type hr (Nat.mod_mod _ _)
      · unfold RelaEntry.word RelaEntry.value relocationValue
        rw [hr, type]
        simp only [if_true]
        rw [if_neg (by decide), if_neg (by decide), if_neg (by decide), if_neg (by decide),
          if_neg (by decide), Nat.zero_add]
        exact Nat.mod_mod _ _

end Right

/-- A module whose entries are right and have targets apart is linked: every target holds what its
entry asks for, and the rest of the memory is as before. -/
theorem module_linked (hload : LoadedFiles file g header)
    (hrela : ∀ i < header.shtEntryCount, (header.sections i).type ≠ elfSectTypeRel)
    (hlinked : ∀ e ∈ relaEntries header, elfRelocSym e.rela.info ≠ 0 →
      Linked header e.reltb e.rela.info)
    (hapart : (relaEntries header).Pairwise fun e e' =>
      e.target header + 8 ≤ e'.target header ∨ e'.target header + 8 ≤ e.target header)
    (hright : ∀ e ∈ relaEntries header, ∃ s, e.address file g header = some s ∧
      e.Right file g header m s) :
    (elfInitRelocate g header m).1 = 0 ∧
    (∀ e ∈ relaEntries header, ∀ s, e.address file g header = some s →
      getLe (elfInitRelocate g header m).2 (e.target header) 8 = u64 (e.value header s)) ∧
    ∀ i, (∀ e ∈ relaEntries header, i < e.target header ∨ e.target header + 8 ≤ i) →
      (elfInitRelocate g header m).2 i = m i := by
  have hstep : ∀ e ∈ relaEntries header, ∀ m, elfRelocateSymbolAddend g header e.rela e.reltb m =
      (0, store m (e.target header) (e.word g header (getLe m (e.target header) 8))) := by
    intro e he m'
    obtain ⟨s, -, h⟩ := hright e he
    exact RelaEntry.relocate_word h.supported (relocSymval_defined hload (hlinked e he)) m'
  obtain ⟨hzero, hwords, hothers⟩ := untilError_stores hstep hapart m
  rw [elfInitRelocate_entries hrela]
  refine ⟨hzero, fun e he s hs => ?_, hothers⟩
  obtain ⟨s', hs', h⟩ := hright e he
  obtain rfl := Option.some.inj (hs.symm.trans hs')
  rw [hwords e he]
  exact h.word hload (hlinked e he) hs

/-- A slot for a function of another module, a word for its address plus 8, and a pointer to what
is at `0x40` in the image. -/
def threeSlots : ElfImage := { helperSlot with
  sections := fun i =>
    { helperSlot.sections i with
      size := if i = 2 then 72 else 48
      rela := fun j =>
        if j = 0 then ⟨0x200, 1 * 2 ^ 32 + 7, 0⟩
        else if j = 1 then ⟨0x208, 1 * 2 ^ 32 + 1, 8⟩
        else ⟨0x210, 8, 0x40⟩ } }

def functionSlot : RelaEntry := ⟨threeSlots.sections 2, 0x200, 1 * 2 ^ 32 + 7, 0⟩

def addressWord : RelaEntry := ⟨threeSlots.sections 2, 0x208, 1 * 2 ^ 32 + 1, 8⟩

def pointerSlot : RelaEntry := ⟨threeSlots.sections 2, 0x210, 8, 0x40⟩

theorem module_linked_threeSlots :
    ∃ m', elfInitRelocate helperLoader threeSlots helperFile = (0, m') ∧
      getLe m' 0x100200 8 = 0x300080 ∧ getLe m' 0x100208 8 = 0x300088 ∧
      getLe m' 0x100210 8 = 0x100040 := by
  have hload : LoadedFiles helperFile helperLoader threeSlots :=
    ⟨fun _ _ => rfl, helperFile_loaded.modules⟩
  have hentries : relaEntries threeSlots = [functionSlot, addressWord, pointerSlot] := rfl
  have hfunction : functionSlot.address helperFile helperLoader threeSlots = some 0x300080 := by
    decide +kernel
  have hword : addressWord.address helperFile helperLoader threeSlots = some 0x300080 := by
    decide +kernel
  have hpointer : pointerSlot.address helperFile helperLoader threeSlots = some 0 := by
    decide +kernel
  have hlinked : ∀ e ∈ relaEntries threeSlots, elfRelocSym e.rela.info ≠ 0 →
      Linked threeSlots e.reltb e.rela.info := by
    rw [hentries]
    intro e he hsym
    simp only [List.mem_cons, List.not_mem_nil, or_false] at he
    rcases he with rfl | rfl | rfl
    · exact ⟨by decide, by decide, by decide⟩
    · exact ⟨by decide, by decide, by decide⟩
    · exact absurd rfl hsym
  have hentry : (firstEntry helperFile helperLoader threeSlots "helper").map (fun c =>
      (c.mod.map fun d => u64 (c.sym.value + d.elfData.base),
        u64 (c.base threeSlots + c.sym.value))) = some (some (u64 0x300080), u64 0x300080) := by
    decide +kernel
  obtain ⟨c, hc, haddress⟩ := Option.map_eq_some_iff.mp hentry
  obtain ⟨hmod, hbase⟩ := Prod.mk.inj haddress
  obtain ⟨d, hd, hvalue⟩ := Option.map_eq_some_iff.mp hmod
  have hexternal : (fileRelocSymbol helperFile threeSlots functionSlot.reltb
      functionSlot.rela.info).size / 2 ^ 48 = 0 := by decide +kernel
  have hapart : (relaEntries threeSlots).Pairwise fun e e' =>
      e.target threeSlots + 8 ≤ e'.target threeSlots ∨
        e'.target threeSlots + 8 ≤ e.target threeSlots := by
    rw [hentries]
    decide
  have hright : ∀ e ∈ relaEntries threeSlots, ∃ s,
      e.address helperFile helperLoader threeSlots = some s ∧
        e.Right helperFile helperLoader threeSlots helperFile s := by
    rw [hentries]
    intro e he
    simp only [List.mem_cons, List.not_mem_nil, or_false] at he
    rcases he with rfl | rfl | rfl
    · refine ⟨_, hfunction, .jmpSlot rfl ⟨by decide, ?_⟩⟩
      rw [if_pos hexternal]
      exact ⟨c, hc, hbase⟩
    · exact ⟨_, hword, .imported (.inl rfl) (by decide +kernel)
        ⟨by decide, hexternal, rfl, c, d, hc, hd, hvalue⟩⟩
    · exact ⟨_, hpointer, .relative rfl⟩
  obtain ⟨hzero, hwords, -⟩ := module_linked hload (by decide) hlinked hapart hright
  have hmem : functionSlot ∈ relaEntries threeSlots ∧ addressWord ∈ relaEntries threeSlots ∧
      pointerSlot ∈ relaEntries threeSlots := by
    rw [hentries]
    simp
  have hfirst := hwords _ hmem.1 _ hfunction
  have hsecond := hwords _ hmem.2.1 _ hword
  have hthird := hwords _ hmem.2.2 _ hpointer
  exact ⟨_, Prod.ext hzero rfl, hfirst, hsecond, hthird⟩

end UntitledOs.Bin
