import UntitledOs.Bin.Relocation

/-!
# Unresolved symbols

A relocation fails when the lookup meets no entry of the name at all.  The lookup
takes undefined entries as well, so a name that is nowhere defined goes
unreported as soon as some searched table mentions it.
-/

namespace UntitledOs.Bin

open Lib

/-- The relocation entries that `elf_init_relocate` visits, as their table and
their `info`. -/
def Processed (header : ElfImage) (reltb : ElfSection) (info : Nat) : Prop :=
  ∃ i < header.shtEntryCount, header.sections i = reltb ∧
    ∃ j < reltb.size / reltb.entrySize,
      (reltb.type = elfSectTypeRel ∧ (reltb.rel j).info = info) ∨
      (reltb.type = elfSectTypeRela ∧ (reltb.rela j).info = info)

/-- A processed relocation against an undefined symbol that is no API name. -/
structure External (g : Loader) (header : ElfImage) (reltb : ElfSection) (info : Nat) : Prop where
  processed : Processed header reltb info
  sym_ne : elfRelocSym info ≠ 0
  undefined : (relocSymbol header reltb info).hdtIndex = 0
  not_api : apiEntry g (relocName header reltb info) = none

def AllSupported (header : ElfImage) : Prop :=
  ∀ reltb info, Processed header reltb info →
    elfRelocType info = elfRelocTypeNone ∨ supportedType (elfRelocType info)

def IsWeak (sym : ElfSymbol) : Prop := elfSymbolInfoBind sym = elfSymbolBindWeak

/-- The name has a definition in the image or in a module that may be searched. -/
def DefinedName (g : Loader) (header : ElfImage) (name : String) : Prop :=
  ∃ c ∈ candidates g header, c.name = name ∧ c.sym.hdtIndex ≠ 0

/-- Missing definitions are reported, and a run without an error bound every
external symbol to the API or to a definition. -/
def UnresolvedReported (g : Loader) (header : ElfImage) : Prop :=
  ∀ m,
    ((elfInitRelocate g header m).1 = elfErrExternSymbolNotDefined ↔
      ∃ reltb info, External g header reltb info ∧
        ¬ IsWeak (relocSymbol header reltb info) ∧
        ¬ DefinedName g header (relocName header reltb info)) ∧
    ((elfInitRelocate g header m).1 = 0 → ∀ reltb info, External g header reltb info →
      ∀ sym mod, elfLookupSymbol (relocName header reltb info) g.dependencies g.gmt (some header) =
        some (sym, mod) → sym.hdtIndex ≠ 0)

section UntilError

variable {α : Type} {step : α → Bytes → Int × Bytes} {e : Int}

theorem untilError_zero_iff {p : α → Prop} {xs : List α}
    (hstep : ∀ x ∈ xs, ∀ m, (step x m).1 = 0 ↔ p x) (m : Bytes) :
    (untilError step xs m).1 = 0 ↔ ∀ x ∈ xs, p x := by
  induction xs generalizing m with
  | nil => simp [untilError]
  | cons x xs ih =>
      have hx := hstep x (List.mem_cons_self ..) m
      unfold untilError
      by_cases hzero : (step x m).1 = 0
      · rw [if_neg (not_not.mpr hzero), ih fun y hy => hstep y (List.mem_cons_of_mem _ hy)]
        simp [hx.mp hzero]
      · rw [if_pos hzero]
        refine iff_of_false hzero fun h => hzero (hx.mpr ?_)
        exact h x (List.mem_cons_self ..)

theorem untilError_cases {xs : List α} (hstep : ∀ x ∈ xs, ∀ m, (step x m).1 = 0 ∨ (step x m).1 = e)
    (m : Bytes) : (untilError step xs m).1 = 0 ∨ (untilError step xs m).1 = e := by
  induction xs generalizing m with
  | nil => exact Or.inl rfl
  | cons x xs ih =>
      unfold untilError
      by_cases hzero : (step x m).1 = 0
      · rw [if_neg (not_not.mpr hzero)]
        exact ih (fun y hy => hstep y (List.mem_cons_of_mem _ hy)) _
      · rw [if_pos hzero]
        exact hstep x (List.mem_cons_self ..) m

end UntilError

/-- The error of one entry. -/
def relocError (g : Loader) (header : ElfImage) (reltb : ElfSection) (info : Nat) : Int :=
  if (relocSymval g header reltb info).2 = elfErrExternSymbolNotDefined then
    elfErrExternSymbolNotDefined
  else 0

theorem relocError_cases (g : Loader) (header : ElfImage) (reltb : ElfSection) (info : Nat) :
    relocError g header reltb info = 0 ∨
      relocError g header reltb info = elfErrExternSymbolNotDefined := by
  unfold relocError
  split
  · exact Or.inr rfl
  · exact Or.inl rfl

section Entry

variable {g : Loader} {header : ElfImage} {reltb : ElfSection}

theorem elfRelocateSymbol_error {rel : ElfReloc}
    (hsup : elfRelocType rel.info = elfRelocTypeNone ∨ supportedType (elfRelocType rel.info))
    (m : Bytes) :
    (elfRelocateSymbol g header rel reltb m).1 = relocError g header reltb rel.info := by
  unfold elfRelocateSymbol relocError
  by_cases herr : (relocSymval g header reltb rel.info).2 = elfErrExternSymbolNotDefined
  · simp only [herr, if_true]
  simp only [herr, if_false]
  unfold supportedType at hsup
  rcases hsup with h | h | h | h | h | h <;> rw [h] <;> rfl

theorem elfRelocateSymbolAddend_error {rela : ElfRelocAddend}
    (hsup : elfRelocType rela.info = elfRelocTypeNone ∨ supportedType (elfRelocType rela.info))
    (m : Bytes) :
    (elfRelocateSymbolAddend g header rela reltb m).1 = relocError g header reltb rela.info := by
  unfold elfRelocateSymbolAddend relocError
  by_cases herr : (relocSymval g header reltb rela.info).2 = elfErrExternSymbolNotDefined
  · simp only [herr, if_true]
  simp only [herr, if_false]
  unfold supportedType at hsup
  rcases hsup with h | h | h | h | h | h
  all_goals simp only [h]
  · rfl
  · rfl
  · rfl
  · rw [if_neg (by decide), if_neg (by decide), if_neg (by decide), if_true]
    split <;> rfl
  · rw [if_neg (by decide), if_neg (by decide), if_neg (by decide), if_neg (by decide), if_true]
    split <;> rfl
  · rfl

end Entry

section Run

variable {g : Loader} {header : ElfImage}

theorem relocateSection_zero_iff (hsup : AllSupported header) {i : Nat}
    (hi : i < header.shtEntryCount) (m : Bytes) :
    (relocateSection g header (header.sections i) m).1 = 0 ↔
      ∀ info, (∃ j < (header.sections i).size / (header.sections i).entrySize,
        ((header.sections i).type = elfSectTypeRel ∧ ((header.sections i).rel j).info = info) ∨
        ((header.sections i).type = elfSectTypeRela ∧ ((header.sections i).rela j).info = info)) →
        relocError g header (header.sections i) info = 0 := by
  unfold relocateSection
  by_cases hrel : (header.sections i).type = elfSectTypeRel
  · rw [if_pos hrel]
    have hne : (header.sections i).type ≠ elfSectTypeRela := by
      rw [hrel]
      decide
    rw [untilError_zero_iff (p := fun j =>
      relocError g header (header.sections i) ((header.sections i).rel j).info = 0)]
    · simp only [List.mem_range, hrel, true_and, hrel ▸ hne, false_and, or_false]
      constructor
      · rintro h info ⟨j, hj, rfl⟩
        exact h j hj
      · exact fun h j hj => h _ ⟨j, hj, rfl⟩
    · intro j hj m'
      rw [elfRelocateSymbol_error (hsup _ _ ⟨i, hi, rfl, j, List.mem_range.mp hj,
        Or.inl ⟨hrel, rfl⟩⟩)]
  · rw [if_neg hrel]
    by_cases hrela : (header.sections i).type = elfSectTypeRela
    · rw [if_pos hrela, untilError_zero_iff (p := fun j =>
        relocError g header (header.sections i) ((header.sections i).rela j).info = 0)]
      · simp only [List.mem_range, hrela, true_and, hrela ▸ hrel, false_and, false_or]
        constructor
        · rintro h info ⟨j, hj, rfl⟩
          exact h j hj
        · exact fun h j hj => h _ ⟨j, hj, rfl⟩
      · intro j hj m'
        rw [elfRelocateSymbolAddend_error (hsup _ _ ⟨i, hi, rfl, j, List.mem_range.mp hj,
          Or.inr ⟨hrela, rfl⟩⟩)]
    · rw [if_neg hrela]
      simp [hrel, hrela]

theorem elfInitRelocate_zero_iff (hsup : AllSupported header) (m : Bytes) :
    (elfInitRelocate g header m).1 = 0 ↔
      ∀ reltb info, Processed header reltb info → relocError g header reltb info = 0 := by
  unfold elfInitRelocate
  rw [untilError_zero_iff fun i hi m' =>
    relocateSection_zero_iff hsup (List.mem_range.mp hi) m']
  constructor
  · rintro h reltb info ⟨i, hi, rfl, j, hj, hinfo⟩
    exact h i (List.mem_range.mpr hi) info ⟨j, hj, hinfo⟩
  · rintro h i hi info ⟨j, hj, hinfo⟩
    exact h _ _ ⟨i, List.mem_range.mp hi, rfl, j, hj, hinfo⟩

theorem elfInitRelocate_cases (hsup : AllSupported header) (m : Bytes) :
    (elfInitRelocate g header m).1 = 0 ∨
      (elfInitRelocate g header m).1 = elfErrExternSymbolNotDefined := by
  unfold elfInitRelocate
  refine untilError_cases (fun i hi m' => ?_) m
  have hi := List.mem_range.mp hi
  unfold relocateSection
  split
  · next hrel =>
      refine untilError_cases (fun j hj m'' => ?_) m'
      rw [elfRelocateSymbol_error (hsup _ _ ⟨i, hi, rfl, j, List.mem_range.mp hj,
        Or.inl ⟨hrel, rfl⟩⟩)]
      exact relocError_cases g header _ _
  · split
    · next hrela =>
        refine untilError_cases (fun j hj m'' => ?_) m'
        rw [elfRelocateSymbolAddend_error (hsup _ _ ⟨i, hi, rfl, j, List.mem_range.mp hj,
          Or.inr ⟨hrela, rfl⟩⟩)]
        exact relocError_cases g header _ _
    · exact Or.inl rfl

/-- The entries that fail. -/
theorem relocError_ne_zero_iff {reltb : ElfSection} {info : Nat}
    (hproc : Processed header reltb info) :
    relocError g header reltb info ≠ 0 ↔
      External g header reltb info ∧
        elfSymbolInfoBind (relocSymbol header reltb info) &&& elfSymbolBindWeak = 0 ∧
        firstCandidate g header (relocName header reltb info) = none := by
  have herr : relocError g header reltb info ≠ 0 ↔
      (relocSymval g header reltb info).2 = elfErrExternSymbolNotDefined := by
    unfold relocError
    split
    · next h => exact iff_of_true (by decide) h
    · next h => exact iff_of_false (fun hne => hne rfl) h
  rw [herr]
  by_cases hsym : elfRelocSym info = 0
  · unfold relocSymval
    rw [if_neg (not_not.mpr hsym)]
    exact iff_of_false (by show ¬ (0 : Int) = -5; decide) fun h => h.1.sym_ne hsym
  rw [relocSymval_eq hsym]
  by_cases hext : (relocSymbol header reltb info).hdtIndex = 0
  · cases hapi : apiEntry g (relocName header reltb info) with
    | some entry =>
        rw [elfGetSymbolValue_api hext hapi]
        refine iff_of_false (by show ¬ (-100 : Int) = -5; decide) fun h => ?_
        have := h.1.not_api
        rw [hapi] at this
        cases this
    | none =>
        cases hc : firstCandidate g header (relocName header reltb info) with
        | some c =>
            rw [elfGetSymbolValue_candidate hext hapi hc]
            refine iff_of_false ?_ fun h => by cases h.2.2
            cases c.mod with
            | none =>
                show ¬ (0 : Int) = -5
                decide
            | some d =>
                show ¬ (-101 : Int) = -5
                decide
        | none =>
            rw [elfGetSymbolValue_missing hext hapi hc]
            by_cases hweak : elfSymbolInfoBind (relocSymbol header reltb info) &&&
                elfSymbolBindWeak = 0
            · rw [if_neg (not_not.mpr hweak)]
              exact iff_of_true rfl ⟨⟨hproc, hsym, hext, hapi⟩, hweak, rfl⟩
            · rw [if_pos hweak]
              refine iff_of_false ?_ fun h => hweak h.2.1
              show ¬ (if g.staleMod _ _ then (-101 : Int) else 0) = -5
              split <;> decide
  · rw [elfGetSymbolValue_internal hext]
    exact iff_of_false (by show ¬ (0 : Int) = -5; decide) fun h => hext h.1.undefined

/-- The first entry that the search meets is a definition, or there is none and
the symbol is weak. -/
def FirstDefined (g : Loader) (header : ElfImage) (reltb : ElfSection) (info : Nat) : Prop :=
  (∃ c, firstCandidate g header (relocName header reltb info) = some c ∧ c.sym.hdtIndex ≠ 0) ∨
  (firstCandidate g header (relocName header reltb info) = none ∧
    IsWeak (relocSymbol header reltb info))

/-- No searched table mentions the name, and the weak bit is not set. -/
def NowhereMentioned (g : Loader) (header : ElfImage) (reltb : ElfSection) (info : Nat) : Prop :=
  elfSymbolInfoBind (relocSymbol header reltb info) &&& elfSymbolBindWeak = 0 ∧
    firstCandidate g header (relocName header reltb info) = none

theorem not_definedName_of_none {name : String} (h : firstCandidate g header name = none) :
    ¬ DefinedName g header name := by
  rintro ⟨c, hc, hname, -⟩
  unfold firstCandidate at h
  have := List.find?_eq_none.mp h c hc
  simp [hname] at this

theorem definedName_of_first {name : String} {c : Candidate}
    (h : firstCandidate g header name = some c) (hdef : c.sym.hdtIndex ≠ 0) :
    DefinedName g header name := by
  have hname := List.find?_some h
  exact ⟨c, List.mem_of_find?_eq_some h, by simpa using hname, hdef⟩

theorem NowhereMentioned.not_weak {reltb : ElfSection} {info : Nat}
    (h : NowhereMentioned g header reltb info) : ¬ IsWeak (relocSymbol header reltb info) := by
  intro hweak
  have hbit := h.1
  rw [show elfSymbolInfoBind (relocSymbol header reltb info) = elfSymbolBindWeak from hweak] at hbit
  exact absurd hbit (by decide)

theorem elfInitRelocate_fails_iff (hsup : AllSupported header) (m : Bytes) :
    (elfInitRelocate g header m).1 = elfErrExternSymbolNotDefined ↔
      ∃ reltb info, External g header reltb info ∧ NowhereMentioned g header reltb info := by
  have hnz : (elfInitRelocate g header m).1 = elfErrExternSymbolNotDefined ↔
      ¬ (elfInitRelocate g header m).1 = 0 := by
    rcases elfInitRelocate_cases (g := g) hsup m with h | h
    · rw [h]
      exact iff_of_false (by decide) (not_not.mpr rfl)
    · rw [h]
      exact iff_of_true rfl (by decide)
  rw [hnz, elfInitRelocate_zero_iff hsup]
  simp only [not_forall]
  constructor
  · rintro ⟨reltb, info, hproc, hne⟩
    have h := (relocError_ne_zero_iff hproc).mp hne
    exact ⟨reltb, info, h.1, h.2⟩
  · rintro ⟨reltb, info, hext, hnow⟩
    exact ⟨reltb, info, hext.processed,
      (relocError_ne_zero_iff hext.processed).mpr ⟨hext, hnow⟩⟩

/-- The undefined symbol is itself an entry that the search meets. -/
theorem Linked.not_nowhereMentioned {reltb : ElfSection} {info : Nat}
    (h : Linked header reltb info) : ¬ NowhereMentioned g header reltb info := by
  rintro ⟨-, hnone⟩
  obtain ⟨c, hc⟩ := h.firstCandidate (g := g)
  rw [hnone] at hc
  cases hc

/-- Relocation of a linked image never reports a missing symbol. -/
theorem elfInitRelocate_linked (hsup : AllSupported header)
    (hlink : ∀ reltb info, Processed header reltb info → Linked header reltb info) (m : Bytes) :
    (elfInitRelocate g header m).1 = 0 := by
  refine (elfInitRelocate_cases hsup m).resolve_right fun hfail => ?_
  obtain ⟨reltb, info, hext, hnow⟩ := (elfInitRelocate_fails_iff hsup m).mp hfail
  exact (hlink reltb info hext.processed).not_nowhereMentioned hnow

end Run

theorem processed_symbolImage {name : String} {sym : ElfSymbol} {rela : ElfRelocAddend}
    {reltb : ElfSection} {info : Nat} (h : Processed (symbolImage name sym rela) reltb info) :
    info = rela.info := by
  obtain ⟨i, -, rfl, j, -, ⟨hrel, -⟩ | ⟨-, rfl⟩⟩ := h
  · have hne : (if i = 0 then elfSectTypeDynsym else if i = 1 then 3 else elfSectTypeRela) ≠
        elfSectTypeRel := by
      split
      · decide
      · split <;> decide
    exact absurd hrel hne
  · rfl

theorem allSupported_symbolImage {name : String} {sym : ElfSymbol} {rela : ElfRelocAddend}
    (h : supportedType (elfRelocType rela.info)) : AllSupported (symbolImage name sym rela) :=
  fun _ _ hproc => Or.inr (processed_symbolImage hproc ▸ h)

/-- Slots for an API function and for a function that no symbol table mentions: the symbols of the
entries are in no symbol table. -/
def strippedSlots : ElfImage := { apiSlot with
  sections := fun i =>
    { type := if i = 2 then elfSectTypeRela else 1
      offset := 0x40
      size := 48
      link := if i = 0 then 1 else 0
      info := 0
      entrySize := 24
      strings := fun o => if o = 1 then "kmalloc" else "missing"
      symbol := fun j => if j = 1 then ⟨1, 0, 0x12, 0⟩ else ⟨9, 0, 0x12, 0⟩
      rel := fun _ => ⟨0, 0⟩
      rela := fun j => if j = 0 then ⟨0x200, 1 * 2 ^ 32 + 7, 0⟩ else ⟨0x208, 2 * 2 ^ 32 + 7, 0⟩ } }

/-- A slot for a function that nothing defines. -/
def missingSlot : ElfImage :=
  symbolImage "missing" ⟨1, 0, 0x12, 0⟩ ⟨0x200, 1 * 2 ^ 32 + 7, 0⟩

end UntitledOs.Bin
