import UntitledOs.Bin.Elf

/-!
# Relocation with addends

What a relocation entry asks for is stated from the address of its symbol at run
time, as the symbol tables of the files have it: the API address, or the first
definition of the name that the lookup can meet.  `elfRelocateSymbolAddend`
stores that value for the types that overwrite the target; the others add to
what the target held.
-/

namespace UntitledOs.Bin

open Lib

/-- What the loader takes for the address of a symbol of an image loaded at `base`. -/
def symbolAddress (base : Nat) (sym : ElfSymbol) : Nat :=
  if sym.hdtIndex = elfSectIndexAbsolute then sym.value else u64 (base + sym.value)

def relocSymbol (header : ElfImage) (reltb : ElfSection) (info : Nat) : ElfSymbol :=
  elfGetSymbol header reltb.link (elfRelocSym info)

def relocName (header : ElfImage) (reltb : ElfSection) (info : Nat) : String :=
  elfGetStrtable header (elfGetSection header reltb.link).link
    (relocSymbol header reltb info).name

def apiEntry (g : Loader) (name : String) : Option (String × Nat) :=
  g.gmapi.find? fun entry => entry.1 == name

def firstCandidate (g : Loader) (header : ElfImage) (name : String) : Option Candidate :=
  (candidates g header).find? fun c => c.name == name

section File

/-! The same from the symbol tables of the files: an entry is a definition by its section index. -/

/-- The address of a symbol of an image loaded at `base`. -/
def Elf64Symbol.address (base : Nat) (s : Elf64Symbol) : Nat :=
  if s.sectionIndex = elfSectIndexAbsolute then s.value else u64 (base + s.value)

/-- A symbol table entry of a file under its name, with the module that holds it. -/
structure FileCandidate where
  name : String
  sym : Elf64Symbol
  mod : Option Module

def FileCandidate.base (header : ElfImage) (c : FileCandidate) : Nat :=
  match c.mod with
  | some m => m.elfData.base
  | none => header.base

def fileCandidatesOf (file : Bytes) (header : ElfImage) (mod : Option Module) :
    List FileCandidate :=
  (List.range header.shtEntryCount).flatMap fun i =>
    let sect := header.sections i
    if isSymbolTable sect then
      (List.range (sect.size / sect.entrySize)).map fun j =>
        let sym := fileSymbol file header i j
        ⟨elfGetStrtable header sect.link sym.name, sym, mod⟩
    else []

/-- The entries that a lookup meets, in its order. -/
def fileCandidates (file : Bytes) (g : Loader) (header : ElfImage) : List FileCandidate :=
  (searchedModules g.dependencies g.gmt (some header)).flatMap
    (fun m => fileCandidatesOf file m.elfData (some m)) ++ fileCandidatesOf file header none

def firstEntry (file : Bytes) (g : Loader) (header : ElfImage) (name : String) :
    Option FileCandidate :=
  (fileCandidates file g header).find? fun c => c.name == name

def firstDefinition (file : Bytes) (g : Loader) (header : ElfImage) (name : String) :
    Option FileCandidate :=
  (fileCandidates file g header).find? fun c => c.name == name && c.sym.sectionIndex != 0

/-- The symbol that a relocation refers to. -/
def fileRelocSymbol (file : Bytes) (header : ElfImage) (reltb : ElfSection) (info : Nat) :
    Elf64Symbol :=
  fileSymbol file header reltb.link (elfRelocSym info)

/-- The address at run time of the symbol that a relocation refers to. -/
def runtimeAddress (file : Bytes) (g : Loader) (header : ElfImage) (reltb : ElfSection)
    (info : Nat) : Option Nat :=
  if elfRelocSym info = 0 then some 0
  else if (fileRelocSymbol file header reltb info).sectionIndex ≠ 0 then
    some ((fileRelocSymbol file header reltb info).address header.base)
  else
    match apiEntry g (relocName header reltb info) with
    | some entry => some entry.2
    | none => (firstDefinition file g header (relocName header reltb info)).map fun c =>
        c.sym.address (c.base header)

/-- The loader reads the image and the searched modules from `file`. -/
structure LoadedFiles (file : Bytes) (g : Loader) (header : ElfImage) : Prop where
  image : LoadedSymbols file header
  modules : ∀ m ∈ searchedModules g.dependencies g.gmt (some header), LoadedSymbols file m.elfData

/-- A relocation table is linked to a symbol table of the image. -/
structure Linked (header : ElfImage) (reltb : ElfSection) (info : Nat) : Prop where
  link_lt : reltb.link < header.shtEntryCount
  isTable : isSymbolTable (header.sections reltb.link) = true
  sym_lt : elfRelocSym info <
    (header.sections reltb.link).size / (header.sections reltb.link).entrySize

variable {file : Bytes} {g : Loader} {header : ElfImage}

theorem candidatesOf_eq (h : LoadedSymbols file header) (mod : Option Module) :
    candidatesOf header mod =
      (fileCandidatesOf file header mod).map fun c => ⟨c.name, c.sym.read, c.mod⟩ := by
  unfold candidatesOf symbolsOf fileCandidatesOf
  rw [List.map_flatMap, List.map_flatMap]
  congr 1
  funext i
  by_cases htab : isSymbolTable (header.sections i) = true
  · simp only [htab, if_true, List.map_map]
    refine List.map_congr_left fun j _ => ?_
    have hread : (header.sections i).symbol j = (fileSymbol file header i j).read := h.read i j
    simp only [Function.comp_apply, hread]
    rfl
  · simp [htab]

/-- The lookup meets the entries of the files, as it reads them. -/
theorem LoadedFiles.firstCandidate (h : LoadedFiles file g header) (name : String) :
    firstCandidate g header name =
      (firstEntry file g header name).map fun c => ⟨c.name, c.sym.read, c.mod⟩ := by
  have hmap : candidates g header =
      (fileCandidates file g header).map fun c => ⟨c.name, c.sym.read, c.mod⟩ := by
    unfold candidates fileCandidates
    rw [List.map_append, List.map_flatMap, candidatesOf_eq h.image]
    congr 1
    exact List.flatMap_congr fun m hm => candidatesOf_eq (h.modules m hm) (some m)
  unfold Bin.firstCandidate firstEntry
  rw [hmap, List.find?_map]
  rfl

/-- The symbol of a linked entry is itself among the entries that the lookup meets. -/
theorem Linked.mem_candidates {reltb : ElfSection} {info : Nat} (h : Linked header reltb info) :
    ⟨relocName header reltb info, relocSymbol header reltb info, none⟩ ∈ candidates g header := by
  unfold candidates candidatesOf
  refine List.mem_append_right _ (List.mem_map.mpr
    ⟨(relocName header reltb info, relocSymbol header reltb info), ?_, rfl⟩)
  unfold symbolsOf
  refine List.mem_flatMap.mpr ⟨reltb.link, List.mem_range.mpr h.link_lt, ?_⟩
  rw [if_pos h.isTable]
  exact List.mem_map.mpr ⟨elfRelocSym info, List.mem_range.mpr h.sym_lt, rfl⟩

theorem Linked.firstCandidate {reltb : ElfSection} {info : Nat} (h : Linked header reltb info) :
    ∃ c, firstCandidate g header (relocName header reltb info) = some c := by
  refine Option.isSome_iff_exists.mp ?_
  unfold Bin.firstCandidate
  rw [List.find?_isSome]
  exact ⟨_, h.mem_candidates, beq_self_eq_true _⟩

end File

def supportedType (type : Nat) : Prop :=
  type = elfRelocType32 ∨ type = elfRelocTypePc32 ∨ type = elfRelocTypeGlobDat ∨
    type = elfRelocTypeJmpSlot ∨ type = elfRelocTypeRelative

instance (type : Nat) : Decidable (supportedType type) := by
  unfold supportedType; infer_instance

/-- `S + A`, `S + A - P`, `B + A` and `S`, by the type of the relocation. -/
def relocationValue (type s a p b : Nat) : Nat :=
  if type = elfRelocType32 then s + a
  else if type = elfRelocTypePc32 then s + a + (2 ^ 64 - p)
  else if type = elfRelocTypeRelative then b + a
  else s

def relocationWidth (type : Nat) : Nat := if type = elfRelocTypePc32 then 4 else 8

/-- The entry is relocated to the value for the symbol address `s`, from every
memory, and nothing else is written. -/
def Relocates (g : Loader) (header : ElfImage) (rela : ElfRelocAddend) (reltb : ElfSection)
    (s : Nat) : Prop :=
  let p := u64 (header.base + rela.offset)
  let type := elfRelocType rela.info
  let w := relocationWidth type
  ∀ m, (elfRelocateSymbolAddend g header rela reltb m).1 = 0 ∧
    getLe (elfRelocateSymbolAddend g header rela reltb m).2 p w =
      relocationValue type s (wordOf rela.addend) p header.base % 256 ^ w ∧
    ∀ i, i < p ∨ p + w ≤ i → (elfRelocateSymbolAddend g header rela reltb m).2 i = m i

theorem store_of_outside {m : Bytes} {target v i : Nat} (h : i < target ∨ target + 8 ≤ i) :
    store m target v i = m i := setLe_of_outside h

theorem getLe_store (m : Bytes) (target v : Nat) {w : Nat} (hw : w ≤ 8) :
    getLe (store m target v) target w = v % 256 ^ w := by
  have hdvd : 256 ^ w ∣ 2 ^ 64 := by
    rw [show (2 : Nat) ^ 64 = 256 ^ 8 by norm_num]
    exact pow_dvd_pow 256 hw
  unfold store u64
  rw [getLe_setLe_le m target _ hw, Nat.mod_mod_of_dvd _ hdvd]

/-- A value that is added to what the target held depends on it. -/
theorem getLe_store_old_ne {target k w x : Nat} (hpos : 0 < w) (hw : w ≤ 8) :
    ¬ ∀ m : Bytes, getLe (store m target (getLe m target 8 + k)) target w = x := by
  intro h
  have hzero := h (setLe (fun _ => 0) target 8 0)
  have hone := h (setLe (fun _ => 0) target 8 1)
  rw [getLe_store _ _ _ hw, getLe_setLe] at hzero hone
  have hbig : 1 < 256 ^ w := Nat.one_lt_pow (by omega) (by norm_num)
  rw [show 0 % 256 ^ 8 + k = k by simp] at hzero
  rw [show 1 % 256 ^ 8 + k = k + 1 by norm_num; omega, ← hzero, Nat.add_mod] at hone
  have hlt := Nat.mod_lt k (show 256 ^ w > 0 by omega)
  rw [Nat.mod_eq_of_lt hbig] at hone
  rcases Nat.lt_or_ge (k % 256 ^ w + 1) (256 ^ w) with hc | hc
  · rw [Nat.mod_eq_of_lt hc] at hone
    omega
  · rw [show k % 256 ^ w + 1 = 256 ^ w by omega, Nat.mod_self] at hone
    omega

section SymbolValue

variable {g : Loader} {header : ElfImage} {symtable : ElfSection} {sym : ElfSymbol}

theorem elfGetSymbolValue_api (hext : sym.hdtIndex = 0) {entry : String × Nat}
    (hapi : apiEntry g (elfGetStrtable header symtable.link sym.name) = some entry) :
    elfGetSymbolValue g header symtable sym = (entry.2, elfHintMloaderApi) := by
  unfold apiEntry at hapi
  unfold elfGetSymbolValue
  rw [if_pos hext]
  simp only [hapi]

theorem elfGetSymbolValue_candidate (hext : sym.hdtIndex = 0)
    (hapi : apiEntry g (elfGetStrtable header symtable.link sym.name) = none) {c : Candidate}
    (hc : firstCandidate g header (elfGetStrtable header symtable.link sym.name) = some c) :
    elfGetSymbolValue g header symtable sym =
      match c.mod with
      | some m => (u64 (c.sym.value + m.elfData.base), elfHintOtherModule)
      | none => (c.sym.value, 0) := by
  unfold apiEntry at hapi
  unfold firstCandidate at hc
  unfold elfGetSymbolValue
  rw [if_pos hext]
  simp only [hapi, elfLookupSymbol_eq, hc, Option.map_some]
  cases c.mod with
  | none => rfl
  | some m => rfl

theorem elfGetSymbolValue_missing (hext : sym.hdtIndex = 0)
    (hapi : apiEntry g (elfGetStrtable header symtable.link sym.name) = none)
    (hc : firstCandidate g header (elfGetStrtable header symtable.link sym.name) = none) :
    elfGetSymbolValue g header symtable sym =
      if elfSymbolInfoBind sym &&& elfSymbolBindWeak ≠ 0 then
        (0, if g.staleMod symtable sym then elfHintOtherModule else 0)
      else (0, elfErrExternSymbolNotDefined) := by
  unfold apiEntry at hapi
  unfold firstCandidate at hc
  unfold elfGetSymbolValue
  rw [if_pos hext]
  simp only [hapi, elfLookupSymbol_eq, hc, Option.map_none]

theorem elfGetSymbolValue_internal (hint : sym.hdtIndex ≠ 0) :
    elfGetSymbolValue g header symtable sym = (symbolAddress header.base sym, 0) := by
  unfold elfGetSymbolValue symbolAddress
  rw [if_neg hint]
  split <;> rfl

end SymbolValue

theorem relocSymval_eq {g : Loader} {header : ElfImage} {reltb : ElfSection} {info : Nat}
    (hsym : elfRelocSym info ≠ 0) :
    relocSymval g header reltb info = elfGetSymbolValue g header (elfGetSection header reltb.link)
      (relocSymbol header reltb info) := if_pos hsym

/-- What the loader finds for the symbol of a linked entry. -/
theorem relocSymval_cases {file : Bytes} {g : Loader} {header : ElfImage} {reltb : ElfSection}
    {info : Nat} (hload : LoadedFiles file g header)
    (hlinked : elfRelocSym info ≠ 0 → Linked header reltb info) :
    (elfRelocSym info = 0 ∧ relocSymval g header reltb info = (0, 0)) ∨
    elfRelocSym info ≠ 0 ∧
      (((fileRelocSymbol file header reltb info).size / 2 ^ 48 ≠ 0 ∧
        relocSymval g header reltb info =
          (symbolAddress header.base (fileRelocSymbol file header reltb info).read, 0)) ∨
      (fileRelocSymbol file header reltb info).size / 2 ^ 48 = 0 ∧
        ((∃ entry, apiEntry g (relocName header reltb info) = some entry ∧
          relocSymval g header reltb info = (entry.2, elfHintMloaderApi)) ∨
        apiEntry g (relocName header reltb info) = none ∧
          ∃ c, firstEntry file g header (relocName header reltb info) = some c ∧
            relocSymval g header reltb info =
              match c.mod with
              | some m => (u64 (c.sym.value + m.elfData.base), elfHintOtherModule)
              | none => (c.sym.value, 0))) := by
  by_cases hsym : elfRelocSym info = 0
  · exact .inl ⟨hsym, if_neg (not_not.mpr hsym)⟩
  have hread : relocSymbol header reltb info = (fileRelocSymbol file header reltb info).read :=
    hload.image.read _ _
  refine .inr ⟨hsym, ?_⟩
  rw [relocSymval_eq hsym, ← hread]
  by_cases hext : (fileRelocSymbol file header reltb info).size / 2 ^ 48 = 0
  · have hindex : (relocSymbol header reltb info).hdtIndex = 0 := by
      rw [hread]
      exact hext
    refine .inr ⟨hext, ?_⟩
    cases hapi : apiEntry g (relocName header reltb info) with
    | some entry => exact .inl ⟨entry, rfl, elfGetSymbolValue_api hindex hapi⟩
    | none =>
        obtain ⟨c, hc⟩ := (hlinked hsym).firstCandidate (g := g)
        have hvalue := elfGetSymbolValue_candidate hindex hapi hc
        rw [hload.firstCandidate] at hc
        obtain ⟨d, hd, rfl⟩ := Option.map_eq_some_iff.mp hc
        exact .inr ⟨rfl, d, hd, hvalue⟩
  · refine .inl ⟨hext, elfGetSymbolValue_internal ?_⟩
    rw [hread]
    exact hext

theorem relocSymval_defined {file : Bytes} {g : Loader} {header : ElfImage} {reltb : ElfSection}
    {info : Nat} (hload : LoadedFiles file g header)
    (hlinked : elfRelocSym info ≠ 0 → Linked header reltb info) :
    (relocSymval g header reltb info).2 ≠ elfErrExternSymbolNotDefined := by
  rcases relocSymval_cases hload hlinked with
    ⟨-, hr⟩ | ⟨-, ⟨-, hr⟩ | ⟨-, ⟨entry, -, hr⟩ | ⟨-, c, -, hr⟩⟩⟩
  · rw [hr]
    show (0 : Int) ≠ -5
    decide
  · rw [hr]
    show (0 : Int) ≠ -5
    decide
  · rw [hr]
    show (-100 : Int) ≠ -5
    decide
  · rw [hr]
    cases c.mod with
    | none =>
        show (0 : Int) ≠ -5
        decide
    | some m =>
        show (-101 : Int) ≠ -5
        decide

theorem relocates_store_iff {g : Loader} {header : ElfImage} {rela : ElfRelocAddend}
    {reltb : ElfSection} {s v : Nat} (hw : relocationWidth (elfRelocType rela.info) = 8)
    (hrun : ∀ m, elfRelocateSymbolAddend g header rela reltb m =
      (0, store m (u64 (header.base + rela.offset)) v)) :
    Relocates g header rela reltb s ↔
      u64 v = u64 (relocationValue (elfRelocType rela.info) s (wordOf rela.addend)
        (u64 (header.base + rela.offset)) header.base) := by
  unfold Relocates
  simp only [hrun, hw, getLe_store _ _ _ (le_refl 8)]
  rw [show 256 ^ 8 = 2 ^ 64 by norm_num]
  constructor
  · intro h
    exact (h fun _ => 0).2.1
  · intro h m
    exact ⟨trivial, h, fun i hi => store_of_outside hi⟩

theorem not_relocates_of_added {g : Loader} {header : ElfImage} {rela : ElfRelocAddend}
    {reltb : ElfSection} {s k : Nat}
    (hrun : ∀ m, elfRelocateSymbolAddend g header rela reltb m =
      (0, store m (u64 (header.base + rela.offset))
        (getLe m (u64 (header.base + rela.offset)) 8 + k))) :
    ¬ Relocates g header rela reltb s := by
  intro h
  have hwidth : 0 < relocationWidth (elfRelocType rela.info) ∧
      relocationWidth (elfRelocType rela.info) ≤ 8 := by
    unfold relocationWidth
    split <;> omega
  unfold Relocates at h
  simp only [hrun] at h
  exact getLe_store_old_ne hwidth.1 hwidth.2 fun m => (h m).2.1

theorem u64_add_base_ne {header : ElfImage} {v : Nat} : u64 (v + header.base) ≠ u64 v := by
  have hpos := header.base_pos
  have hlt := header.base_lt
  unfold u64
  omega

/--
What the loader puts into a slot is at `s`: the API entry of the symbol's name, or
else the first entry of that name that the search meets; a symbol of 2^48 bytes
and more is taken for one of the image, and the load address added twice.
-/
def SlotBound (file : Bytes) (g : Loader) (header : ElfImage) (reltb : ElfSection) (info s : Nat) :
    Prop :=
  elfRelocSym info ≠ 0 ∧
    if (fileRelocSymbol file header reltb info).size / 2 ^ 48 = 0 then
      match apiEntry g (relocName header reltb info) with
      | some entry => u64 entry.2 = u64 s
      | none => ∃ c, firstEntry file g header (relocName header reltb info) = some c ∧
          u64 (c.base header + c.sym.value) = u64 s
    else
      u64 (symbolAddress header.base (fileRelocSymbol file header reltb info).read + header.base) =
        u64 s

/-- The word stored for `R_X86_64_JUMP_SLOT`. -/
def jmpSlotWord (header : ElfImage) (r : Nat × Int) : Nat :=
  if r.2 = elfHintMloaderApi ∨ r.2 = elfHintOtherModule then r.1 else r.1 + header.base

theorem elfRelocateSymbolAddend_jmpSlot {g : Loader} {header : ElfImage} {reltb : ElfSection}
    {rela : ElfRelocAddend} (htype : elfRelocType rela.info = elfRelocTypeJmpSlot)
    (herr : (relocSymval g header reltb rela.info).2 ≠ elfErrExternSymbolNotDefined) (m : Bytes) :
    elfRelocateSymbolAddend g header rela reltb m =
      (0, store m (u64 (header.base + rela.offset))
        (jmpSlotWord header (relocSymval g header reltb rela.info))) := by
  unfold elfRelocateSymbolAddend jmpSlotWord
  simp only [htype, herr, if_false]
  rw [if_neg (by decide), if_neg (by decide), if_neg (by decide), if_neg (by decide), if_true]
  split <;> rfl

theorem relocates_jmpSlot_iff {file : Bytes} {g : Loader} {header : ElfImage} {reltb : ElfSection}
    {rela : ElfRelocAddend} {s : Nat} (htype : elfRelocType rela.info = elfRelocTypeJmpSlot)
    (hload : LoadedFiles file g header)
    (hlinked : elfRelocSym rela.info ≠ 0 → Linked header reltb rela.info)
    (hs : runtimeAddress file g header reltb rela.info = some s) :
    Relocates g header rela reltb s ↔ SlotBound file g header reltb rela.info s := by
  have hrun := elfRelocateSymbolAddend_jmpSlot htype (relocSymval_defined hload hlinked)
  have hiff : Relocates g header rela reltb s ↔
      u64 (jmpSlotWord header (relocSymval g header reltb rela.info)) = u64 s := by
    rw [relocates_store_iff (by rw [htype]; rfl) hrun, htype]
    rfl
  unfold SlotBound
  rcases relocSymval_cases hload hlinked with
    ⟨hsym, hr⟩ | ⟨hsym, ⟨hint, hr⟩ | ⟨hext, ⟨entry, hapi, hr⟩ | ⟨hapi, c, hc, hr⟩⟩⟩
  · -- without a symbol the loader stores its load address
    rw [runtimeAddress, if_pos hsym, Option.some.injEq] at hs
    subst hs
    rw [hiff, hr]
    exact iff_of_false u64_add_base_ne fun h => h.1 hsym
  · rw [hiff, hr, if_neg hint]
    exact (and_iff_right hsym).symm
  · rw [hiff, hr, if_pos hext, hapi]
    exact (and_iff_right hsym).symm
  · rw [hiff, hr, if_pos hext, hapi]
    have hfirst : (elfRelocSym rela.info ≠ 0 ∧
        ∃ d, firstEntry file g header (relocName header reltb rela.info) = some d ∧
          u64 (d.base header + d.sym.value) = u64 s) ↔
        u64 (c.base header + c.sym.value) = u64 s := by
      simp [hsym, hc]
    rw [hfirst]
    unfold FileCandidate.base
    cases hmod : c.mod with
    | none =>
        rw [Nat.add_comm header.base]
        rfl
    | some d =>
        have hword : u64 (jmpSlotWord header (u64 (c.sym.value + d.elfData.base),
            elfHintOtherModule)) = u64 (c.sym.value + d.elfData.base) := Nat.mod_mod _ _
        rw [hword, Nat.add_comm d.elfData.base]

theorem elfRelocateSymbolAddend_added {g : Loader} {header : ElfImage} {reltb : ElfSection}
    {rela : ElfRelocAddend}
    (htype : elfRelocType rela.info = elfRelocType32 ∨ elfRelocType rela.info = elfRelocTypePc32 ∨
      elfRelocType rela.info = elfRelocTypeGlobDat)
    (herr : (relocSymval g header reltb rela.info).2 ≠ elfErrExternSymbolNotDefined) :
    ∃ k, ∀ m, elfRelocateSymbolAddend g header rela reltb m =
      (0, store m (u64 (header.base + rela.offset))
        (getLe m (u64 (header.base + rela.offset)) 8 + k)) := by
  unfold elfRelocateSymbolAddend
  rcases htype with htype | htype | htype
  · refine ⟨(relocSymval g header reltb rela.info).1 + wordOf rela.addend, fun m => ?_⟩
    simp only [htype, herr, if_false]
    rw [if_neg (by decide), if_true, Nat.add_assoc]
  · refine ⟨(relocSymval g header reltb rela.info).1 + wordOf rela.addend +
      (2 ^ 64 - u64 (header.base + rela.offset)), fun m => ?_⟩
    simp only [htype, herr, if_false]
    rw [if_neg (by decide), if_neg (by decide), if_true]
    simp only [Nat.add_assoc]
  · by_cases hmod : (relocSymval g header reltb rela.info).2 = elfHintOtherModule
    · refine ⟨(relocSymval g header reltb rela.info).1, fun m => ?_⟩
      simp only [htype, herr, if_false]
      rw [if_neg (by decide), if_neg (by decide), if_neg (by decide), if_true, if_pos hmod]
    · refine ⟨(relocSymval g header reltb rela.info).1 + header.base, fun m => ?_⟩
      simp only [htype, herr, if_false]
      rw [if_neg (by decide), if_neg (by decide), if_neg (by decide), if_true, if_neg hmod,
        Nat.add_assoc]

theorem elfRelocateSymbolAddend_relative {g : Loader} {header : ElfImage} {reltb : ElfSection}
    {rela : ElfRelocAddend} (htype : elfRelocType rela.info = elfRelocTypeRelative)
    (herr : (relocSymval g header reltb rela.info).2 ≠ elfErrExternSymbolNotDefined) (m : Bytes) :
    elfRelocateSymbolAddend g header rela reltb m =
      (0, store m (u64 (header.base + rela.offset)) (header.base + wordOf rela.addend)) := by
  unfold elfRelocateSymbolAddend
  simp only [htype, herr, if_false]
  rw [if_neg (by decide), if_neg (by decide), if_neg (by decide), if_neg (by decide),
    if_neg (by decide), if_true]

/-- An entry of a linked table is relocated as its type asks exactly when it is of type `RELATIVE`,
or of type `JMP_SLOT` and what the loader finds by its name is the symbol. -/
theorem relocates_iff {file : Bytes} {g : Loader} {header : ElfImage} {reltb : ElfSection}
    {rela : ElfRelocAddend} {s : Nat} (hsup : supportedType (elfRelocType rela.info))
    (hload : LoadedFiles file g header)
    (hlinked : elfRelocSym rela.info ≠ 0 → Linked header reltb rela.info)
    (hs : runtimeAddress file g header reltb rela.info = some s) :
    Relocates g header rela reltb s ↔
      elfRelocType rela.info = elfRelocTypeRelative ∨
      (elfRelocType rela.info = elfRelocTypeJmpSlot ∧
        SlotBound file g header reltb rela.info s) := by
  have hdefined := relocSymval_defined hload hlinked
  have hadded (htype : elfRelocType rela.info = elfRelocType32 ∨
      elfRelocType rela.info = elfRelocTypePc32 ∨
      elfRelocType rela.info = elfRelocTypeGlobDat) : ¬ Relocates g header rela reltb s := by
    obtain ⟨k, hk⟩ := elfRelocateSymbolAddend_added htype hdefined
    exact not_relocates_of_added hk
  rcases hsup with htype | htype | htype | htype | htype
  · refine iff_of_false (hadded (Or.inl htype)) ?_
    rw [htype]
    exact fun h => h.elim (by decide) fun h => absurd h.1 (by decide)
  · refine iff_of_false (hadded (Or.inr (Or.inl htype))) ?_
    rw [htype]
    exact fun h => h.elim (by decide) fun h => absurd h.1 (by decide)
  · refine iff_of_false (hadded (Or.inr (Or.inr htype))) ?_
    rw [htype]
    exact fun h => h.elim (by decide) fun h => absurd h.1 (by decide)
  · rw [relocates_jmpSlot_iff htype hload hlinked hs]
    constructor
    · intro h
      exact Or.inr ⟨htype, h⟩
    · rintro (h | h)
      · rw [htype] at h
        exact absurd h (by decide)
      · exact h.2
  · refine iff_of_true ?_ (Or.inl htype)
    rw [relocates_store_iff (by rw [htype]; rfl)
      (elfRelocateSymbolAddend_relative htype hdefined), htype]
    rfl

/-- The loader with one API entry and no modules. -/
def apiLoader (entry : String × Nat) : Loader := ⟨[entry], [], none, fun _ _ => false⟩

/-- A slot for an API function. -/
def apiSlot : ElfImage :=
  symbolImage "kmalloc" ⟨1, 0, 0x12, 0⟩ ⟨0x200, 1 * 2 ^ 32 + 7, 0⟩

/-- An image whose symbols are those of a file at its load address. -/
def readFrom (file : Bytes) (image : ElfImage) : ElfImage := { image with
  sections := fun i => { image.sections i with
    symbol := fun j =>
      elfSymbolAt file (image.base + (image.sections i).offset + j * elfSymbolSize) } }

theorem loadedSymbols_readFrom (file : Bytes) (image : ElfImage) :
    LoadedSymbols file (readFrom file image) := fun _ _ => rfl

/-- The symbol after the null symbol of an image at `base`: 8 bytes with the name 1. -/
def withSymbol (file : Bytes) (base sectionIndex value : Nat) : Bytes :=
  [(base + 0x58, 4, 1), (base + 0x5C, 1, 0x12), (base + 0x5E, 2, sectionIndex),
    (base + 0x60, 8, value), (base + 0x68, 8, 8)].foldl (fun m w => setLe m w.1 w.2.1 w.2.2) file

/-- The files of a module that defines `helper` at `0x80`, and of an image with a slot for it. -/
def helperFile : Bytes := withSymbol (withSymbol (fun _ => 0) 0x300000 1 0x80) 0x100000 0 0

def helperModule : Module := ⟨"helpers", readFrom helperFile
  { symbolImage "helper" ⟨0, 0, 0, 0⟩ ⟨0, 0, 0⟩ with
    base := 0x300000
    base_pos := by decide
    base_lt := by decide }⟩

def helperSlot : ElfImage :=
  readFrom helperFile (symbolImage "helper" ⟨0, 0, 0, 0⟩ ⟨0x200, 1 * 2 ^ 32 + 7, 0⟩)

def helperLoader : Loader := ⟨[], [helperModule], some ["helpers"], fun _ _ => false⟩

theorem helperFile_loaded : LoadedFiles helperFile helperLoader helperSlot where
  image := loadedSymbols_readFrom _ _
  modules m hm := by
    obtain rfl : m = helperModule := List.mem_singleton.mp (List.mem_filter.mp hm).1
    exact loadedSymbols_readFrom _ _

/-- The slot gets the address of the function in the other module. -/
theorem relocates_helperSlot : runtimeAddress helperFile helperLoader helperSlot
      (helperSlot.sections 2) (1 * 2 ^ 32 + 7) = some 0x300080 ∧
    Relocates helperLoader helperSlot ((helperSlot.sections 2).rela 0) (helperSlot.sections 2)
      0x300080 := by
  have hs : runtimeAddress helperFile helperLoader helperSlot (helperSlot.sections 2)
      (1 * 2 ^ 32 + 7) = some 0x300080 := by decide +kernel
  refine ⟨hs, (@relocates_iff helperFile _ _ _ ((helperSlot.sections 2).rela 0) _ (by decide)
    helperFile_loaded (fun _ => ⟨by decide, by decide, by decide⟩) hs).mpr
      (.inr ⟨by decide, by decide, ?_⟩)⟩
  have hentry : (firstEntry helperFile helperLoader helperSlot
      (relocName helperSlot (helperSlot.sections 2) (1 * 2 ^ 32 + 7))).map (fun c =>
        u64 (c.base helperSlot + c.sym.value)) = some (u64 0x300080) := by decide +kernel
  obtain ⟨c, hc, haddress⟩ := Option.map_eq_some_iff.mp hentry
  rw [if_pos (by decide +kernel)]
  exact ⟨c, hc, haddress⟩

/-- A 64-bit relocation against a symbol of the image, which is at `0x100040`. -/
def wordFile : Bytes := withSymbol (fun _ => 0) 0x100000 3 0x40

def wordImage : ElfImage :=
  readFrom wordFile (symbolImage "counter" ⟨0, 0, 0, 0⟩ ⟨0x200, 1 * 2 ^ 32 + 1, 8⟩)

theorem not_relocates_word : LoadedFiles wordFile (apiLoader ("kmalloc", 0x5000)) wordImage ∧
    runtimeAddress wordFile (apiLoader ("kmalloc", 0x5000)) wordImage (wordImage.sections 2)
      (1 * 2 ^ 32 + 1) = some 0x100040 ∧
    ¬ Relocates (apiLoader ("kmalloc", 0x5000)) wordImage ((wordImage.sections 2).rela 0)
      (wordImage.sections 2) 0x100040 := by
  refine ⟨⟨loadedSymbols_readFrom _ _, fun m hm => by cases hm⟩, by decide +kernel, fun h => ?_⟩
  -- the word before relocation is 1, and the loader adds the value of the symbol alone
  have hword := (h (setLe (fun _ => 0) 0x100200 8 1)).2.1
  revert hword
  decide +kernel

end UntitledOs.Bin
