import UntitledOs.Word
import UntitledOs.Lib.Bytes

/-!
# ELF images and their relocation

An image is given by the tables that the loader reads through its pointers:
entry `i` of a table is the value of a function at `i`, so an index past the end
of a table reads some entry as well.  The bytes that relocation writes are a
memory over absolute addresses.  The entries of a table stand as far apart in the
file as the loader's structures are long (`sht_entry_size` and `entry_size` are
their sizes), and no table of an image is a target of its own relocations.
-/

namespace UntitledOs.Bin

open Lib

structure ElfSymbol where
  name : Nat
  value : Nat
  info : Nat
  hdtIndex : Nat

structure ElfReloc where
  offset : Nat
  info : Nat

structure ElfRelocAddend where
  offset : Nat
  info : Nat
  addend : Int

/-- A section header together with what its bytes are when they are read as
strings, as symbols and as relocation entries. -/
structure ElfSection where
  type : Nat
  offset : Nat
  size : Nat
  link : Nat
  info : Nat
  entrySize : Nat
  strings : Nat → String
  symbol : Nat → ElfSymbol
  rel : Nat → ElfReloc
  rela : Nat → ElfRelocAddend

structure ElfImage where
  base : Nat
  shtEntryCount : Nat
  sections : Nat → ElfSection
  base_pos : 0 < base
  base_lt : base < 2 ^ 64

structure Module where
  name : String
  elfData : ElfImage

/-- What the loader reads besides the image: `gmapi`, `gmt`, the dependency list
of the module, and whether the uninitialised `val_mod` of a call of
`elf_get_symbol_value` on a table and a symbol is not `NULL`. -/
structure Loader where
  gmapi : List (String × Nat)
  gmt : List Module
  dependencies : Option (List String)
  staleMod : ElfSection → ElfSymbol → Bool

def elfSectTypeSymtab : Nat := 2
def elfSectTypeRela : Nat := 4
def elfSectTypeRel : Nat := 9
def elfSectTypeDynsym : Nat := 11

def elfSectIndexAbsolute : Nat := 0xFFF1

def elfSymbolBindWeak : Nat := 2

def elfRelocTypeNone : Nat := 0
def elfRelocType32 : Nat := 1
def elfRelocTypePc32 : Nat := 2
def elfRelocTypeGlobDat : Nat := 6
def elfRelocTypeJmpSlot : Nat := 7
def elfRelocTypeRelative : Nat := 8

def elfErrExternSymbolNotDefined : Int := -5
def elfErrUnsupportedRelocationType : Int := -6

def elfHintMloaderApi : Int := -100
def elfHintOtherModule : Int := -101

def elfSymbolInfoBind (s : ElfSymbol) : Nat := s.info >>> 4

def elfRelocSym (info : Nat) : Nat := info >>> 32

def elfRelocType (info : Nat) : Nat := info % 2 ^ 32

/-- A signed 64-bit number as the word that holds it. -/
def wordOf (a : Int) : Nat := (a % 2 ^ 64).toNat

def elfGetSection (header : ElfImage) (index : Nat) : ElfSection := header.sections index

def elfGetStrtable (header : ElfImage) (table : Nat) : Nat → String :=
  (elfGetSection header table).strings

def elfGetSymbol (header : ElfImage) (table ind : Nat) : ElfSymbol :=
  (elfGetSection header table).symbol ind

def isSymbolTable (sect : ElfSection) : Bool :=
  sect.type == elfSectTypeSymtab || sect.type == elfSectTypeDynsym

def elfLookupSymbolInElf (name : String) (header : ElfImage) : Option ElfSymbol :=
  (List.range header.shtEntryCount).findSome? fun i =>
    let sect := header.sections i
    if isSymbolTable sect then
      let stb := elfGetStrtable header sect.link
      (List.range (sect.size / sect.entrySize)).findSome? fun j =>
        let sym := sect.symbol j
        if stb sym.name = name then some sym else none
    else none

/-- The modules that are searched before the image itself. -/
def searchedModules (dependencies : Option (List String)) (mt : List Module)
    (header : Option ElfImage) : List Module :=
  match dependencies with
  | some deps => mt.filter fun m => deps.contains m.name
  | none => if header.isNone then mt else []

def elfLookupSymbol (name : String) (dependencies : Option (List String)) (mt : List Module)
    (header : Option ElfImage) : Option (ElfSymbol × Option Module) :=
  let inModules := (searchedModules dependencies mt header).findSome? fun m =>
    (elfLookupSymbolInElf name m.elfData).map fun sym => (sym, some m)
  match inModules with
  | some found => some found
  | none =>
      match header with
      | some h => (elfLookupSymbolInElf name h).map fun sym => (sym, none)
      | none => none

/-- The value and `*error`. -/
def elfGetSymbolValue (g : Loader) (header : ElfImage) (symtable : ElfSection)
    (symbol : ElfSymbol) : Nat × Int :=
  if symbol.hdtIndex = 0 then
    let name := elfGetStrtable header symtable.link symbol.name
    match g.gmapi.find? fun entry => entry.1 == name with
    | some entry => (entry.2, elfHintMloaderApi)
    | none =>
        match elfLookupSymbol name g.dependencies g.gmt (some header) with
        | some (valSym, some valMod) =>
            (u64 (valSym.value + valMod.elfData.base), elfHintOtherModule)
        | some (valSym, none) => (valSym.value, 0)
        | none =>
            if elfSymbolInfoBind symbol &&& elfSymbolBindWeak ≠ 0 then
              (0, if g.staleMod symtable symbol then elfHintOtherModule else 0)
            else (0, elfErrExternSymbolNotDefined)
  else if symbol.hdtIndex = elfSectIndexAbsolute then (symbol.value, 0)
  else (u64 (header.base + symbol.value), 0)

/-- `symval` and `err` of a relocation entry: nothing is looked up for symbol 0. -/
def relocSymval (g : Loader) (header : ElfImage) (reltb : ElfSection) (info : Nat) : Nat × Int :=
  if elfRelocSym info ≠ 0 then
    elfGetSymbolValue g header (elfGetSection header reltb.link)
      (elfGetSymbol header reltb.link (elfRelocSym info))
  else (0, 0)

/-- `*target_rel = v`. -/
def store (m : Bytes) (target v : Nat) : Bytes := setLe m target 8 (u64 v)

def elfRelocateSymbol (g : Loader) (header : ElfImage) (rel : ElfReloc) (reltb : ElfSection)
    (m : Bytes) : Int × Bytes :=
  let target := u64 (header.base + (elfGetSection header reltb.info).offset + rel.offset)
  let old := getLe m target 8
  let r := relocSymval g header reltb rel.info
  if r.2 = elfErrExternSymbolNotDefined then (elfErrExternSymbolNotDefined, m)
  else if elfRelocType rel.info = elfRelocTypeNone then (0, m)
  else if elfRelocType rel.info = elfRelocType32 then (0, store m target (old + r.1))
  else if elfRelocType rel.info = elfRelocTypePc32 then
    (0, store m target (old + r.1 + (2 ^ 64 - target)))
  else if elfRelocType rel.info = elfRelocTypeGlobDat then (0, store m target (old + r.1))
  else if elfRelocType rel.info = elfRelocTypeJmpSlot then (0, store m target (old + r.1))
  else if elfRelocType rel.info = elfRelocTypeRelative then
    (0, store m target (old + header.base))
  else (elfErrUnsupportedRelocationType, m)

def elfRelocateSymbolAddend (g : Loader) (header : ElfImage) (rela : ElfRelocAddend)
    (reltb : ElfSection) (m : Bytes) : Int × Bytes :=
  let target := u64 (header.base + rela.offset)
  let old := getLe m target 8
  let r := relocSymval g header reltb rela.info
  if r.2 = elfErrExternSymbolNotDefined then (elfErrExternSymbolNotDefined, m)
  else if elfRelocType rela.info = elfRelocTypeNone then (0, m)
  else if elfRelocType rela.info = elfRelocType32 then
    (0, store m target (old + r.1 + wordOf rela.addend))
  else if elfRelocType rela.info = elfRelocTypePc32 then
    (0, store m target (old + r.1 + wordOf rela.addend + (2 ^ 64 - target)))
  else if elfRelocType rela.info = elfRelocTypeGlobDat then
    if r.2 = elfHintOtherModule then (0, store m target (old + r.1))
    else (0, store m target (old + r.1 + header.base))
  else if elfRelocType rela.info = elfRelocTypeJmpSlot then
    if r.2 = elfHintMloaderApi ∨ r.2 = elfHintOtherModule then (0, store m target r.1)
    else (0, store m target (r.1 + header.base))
  else if elfRelocType rela.info = elfRelocTypeRelative then
    (0, store m target (header.base + wordOf rela.addend))
  else (elfErrUnsupportedRelocationType, m)

/-- A loop that runs `step` on each element and returns at the first error. -/
def untilError {α : Type} (step : α → Bytes → Int × Bytes) : List α → Bytes → Int × Bytes
  | [], m => (0, m)
  | x :: xs, m =>
      let r := step x m
      if r.1 ≠ 0 then r else untilError step xs r.2

def relocateSection (g : Loader) (header : ElfImage) (sect : ElfSection) (m : Bytes) :
    Int × Bytes :=
  if sect.type = elfSectTypeRel then
    untilError (fun j => elfRelocateSymbol g header (sect.rel j) sect)
      (List.range (sect.size / sect.entrySize)) m
  else if sect.type = elfSectTypeRela then
    untilError (fun j => elfRelocateSymbolAddend g header (sect.rela j) sect)
      (List.range (sect.size / sect.entrySize)) m
  else (0, m)

def elfInitRelocate (g : Loader) (header : ElfImage) (m : Bytes) : Int × Bytes :=
  untilError (fun i => relocateSection g header (header.sections i))
    (List.range header.shtEntryCount) m

/-! The entries that a lookup meets, in its order. -/

/-- A symbol table entry under its name, with the module that holds it (`none` for
the image being relocated). -/
structure Candidate where
  name : String
  sym : ElfSymbol
  mod : Option Module

def symbolsOf (header : ElfImage) : List (String × ElfSymbol) :=
  (List.range header.shtEntryCount).flatMap fun i =>
    let sect := header.sections i
    if isSymbolTable sect then
      (List.range (sect.size / sect.entrySize)).map fun j =>
        (elfGetStrtable header sect.link (sect.symbol j).name, sect.symbol j)
    else []

def candidatesOf (header : ElfImage) (mod : Option Module) : List Candidate :=
  (symbolsOf header).map fun p => ⟨p.1, p.2, mod⟩

def candidates (g : Loader) (header : ElfImage) : List Candidate :=
  (searchedModules g.dependencies g.gmt (some header)).flatMap
    (fun m => candidatesOf m.elfData (some m)) ++ candidatesOf header none

theorem elfLookupSymbolInElf_eq (name : String) (header : ElfImage) :
    elfLookupSymbolInElf name header =
      ((symbolsOf header).find? fun p => p.1 == name).map Prod.snd := by
  unfold elfLookupSymbolInElf symbolsOf
  rw [List.find?_flatMap, List.map_findSome?]
  congr 1
  funext i
  by_cases htab : isSymbolTable (header.sections i) = true
  · simp only [htab, if_true, Function.comp_apply, List.find?_map, Option.map_map]
    induction List.range ((header.sections i).size / (header.sections i).entrySize) with
    | nil => rfl
    | cons j l ih =>
        rw [List.findSome?_cons, List.find?_cons]
        by_cases h : elfGetStrtable header (header.sections i).link
            ((header.sections i).symbol j).name = name
        · simp [h]
        · have hne : (elfGetStrtable header (header.sections i).link
              ((header.sections i).symbol j).name == name) = false := by simp [h]
          simpa [h, hne] using ih
  · simp [htab]

theorem find?_candidatesOf (header : ElfImage) (mod : Option Module) (name : String) :
    ((candidatesOf header mod).find? fun c => c.name == name).map (fun c => (c.sym, c.mod)) =
      (elfLookupSymbolInElf name header).map fun sym => (sym, mod) := by
  rw [elfLookupSymbolInElf_eq]
  unfold candidatesOf
  rw [List.find?_map, Option.map_map, Option.map_map]
  rfl

theorem elfLookupSymbol_eq (g : Loader) (header : ElfImage) (name : String) :
    elfLookupSymbol name g.dependencies g.gmt (some header) =
      ((candidates g header).find? fun c => c.name == name).map fun c => (c.sym, c.mod) := by
  have hmods : ((searchedModules g.dependencies g.gmt (some header)).findSome? fun m =>
        (elfLookupSymbolInElf name m.elfData).map fun sym => (sym, some m)) =
      (((searchedModules g.dependencies g.gmt (some header)).flatMap
        fun m => candidatesOf m.elfData (some m)).find? fun c => c.name == name).map
          fun c => (c.sym, c.mod) := by
    rw [List.find?_flatMap, List.map_findSome?]
    congr 1
    funext m
    exact (find?_candidatesOf m.elfData (some m) name).symm
  unfold elfLookupSymbol candidates
  rw [List.find?_append, Option.map_or, ← hmods, find?_candidatesOf]
  cases (searchedModules g.dependencies g.gmt (some header)).findSome? fun m =>
      (elfLookupSymbolInElf name m.elfData).map fun sym => (sym, some m) with
  | none => simp
  | some found => simp

/-! The symbol table as it stands in the file. -/

/-- `sizeof(elf_symbol)` -/
def elfSymbolSize : Nat := 24

/--
`elf_symbol` at an address.  The compiler aligns `value` to 8 bytes, so `size` is at 16,
`info` at 20 and `hdt_index` at 22.
-/
def elfSymbolAt (m : Bytes) (a : Nat) : ElfSymbol where
  name := getLe m a 4
  value := getLe m (a + 8) 8
  info := getLe m (a + 20) 1
  hdtIndex := getLe m (a + 22) 2

/-- `elf_get_symbol` reads the image at its load address. -/
def LoadedSymbols (m : Bytes) (header : ElfImage) : Prop :=
  ∀ table ind, elfGetSymbol header table ind =
    elfSymbolAt m (header.base + (elfGetSection header table).offset + ind * elfSymbolSize)

/-- A symbol table entry of a 64-bit ELF file. -/
structure Elf64Symbol where
  name : Nat
  info : Nat
  other : Nat
  sectionIndex : Nat
  value : Nat
  size : Nat

/-- The entry as it stands in the file. -/
structure Elf64Symbol.At (s : Elf64Symbol) (m : Bytes) (a : Nat) : Prop where
  name : getLe m a 4 = s.name
  info : getLe m (a + 4) 1 = s.info
  other : getLe m (a + 5) 1 = s.other
  sectionIndex : getLe m (a + 6) 2 = s.sectionIndex
  value : getLe m (a + 8) 8 = s.value
  size : getLe m (a + 16) 8 = s.size

/-- The entry that stands at an address. -/
def elf64SymbolAt (m : Bytes) (a : Nat) : Elf64Symbol where
  name := getLe m a 4
  info := getLe m (a + 4) 1
  other := getLe m (a + 5) 1
  sectionIndex := getLe m (a + 6) 2
  value := getLe m (a + 8) 8
  size := getLe m (a + 16) 8

theorem elf64SymbolAt_at (m : Bytes) (a : Nat) : (elf64SymbolAt m a).At m a :=
  ⟨rfl, rfl, rfl, rfl, rfl, rfl⟩

/-- What the loader reads of an entry: the name and the value, and for the rest the bytes of the
size. -/
def Elf64Symbol.read (s : Elf64Symbol) : ElfSymbol :=
  ⟨s.name, s.value, s.size / 2 ^ 32 % 2 ^ 8, s.size / 2 ^ 48⟩

theorem elfSymbolAt_eq {s : Elf64Symbol} {m : Bytes} {a : Nat} (h : s.At m a) :
    elfSymbolAt m a = s.read := by
  have hsize := h.size
  rw [show (8 : Nat) = 4 + (1 + (1 + 2)) from rfl, getLe_add, getLe_add, getLe_add] at hsize
  have hlow := getLe_lt m (a + 16) 4
  have hinfo := getLe_lt m (a + 20) 1
  have hother := getLe_lt m (a + 21) 1
  simp only [Nat.add_assoc, Nat.reduceAdd, Nat.reducePow] at hsize hlow hinfo hother
  rw [elfSymbolAt, h.name, h.value, Elf64Symbol.read, ElfSymbol.mk.injEq]
  refine ⟨rfl, rfl, ?_, ?_⟩ <;> omega

/-- Entry `ind` of a symbol table in the file. -/
def fileSymbol (file : Bytes) (header : ElfImage) (table ind : Nat) : Elf64Symbol :=
  elf64SymbolAt file (header.base + (elfGetSection header table).offset + ind * elfSymbolSize)

theorem LoadedSymbols.read {file : Bytes} {header : ElfImage} (h : LoadedSymbols file header)
    (table ind : Nat) : elfGetSymbol header table ind = (fileSymbol file header table ind).read :=
  (h table ind).trans (elfSymbolAt_eq (elf64SymbolAt_at file _))

/-- An image at `0x100000` with one symbol besides the null symbol and one
relocation entry. -/
def symbolImage (name : String) (sym : ElfSymbol) (rela : ElfRelocAddend) : ElfImage where
  base := 0x100000
  shtEntryCount := 3
  sections := fun i =>
    { type := if i = 0 then elfSectTypeDynsym else if i = 1 then 3 else elfSectTypeRela
      offset := 0x40
      size := if i = 0 then 48 else 24
      link := if i = 0 then 1 else 0
      info := 0
      entrySize := 24
      strings := fun o => if o = 1 then name else ""
      symbol := fun j => if j = 1 then sym else ⟨0, 0, 0, 0⟩
      rel := fun _ => ⟨0, 0⟩
      rela := fun _ => rela }
  base_pos := by decide
  base_lt := by decide

end UntitledOs.Bin
