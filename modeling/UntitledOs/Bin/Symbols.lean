import UntitledOs.Bin.Relocation

/-!
# Symbols of a module image

`elf_symbol` is a C structure laid over the symbol table of the file, and its
fields are not where a 64-bit ELF file has them: what the loader takes for the
section index is the upper end of the symbol's size.
-/

namespace UntitledOs.Bin

open Lib

/-- A symbol that its file defines in a section. -/
structure DefinedSymbol extends Elf64Symbol where
  defined : sectionIndex ≠ 0
  relocated : sectionIndex ≠ elfSectIndexAbsolute

section Value

variable {header : ElfImage} {symtable : ElfSection} {sym : ElfSymbol}

/-- Whatever the other modules are, the symbol is at the load address plus its value. -/
theorem value_of_index_iff :
    (∀ g, (elfGetSymbolValue g header symtable sym).1 = u64 (header.base + sym.value)) ↔
      sym.hdtIndex ≠ 0 ∧ sym.hdtIndex ≠ elfSectIndexAbsolute := by
  have hbase := header.base_pos
  have hbase' := header.base_lt
  constructor
  · intro h
    refine ⟨fun hext => ?_, fun habs => ?_⟩
    · -- an API function of the same name takes the place of the symbol
      set name := elfGetStrtable header symtable.link sym.name with hname
      have hapi : apiEntry (apiLoader (name, u64 (header.base + sym.value) + 1)) name =
          some (name, u64 (header.base + sym.value) + 1) := by
        simp [apiEntry, apiLoader]
      have hvalue := h (apiLoader (name, u64 (header.base + sym.value) + 1))
      rw [elfGetSymbolValue_api hext hapi] at hvalue
      exact absurd hvalue (Nat.succ_ne_self _)
    · have hvalue' := h (apiLoader ("", 0))
      rw [elfGetSymbolValue_internal (by rw [habs]; decide), symbolAddress, if_pos habs] at hvalue'
      simp only [u64] at hvalue'
      omega
  · rintro ⟨hext, habs⟩ g
    rw [elfGetSymbolValue_internal hext, symbolAddress, if_neg habs]

end Value

/--
A symbol that the file defines in a section is given its load address plus value, whatever
else is loaded, exactly when the upper 16 bits of its size are neither 0 nor `0xFFF1`.
-/
theorem definedSymbol_value_iff {m : Bytes} {header : ElfImage} (hload : LoadedSymbols m header)
    {table ind : Nat} (s : DefinedSymbol)
    (hs : s.At m (header.base + (elfGetSection header table).offset + ind * elfSymbolSize)) :
    (∀ g, (elfGetSymbolValue g header (elfGetSection header table)
        (elfGetSymbol header table ind)).1 = u64 (header.base + s.value)) ↔
      s.size / 2 ^ 48 ≠ 0 ∧ s.size / 2 ^ 48 ≠ elfSectIndexAbsolute := by
  have hsym : elfGetSymbol header table ind = s.toElf64Symbol.read := by
    rw [hload, elfSymbolAt_eq hs]
  rw [hsym]
  exact value_of_index_iff

/-- The bytes of a symbol table with one entry: a function of 8 bytes at `0x40` in section 1. -/
def mainBytes : Bytes := fun a =>
  [1, 0, 0, 0, 0x12, 0, 1, 0, 0x40, 0, 0, 0, 0, 0, 0, 0, 8, 0, 0, 0, 0, 0, 0, 0].getD (a - 0x1000) 0

def mainSymbol : DefinedSymbol := ⟨⟨1, 0x12, 0, 1, 0x40, 8⟩, by decide, by decide⟩

/-- The image of that table, loaded at `0x1000`; the symbol is called `main`. -/
def mainImage : ElfImage where
  base := 0x1000
  shtEntryCount := 1
  sections _ := ⟨elfSectTypeSymtab, 0, 24, 0, 0, 24, fun _ => "main",
    fun ind => elfSymbolAt mainBytes (0x1000 + 0 + ind * elfSymbolSize), fun _ => ⟨0, 0⟩,
    fun _ => ⟨0, 0, 0⟩⟩
  base_pos := by decide
  base_lt := by decide

theorem mainSymbol_at : mainSymbol.At mainBytes (0x1000 + 0 + 0 * elfSymbolSize) := by
  constructor <;> decide +kernel

theorem definedSymbol_value_iff_main :
    (∀ g, (elfGetSymbolValue g mainImage (elfGetSection mainImage 0)
        (elfGetSymbol mainImage 0 0)).1 = u64 (0x1000 + 0x40)) ↔
      8 / 2 ^ 48 ≠ 0 ∧ 8 / 2 ^ 48 ≠ elfSectIndexAbsolute :=
  @definedSymbol_value_iff mainBytes mainImage (fun _ _ => rfl) 0 0 mainSymbol mainSymbol_at

/-- The symbol is in section 1, and the loader gives its value without the load address. -/
theorem definedSymbol_unrelocated : LoadedSymbols mainBytes mainImage ∧
    mainSymbol.At mainBytes (mainImage.base + (elfGetSection mainImage 0).offset + 0 * elfSymbolSize) ∧
    (elfGetSymbolValue ⟨[], [], none, fun _ _ => false⟩ mainImage (elfGetSection mainImage 0)
      (elfGetSymbol mainImage 0 0)).1 ≠ u64 (mainImage.base + mainSymbol.value) :=
  ⟨fun _ _ => rfl, mainSymbol_at, by decide +kernel⟩

end UntitledOs.Bin
