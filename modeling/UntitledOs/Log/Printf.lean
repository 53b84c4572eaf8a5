import UntitledOs.Log.PutNum

/-!
# printf

`uart_printf` and `boot_log_printf` are one loop over a format, with the output helpers of
either.  A format is a row of pieces, each a character of text or a directive; one that ends
inside a directive is read past its zero.
-/

namespace UntitledOs.Log

variable {σ : Type*}

/-- Where `format` stands in the body of the loop: at its start, behind `%`, `%l` or `%ll`. -/
inductive Place
  | plain | percent | l | ll
  deriving DecidableEq

/-- What the case of a directive does with its argument: `puts`, `putchar` or one of the
helpers for numbers. -/
inductive Conversion
  | s
  | c
  | num (k : Helper)

/-- The character leads further into a directive. -/
def Place.further : Place → Char → Option Place
  | .plain, '%' => some .percent
  | .percent, 'l' => some .l
  | .l, 'l' => some .ll
  | _, _ => none

/-- The cases of the three switches. -/
def Place.conversion : Place → Char → Option Conversion
  | .plain, _ => none
  | .percent, c =>
      match c with
      | 's' => some .s
      | 'c' => some .c
      | 'd' | 'i' => some (.num .i)
      | 'u' => some (.num .u)
      | 'x' => some (.num .x)
      | 'X' => some (.num .X)
      | 'p' => some (.num .p)
      | 'P' => some (.num .P)
      | _ => none
  | .l, c =>
      match c with
      | 'd' | 'i' => some (.num .l)
      | 'u' => some (.num .lu)
      | _ => none
  | .ll, c =>
      match c with
      | 'd' | 'i' => some (.num .ll)
      | 'u' => some (.num .llu)
      | _ => none

/-- The output functions of a device. -/
structure Printer (σ : Type*) where
  putchar : σ → Char → σ
  puts : σ → List Char → σ
  put : (k : Helper) → BitVec k.width → σ → Option σ

/-- The arguments that are left, one slot of 64 bits each. -/
abbrev VaList := List (BitVec 64)

/-- `(char)n`. -/
def toChar (n : BitVec 32) : Char := Char.ofNat (n.toNat % 256)

section Code

variable (p : Printer σ) (strAt : BitVec 64 → Option (List Char))

/-- A case of a switch.  `strAt` gives the string at a pointer, if there is one; with no
argument left, `va_arg` is undefined. -/
def convert (conv : Conversion) : VaList → σ → Option (VaList × σ)
  | [], _ => none
  | a :: args, s =>
      match conv with
      | .s => (strAt a).map fun str => (args, p.puts s str)
      | .c => some (args, p.putchar s (toChar (a.setWidth 32)))
      | .num k => (p.put k (a.setWidth k.width) s).map fun s => (args, s)

/-- The loop from a place on.  The zero of the format ends it at the start of the body only. -/
def printfLoop : Place → List Char → VaList → σ → Option σ
  | .plain, [], _, s => some s
  | _, [], _, _ => none
  | place, c :: format, args, s =>
      match place.further c with
      | some place' => printfLoop place' format args s
      | none =>
          match place.conversion c with
          | some conv => (convert p strAt conv args s).bind fun r => printfLoop .plain format r.1 r.2
          | none => printfLoop .plain format args (if place = .plain then p.putchar s c else s)

end Code

/-! ## The two devices -/

def uartPuts (u : Uart) (str : List Char) : Uart := str.foldl uartPutchar u

/-- `boot_log_write`. -/
def bootLogWrite (l : BootLog) (str : List Char) : BootLog where
  term := l.term ++ str
  uart := str.foldl uartPutchar l.uart

def bootLogPuts (l : BootLog) (str : List Char) : BootLog := bootLogWrite l str

def uartPrinter (stack : Vector Int 24) : Printer Uart := ⟨uartPutchar, uartPuts, uartPut stack⟩

def bootLogPrinter (stack : Vector Int 24) : Printer BootLog :=
  ⟨bootLogPutchar, bootLogPuts, bootLogPut stack⟩

def uartPrintf (stack : Vector Int 24) (strAt : BitVec 64 → Option (List Char))
    (format : List Char) (args : VaList) (u : Uart) : Option Uart :=
  printfLoop (uartPrinter stack) strAt .plain format args u

def bootLogPrintf (stack : Vector Int 24) (strAt : BitVec 64 → Option (List Char))
    (format : List Char) (args : VaList) (l : BootLog) : Option BootLog :=
  printfLoop (bootLogPrinter stack) strAt .plain format args l

/-! ## What a format says -/

/-- The characters that lead to a place. -/
def Place.chars : Place → List Char
  | .plain => []
  | .percent => ['%']
  | .l => ['%', 'l']
  | .ll => ['%', 'l', 'l']

/-- A character of text or a directive, by its last character and the place that this is read at. -/
structure Piece where
  place : Place
  last : Char
  ends : place.further last = none

def Piece.chars (x : Piece) : List Char := x.place.chars ++ [x.last]

/-- The text of an argument.  The smallest value of a signed type has none: its negation, which the
helper takes, overflows. -/
def Conversion.text (strAt : BitVec 64 → Option (List Char)) (a : BitVec 64) :
    Conversion → Option (List Char)
  | .s => strAt a
  | .c => some [toChar (a.setWidth 32)]
  | .num k =>
      if k.signed = true ∧ a.setWidth k.width = BitVec.intMin k.width then none
      else some (k.numeral (a.setWidth k.width))

/-- The text of a row of pieces.  A directive that no switch knows has none and takes no argument. -/
def rendered (strAt : BitVec 64 → Option (List Char)) : List Piece → VaList → Option (List Char)
  | [], _ => some []
  | x :: pieces, args =>
      match x.place.conversion x.last, args with
      | some _, [] => none
      | some conv, a :: args =>
          (conv.text strAt a).bind fun text => (rendered strAt pieces args).map (text ++ ·)
      | none, args =>
          (rendered strAt pieces args).map ((if x.place = .plain then [x.last] else []) ++ ·)

/-- The pieces of a format, and the place where it ends. -/
def pieces : Place → List Char → List Piece × Place
  | place, [] => ([], place)
  | place, c :: format =>
      match h : place.further c with
      | some place' => pieces place' format
      | none =>
          let r := pieces .plain format
          (⟨place, c, h⟩ :: r.1, r.2)

theorem Place.further_chars {place place' : Place} {c : Char} (h : place.further c = some place') :
    place'.chars = place.chars ++ [c] := by
  unfold Place.further at h
  split at h <;> cases h <;> rfl

theorem pieces_further {place place' : Place} {c : Char} (h : place.further c = some place')
    (format : List Char) : pieces place (c :: format) = pieces place' format := by
  rw [pieces]
  split
  · rename_i h'
    rw [h] at h'
    cases h'
    rfl
  · rename_i h'
    rw [h] at h'
    cases h'

theorem pieces_ends {place : Place} {c : Char} (h : place.further c = none) (format : List Char) :
    pieces place (c :: format) =
      (⟨place, c, h⟩ :: (pieces .plain format).1, (pieces .plain format).2) := by
  rw [pieces]
  split
  · rename_i h'
    rw [h] at h'
    cases h'
  · rfl

/-- A format is its pieces and the characters that lead to the place where it ends. -/
theorem pieces_chars (place : Place) (format : List Char) :
    (pieces place format).1.flatMap Piece.chars ++ (pieces place format).2.chars =
      place.chars ++ format := by
  induction format generalizing place with
  | nil => simp [pieces]
  | cons c format ih =>
      cases h : place.further c with
      | some place' =>
          rw [pieces_further h, ih, Place.further_chars h, List.append_assoc]
          rfl
      | none =>
          rw [pieces_ends h]
          simp only [List.flatMap_cons, List.append_assoc, ih .plain, Piece.chars]
          rfl

theorem pieces_place (place : Place) (format : List Char) :
    pieces .plain (place.chars ++ format) = pieces place format := by
  have hpercent : ∀ format, pieces .plain ('%' :: format) = pieces .percent format :=
    pieces_further rfl
  have hl : ∀ format, pieces .percent ('l' :: format) = pieces .l format := pieces_further rfl
  have hll : ∀ format, pieces .l ('l' :: format) = pieces .ll format := pieces_further rfl
  cases place <;> simp only [Place.chars, List.nil_append, List.cons_append, hpercent, hl, hll]

/-- A format has no other pieces. -/
theorem pieces_unique (parts : List Piece) (tail : Place) :
    pieces .plain (parts.flatMap Piece.chars ++ tail.chars) = (parts, tail) := by
  induction parts with
  | nil =>
      have htail := pieces_place tail []
      rw [List.append_nil] at htail
      exact htail
  | cons x parts ih =>
      rw [List.flatMap_cons, Piece.chars, List.append_assoc, List.append_assoc, pieces_place,
        List.singleton_append, pieces_ends x.ends, ih]

/-- What is put is text, one character after another. -/
structure Printer.Puts (p : Printer σ) : Prop where
  puts : ∀ s str, p.puts s str = str.foldl p.putchar s
  put : ∀ k num s, p.put k num s =
    if k.signed = true ∧ num = BitVec.intMin k.width then none
    else some ((k.numeral num).foldl p.putchar s)

section Meaning

variable {p : Printer σ} {strAt : BitVec 64 → Option (List Char)}

theorem Printer.Puts.convert (hp : p.Puts) (conv : Conversion) (a : BitVec 64) (args : VaList)
    (s : σ) : Log.convert p strAt conv (a :: args) s =
      (conv.text strAt a).map fun text => (args, text.foldl p.putchar s) := by
  cases conv with
  | s => simp only [Log.convert, Conversion.text, hp.puts]
  | c => rfl
  | num k =>
      simp only [Log.convert, Conversion.text, hp.put]
      split <;> rfl

/-- The loop puts the text of the pieces, unless the format ends inside a directive. -/
theorem Printer.Puts.printfLoop (hp : p.Puts) (place : Place) (format : List Char) (args : VaList)
    (s : σ) : Log.printfLoop p strAt place format args s =
      if (pieces place format).2 = .plain then
        (rendered strAt (pieces place format).1 args).map fun text => text.foldl p.putchar s
      else none := by
  induction format generalizing place args s with
  | nil => cases place <;> simp [Log.printfLoop, pieces, rendered]
  | cons c format ih =>
      cases h : place.further c with
      | some place' =>
          rw [pieces_further h, Log.printfLoop]
          simp only [h]
          exact ih place' args s
      | none =>
          rw [pieces_ends h, Log.printfLoop]
          simp only [h]
          cases hconv : place.conversion c with
          | none =>
              simp only [rendered, hconv, ih, Option.map_map]
              cases place <;> simp [Function.comp_def]
          | some conv =>
              cases args with
              | nil => simp [rendered, hconv, Log.convert]
              | cons a args =>
                  simp only [hp.convert, rendered, hconv, ih]
                  cases conv.text strAt a with
                  | none => simp
                  | some text => simp [Function.comp_def]

end Meaning

theorem uartPrinter_puts (stack : Vector Int 24) : (uartPrinter stack).Puts where
  puts _ _ := rfl
  put k num s := by
    simp only [uartPrinter, uartPut_eq]
    split
    · rename_i hmin
      rw [hmin.2]
      exact Helper.put_intMin _ _ k hmin.1 s
    · rename_i hmin
      exact Helper.put_numeral _ _ k num hmin s

theorem bootLogPrinter_puts (stack : Vector Int 24) : (bootLogPrinter stack).Puts where
  puts l str := by
    rw [bootLogPrinter, bootLogPutchar_foldl]
    simp only [bootLogPuts, bootLogWrite, uartPutchar_foldl]
  put k num s := by
    simp only [bootLogPrinter, bootLogPut_eq]
    split
    · rename_i hmin
      rw [hmin.2]
      exact Helper.put_intMin _ _ k hmin.1 s
    · rename_i hmin
      exact Helper.put_numeral _ _ k num hmin s

/-- Every format is a row of pieces and the characters of a place.  Both functions print the text of
the pieces, the log on the terminal and on the UART.  There is no defined result where the format
ends inside a directive, an argument is missing or is the smallest value of a signed type, or a
string is not there. -/
theorem printf_renders (stack : Vector Int 24) (strAt : BitVec 64 → Option (List Char))
    (format : List Char) (args : VaList) :
    (∃ (parts : List Piece) (tail : Place), format = parts.flatMap Piece.chars ++ tail.chars) ∧
    ∀ (parts : List Piece) (tail : Place), format = parts.flatMap Piece.chars ++ tail.chars →
      (∀ u, uartPrintf stack strAt format args u =
        if tail = .plain then (rendered strAt parts args).map (u ++ ·) else none) ∧
      ∀ l, bootLogPrintf stack strAt format args l =
        if tail = .plain then
          (rendered strAt parts args).map fun text => ⟨l.term ++ text, l.uart ++ text⟩
        else none := by
  refine ⟨⟨_, _, (pieces_chars .plain format).symm⟩, ?_⟩
  rintro parts tail rfl
  refine ⟨fun u => ?_, fun l => ?_⟩
  · rw [uartPrintf, (uartPrinter_puts stack).printfLoop, pieces_unique]
    simp only [uartPrinter, uartPutchar_foldl]
  · rw [bootLogPrintf, (bootLogPrinter_puts stack).printfLoop, pieces_unique]
    simp only [bootLogPrinter, bootLogPutchar_foldl]

theorem printf_renders_status :
    uartPrintf (Vector.replicate 24 0) (fun _ => some ['o', 'k']) "%s: %d".toList [0, 0xFFFFFFFE] [] =
      some "ok: -2".toList := by
  have hprint := ((printf_renders (Vector.replicate 24 0) (fun _ => some ['o', 'k'])
    "%s: %d".toList [0, 0xFFFFFFFE]).2 (pieces .plain "%s: %d".toList).1 .plain
    (by decide +kernel)).1 []
  rw [hprint]
  decide +kernel

end UntitledOs.Log
