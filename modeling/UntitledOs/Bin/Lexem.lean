import UntitledOs.Lib.Bytes

/-!
# Lexems of a module description

`mdesc_get_lexem` of `bin/module.c`.  It reads the file one byte at a time into a
buffer on the stack, which it does not initialise.  `read` gives the bytes of the
file in order and then nothing, and `kmalloc` gives what it is asked for.
-/

namespace UntitledOs.Bin

open Lib

/-- `mdesc_wspaces`: blank, comma, tab, carriage return and line feed. -/
def mdescWspaces : List Byte := [32, 44, 9, 13, 10]

/-- The double quote. -/
def quote : Byte := 34

/-- `strchr`, as a condition; the one of `cstdlib` does not find the terminator. -/
def strchr (s : List Byte) (c : Byte) : Bool := s.contains c

def bufSize : Nat := 256

/-- A write into `buf`; `none` is one outside of it. -/
def put (buf : Bytes) (i : Nat) (c : Byte) : Option Bytes :=
  if i < bufSize then some (Function.update buf i c) else none

/-- The bytes of `buf` up to its terminator. -/
def cString (buf : Bytes) : List Byte := ((List.range bufSize).map buf).takeWhile (· != 0)

/-- The first loop: the first byte that is no separator, and what follows it. -/
def skipWspaces : List Byte → Option (Byte × List Byte)
  | [] => none
  | c :: input => if strchr mdescWspaces c then skipWspaces input else some (c, input)

/-- Where the second loop stops. -/
structure Scan where
  buf : Bytes
  /-- `buf_it - buf` -/
  it : Nat
  /-- the last `read` gave a byte -/
  rd : Bool
  input : List Byte

/-- The second loop. -/
def scanLexem (buf : Bytes) (it : Nat) (isQuote : Bool) (input : List Byte) : Option Scan :=
  if it = bufSize - 1 then some ⟨buf, it, true, input⟩
  else
    match input with
    | [] => some ⟨buf, it, false, []⟩
    | c :: input =>
        (put buf it c).bind fun buf =>
        if isQuote || !strchr mdescWspaces c then
          if c = quote then
            (put buf it 32).bind fun buf => scanLexem buf it (!isQuote) input
          else scanLexem buf (it + 1) isQuote input
        else some ⟨buf, it, true, input⟩

/--
`mdesc_get_lexem`: the lexem, or `none` for `NULL`, and what is left to read.  The
result as a whole is `none` when a write goes outside of the buffer.
-/
def mdescGetLexem (buf : Bytes) (input : List Byte) : Option (Option (List Byte) × List Byte) :=
  match skipWspaces input with
  | none => some (none, [])
  | some (c, input) =>
      (put buf 0 (if c = quote then 32 else c)).bind fun buf =>
      (scanLexem buf (if c = quote then 0 else 1) (c == quote) input).bind fun r =>
      if r.rd then
        (put r.buf (if strchr mdescWspaces (r.buf r.it) then r.it else r.it + 1) 0).map fun buf =>
          (some (cString buf), r.input)
      else some (none, r.input)

section Shorter

variable {buf : Bytes} {it : Nat} {isQuote : Bool} {input rest : List Byte} {c : Byte} {r : Scan}

theorem put_of_lt (buf : Bytes) {i : Nat} (hi : i < bufSize) (c : Byte) :
    put buf i c = some (Function.update buf i c) := if_pos hi

theorem skipWspaces_shorter (h : skipWspaces input = some (c, rest)) :
    rest.length < input.length := by
  induction input with
  | nil => cases h
  | cons d input ih =>
      rw [skipWspaces] at h
      split at h
      · exact (ih h).trans (Nat.lt_succ_self _)
      · cases h
        exact Nat.lt_succ_self _

theorem scanLexem_shorter (h : scanLexem buf it isQuote input = some r) :
    r.input.length ≤ input.length := by
  induction input generalizing buf it isQuote with
  | nil =>
      rw [scanLexem] at h
      split at h <;> cases h <;> exact le_rfl
  | cons c input ih =>
      rw [scanLexem] at h
      split at h
      · cases h
        exact le_rfl
      obtain ⟨buf₁, -, h⟩ := Option.bind_eq_some_iff.mp h
      apply Nat.le_succ_of_le
      split at h
      · split at h
        · obtain ⟨buf₂, -, h⟩ := Option.bind_eq_some_iff.mp h
          exact ih h
        · exact ih h
      · cases h
        exact le_rfl

theorem mdescGetLexem_rest {lexem : Option (List Byte)}
    (h : mdescGetLexem buf input = some (lexem, rest)) :
    rest.length ≤ input.length ∧ (lexem.isSome → rest.length < input.length) := by
  unfold mdescGetLexem at h
  split at h
  · cases h
    exact ⟨Nat.zero_le _, nofun⟩
  · next hskip =>
      obtain ⟨buf₁, -, h⟩ := Option.bind_eq_some_iff.mp h
      obtain ⟨r, hscan, h⟩ := Option.bind_eq_some_iff.mp h
      have hlt := (scanLexem_shorter hscan).trans_lt (skipWspaces_shorter hskip)
      split at h
      · obtain ⟨buf₂, -, h⟩ := Option.map_eq_some_iff.mp h
        cases h
        exact ⟨hlt.le, fun _ => hlt⟩
      · cases h
        exact ⟨hlt.le, fun _ => hlt⟩

theorem mdescGetLexem_shorter {lexem : List Byte}
    (h : mdescGetLexem buf input = some (some lexem, rest)) : rest.length < input.length :=
  (mdescGetLexem_rest h).2 rfl

end Shorter

/-- The lexems of a file, up to the first call that returns `NULL`; `stack k` is the buffer that
the `k`-th call finds. -/
def lexems (stack : Nat → Bytes) (k : Nat) (input : List Byte) : Option (List (List Byte)) :=
  match h : mdescGetLexem (stack k) input with
  | none => none
  | some (none, _) => some []
  | some (some lexem, rest) => (lexems stack (k + 1) rest).map (lexem :: ·)
termination_by input.length
decreasing_by exact mdescGetLexem_shorter h

section Runs

/-- The longest prefix whose separators are inside double quotes, from inside of them or not. -/
def takeRun : Bool → List Byte → List Byte × List Byte
  | _, [] => ([], [])
  | quoted, c :: text =>
      if !quoted && mdescWspaces.contains c then ([], c :: text)
      else
        let r := takeRun (quoted ^^ (c == quote)) text
        (c :: r.1, r.2)

/-- A run of a text, and whether the text ends with it. -/
structure Run where
  raw : List Byte
  last : Bool

namespace Run

/-- The token of a run. -/
def token (r : Run) : List Byte := r.raw.filter (· != quote)

/-- Every quote is closed. -/
def closed (r : Run) : Bool := r.raw.count quote % 2 == 0

end Run

theorem takeRun_append (quoted : Bool) (text : List Byte) :
    (takeRun quoted text).1 ++ (takeRun quoted text).2 = text := by
  induction text generalizing quoted with
  | nil => rfl
  | cons c text ih =>
      rw [takeRun]
      split
      · rfl
      · rw [List.cons_append, ih]

theorem dropWhile_shorter {p : Byte → Bool} {text rest : List Byte} {c : Byte}
    (h : text.dropWhile p = c :: rest) : rest.length < text.length := by
  have hle := (List.dropWhile_suffix p (l := text)).length_le
  rw [h, List.length_cons] at hle
  exact hle

theorem takeRun_cons {c : Byte} (hc : mdescWspaces.contains c = false) (text : List Byte) :
    takeRun false (c :: text) =
      (c :: (takeRun (c == quote) text).1, (takeRun (c == quote) text).2) := by
  rw [takeRun, hc]
  simp

theorem contains_of_dropWhile {text rest : List Byte} {c : Byte}
    (h : text.dropWhile mdescWspaces.contains = c :: rest) : mdescWspaces.contains c = false := by
  have hne : text.dropWhile mdescWspaces.contains ≠ [] := by simp [h]
  have := List.head_dropWhile_not mdescWspaces.contains hne
  simpa [h] using this

/-- The runs of a text, one after the other. -/
def runs (text : List Byte) : List Run :=
  match _h : text.dropWhile mdescWspaces.contains with
  | [] => []
  | c :: rest =>
      ⟨(takeRun false (c :: rest)).1, (takeRun false (c :: rest)).2.isEmpty⟩ ::
        runs (takeRun false (c :: rest)).2
termination_by text.length
decreasing_by
  have hlen := congrArg List.length (takeRun_append (c == quote) rest)
  rw [List.length_append] at hlen
  have hlt := dropWhile_shorter _h
  rw [takeRun_cons (contains_of_dropWhile _h)]
  dsimp only
  omega

/-- The tokens of a text: a run with an open quote is none. -/
def tokens (text : List Byte) : List (List Byte) := ((runs text).filter Run.closed).map Run.token

end Runs

section Scan

variable {buf : Bytes} {it : Nat} {quoted : Bool} {text rest : List Byte} {c : Byte}

/-- The first `n` bytes of the buffer. -/
def filled (buf : Bytes) (n : Nat) : List Byte := (List.range n).map buf

theorem filled_update_self (buf : Bytes) (n : Nat) (c : Byte) :
    filled (Function.update buf n c) n = filled buf n := by
  apply List.map_congr_left
  intro i hi
  exact Function.update_of_ne (List.mem_range.mp hi).ne _ _

theorem filled_update (buf : Bytes) (n : Nat) (c : Byte) :
    filled (Function.update buf n c) (n + 1) = filled buf n ++ [c] := by
  have hself := filled_update_self buf n c
  rw [filled] at hself
  rw [filled, List.range_succ, List.map_append, hself]
  simp

theorem cString_eq {n : Nat} (hn : n < bufSize) (hzero : buf n = 0) (hfree : 0 ∉ filled buf n) :
    cString buf = filled buf n := by
  have hsplit : List.range bufSize =
      List.range n ++ n :: (List.range (bufSize - (n + 1))).map (n + 1 + ·) := by
    rw [show n :: (List.range (bufSize - (n + 1))).map (n + 1 + ·) =
      [n] ++ (List.range (bufSize - (n + 1))).map (n + 1 + ·) from rfl, ← List.append_assoc,
      ← List.range_succ, ← List.range_add]
    congr 1
    omega
  have hall : ∀ c ∈ filled buf n, (c != 0) = true := by
    intro c hc
    rw [bne_iff_ne]
    rintro rfl
    exact hfree hc
  rw [cString, hsplit, List.map_append, List.map_cons, hzero]
  rw [filled] at hall
  rw [List.takeWhile_append_of_pos hall, List.takeWhile_cons_of_neg (by simp), List.append_nil,
    filled]

/-- How many bytes the run that starts here puts into the buffer. -/
def runLength (quoted : Bool) (text : List Byte) : Nat :=
  ((takeRun quoted text).1.filter (· != quote)).length

/-- The three ways a byte can be taken. -/
theorem takeRun_cases (quoted : Bool) (c : Byte) (text : List Byte) :
    (quoted = false ∧ mdescWspaces.contains c = true ∧
      takeRun quoted (c :: text) = ([], c :: text)) ∨
    ((quoted || !mdescWspaces.contains c) = true ∧ c = quote ∧
      takeRun quoted (c :: text) = (c :: (takeRun (!quoted) text).1, (takeRun (!quoted) text).2)) ∨
    ((quoted || !mdescWspaces.contains c) = true ∧ c ≠ quote ∧
      takeRun quoted (c :: text) = (c :: (takeRun quoted text).1, (takeRun quoted text).2)) := by
  rw [takeRun]
  by_cases hstop : (!quoted && mdescWspaces.contains c) = true
  · rw [if_pos hstop]
    simp only [Bool.and_eq_true, Bool.not_eq_true'] at hstop
    exact .inl ⟨hstop.1, hstop.2, rfl⟩
  · have hgo : (quoted || !mdescWspaces.contains c) = true := by
      cases quoted <;> simp_all
    rw [if_neg hstop]
    by_cases hq : c = quote
    · refine .inr (.inl ⟨hgo, hq, ?_⟩)
      simp [hq]
    · have hbeq : (c == quote) = false := beq_false_of_ne hq
      exact .inr (.inr ⟨hgo, hq, by rw [hbeq, Bool.xor_false]⟩)

/-- A run that fits is followed by a separator, or the file ends with it. -/
theorem scanLexem_short (buf : Bytes) (hfit : it + runLength quoted text < bufSize - 1) :
    ((takeRun quoted text).2 = [] ∧
      ∃ buf' it', scanLexem buf it quoted text = some ⟨buf', it', false, []⟩) ∨
    ∃ s rest buf', (takeRun quoted text).2 = s :: rest ∧ mdescWspaces.contains s = true ∧
      scanLexem buf it quoted text = some ⟨buf', it + runLength quoted text, true, rest⟩ ∧
      filled buf' (it + runLength quoted text) =
        filled buf it ++ (takeRun quoted text).1.filter (· != quote) ∧
      buf' (it + runLength quoted text) = s := by
  induction text generalizing buf it quoted with
  | nil =>
      have hne : it ≠ bufSize - 1 := by omega
      exact .inl ⟨rfl, buf, it, by rw [scanLexem, if_neg hne]⟩
  | cons c text ih =>
      have hne : it ≠ bufSize - 1 := by omega
      have hin : it < bufSize := by omega
      rw [runLength] at hfit
      rw [scanLexem, if_neg hne, runLength]
      simp only [put_of_lt _ hin, Option.bind_some, strchr]
      rcases takeRun_cases quoted c text with ⟨hq, hsep, heq⟩ | ⟨hgo, hq, heq⟩ | ⟨hgo, hq, heq⟩
      · rw [heq, hq, hsep]
        refine .inr ⟨c, text, _, rfl, hsep, rfl, ?_, ?_⟩
        · simp [filled_update_self]
        · simp
      · subst hq
        rw [heq]
        rw [heq] at hfit
        simp only [hgo, if_true]
        have hfit' : it + runLength (!quoted) text < bufSize - 1 := by simpa [runLength] using hfit
        rcases ih (Function.update (Function.update buf it quote) it 32) hfit' with
          ⟨hend, buf', it', hscan⟩ | ⟨s, rest, buf', hrest, hsep, hscan, hfill, hlast⟩
        · exact .inl ⟨hend, buf', it', hscan⟩
        · refine .inr ⟨s, rest, buf', hrest, hsep, ?_, ?_, ?_⟩
          · simpa [runLength] using hscan
          · rw [filled_update_self, filled_update_self] at hfill
            simpa [runLength] using hfill
          · simpa [runLength] using hlast
      · rw [heq]
        rw [heq] at hfit
        simp only [hgo, if_true, if_neg hq]
        have hfit' : it + 1 + runLength quoted text < bufSize - 1 := by
          simpa [runLength, hq, Nat.add_assoc, Nat.add_comm 1] using hfit
        rcases ih (Function.update buf it c) hfit' with
          ⟨hend, buf', it', hscan⟩ | ⟨s, rest, buf', hrest, hsep, hscan, hfill, hlast⟩
        · exact .inl ⟨hend, buf', it', hscan⟩
        · refine .inr ⟨s, rest, buf', hrest, hsep, ?_, ?_, ?_⟩
          · simpa [runLength, hq, Nat.add_assoc, Nat.add_comm 1] using hscan
          · rw [filled_update] at hfill
            simpa [runLength, hq, Nat.add_assoc, Nat.add_comm 1] using hfill
          · simpa [runLength, hq, Nat.add_assoc, Nat.add_comm 1] using hlast

/-- A run that does not fit fills the buffer up to its last byte, which is not touched. -/
theorem scanLexem_long (buf : Bytes) (hit : it ≤ bufSize - 1)
    (hfull : bufSize - 1 ≤ it + runLength quoted text) :
    ∃ buf' rest, scanLexem buf it quoted text = some ⟨buf', bufSize - 1, true, rest⟩ ∧
      buf' (bufSize - 1) = buf (bufSize - 1) := by
  induction text generalizing buf it quoted with
  | nil =>
      obtain rfl : it = bufSize - 1 := Nat.le_antisymm hit hfull
      exact ⟨buf, [], by rw [scanLexem, if_pos rfl], rfl⟩
  | cons c text ih =>
      by_cases hend : it = bufSize - 1
      · exact ⟨buf, c :: text, by rw [scanLexem, if_pos hend, hend], rfl⟩
      have hin : it < bufSize := by omega
      have hlt : it < bufSize - 1 := by omega
      rw [runLength] at hfull
      rw [scanLexem, if_neg hend]
      simp only [put_of_lt _ hin, Option.bind_some, strchr]
      rcases takeRun_cases quoted c text with ⟨hq, hsep, heq⟩ | ⟨hgo, hq, heq⟩ | ⟨hgo, hq, heq⟩
      · rw [heq] at hfull
        exact absurd hfull (by simp only [List.filter_nil, List.length_nil]; omega)
      · subst hq
        rw [heq] at hfull
        simp only [hgo, if_true]
        obtain ⟨buf', rest, hscan, hkept⟩ := ih (Function.update (Function.update buf it quote) it 32)
          hit (by simpa [runLength] using hfull)
        refine ⟨buf', rest, hscan, ?_⟩
        rw [hkept, Function.update_of_ne hlt.ne', Function.update_of_ne hlt.ne']
      · rw [heq] at hfull
        simp only [hgo, if_true, if_neg hq]
        obtain ⟨buf', rest, hscan, hkept⟩ := ih (Function.update buf it c) hlt
          (by simpa [runLength, hq, Nat.add_assoc, Nat.add_comm 1] using hfull)
        refine ⟨buf', rest, hscan, ?_⟩
        rw [hkept, Function.update_of_ne hlt.ne']

end Scan

section Calls

variable {buf : Bytes} {text rest : List Byte} {c s : Byte} {stack : Nat → Bytes} {k : Nat}

theorem skipWspaces_eq (text : List Byte) :
    skipWspaces text = match text.dropWhile mdescWspaces.contains with
      | [] => none
      | c :: rest => some (c, rest) := by
  induction text with
  | nil => rfl
  | cons c text ih =>
      rw [skipWspaces, List.dropWhile_cons, strchr]
      split
      · exact ih
      · rfl

theorem mdescGetLexem_blank (h : text.dropWhile mdescWspaces.contains = []) :
    mdescGetLexem buf text = some (none, []) := by
  rw [mdescGetLexem, skipWspaces_eq, h]

theorem mdescGetLexem_start (buf : Bytes)
    (h : text.dropWhile mdescWspaces.contains = c :: rest) : ∃ buf₁ it,
      it + runLength (c == quote) rest = runLength false (c :: rest) ∧
      filled buf₁ it ++ (takeRun (c == quote) rest).1.filter (· != quote) =
        (takeRun false (c :: rest)).1.filter (· != quote) ∧
      it ≤ 1 ∧ buf₁ (bufSize - 1) = buf (bufSize - 1) ∧
      mdescGetLexem buf text = (scanLexem buf₁ it (c == quote) rest).bind fun r =>
        if r.rd then
          (put r.buf (if strchr mdescWspaces (r.buf r.it) then r.it else r.it + 1) 0).map fun buf =>
            (some (cString buf), r.input)
        else some (none, r.input) := by
  have hstart : put buf 0 (if c = quote then 32 else c) = _ := put_of_lt buf (by decide) _
  have hkept : ∀ d, Function.update buf 0 d (bufSize - 1) = buf (bufSize - 1) := fun d =>
    Function.update_of_ne (by decide) _ _
  rw [runLength, runLength, takeRun_cons (contains_of_dropWhile h), mdescGetLexem, skipWspaces_eq, h]
  simp only [hstart, Option.bind_some]
  refine ⟨_, _, ?_, ?_, ?_, hkept _, rfl⟩
  · by_cases hq : c = quote
    · simp [hq]
    · simp [hq, Nat.add_comm]
  · by_cases hq : c = quote
    · simp [hq, filled]
    · rw [if_neg hq, if_neg hq, show (1 : Nat) = 0 + 1 from rfl, filled_update]
      simp [hq, filled]
  · split <;> decide

theorem mdescGetLexem_token (hfree : 0 ∉ (takeRun false (c :: rest)).1)
    (h : text.dropWhile mdescWspaces.contains = c :: rest)
    (hfit : runLength false (c :: rest) < bufSize - 1) {rest' : List Byte}
    (hnext : (takeRun false (c :: rest)).2 = s :: rest') :
    mdescGetLexem buf text =
      some (some ((takeRun false (c :: rest)).1.filter (· != quote)), rest') := by
  obtain ⟨buf₁, it, hlen, htoken, -, -, hcall⟩ := mdescGetLexem_start buf h
  have hnext' : (takeRun (c == quote) rest).2 = s :: rest' := by
    rw [← hnext, takeRun_cons (contains_of_dropWhile h)]
  rw [← hlen] at hfit
  rcases scanLexem_short buf₁ hfit with ⟨hend, -⟩ | ⟨s', tail, buf₂, hrest, hsep, hscan, hfill, hlast⟩
  · rw [hend] at hnext'
    cases hnext'
  obtain ⟨rfl, rfl⟩ := List.cons.inj (hrest.symm.trans hnext')
  have hin : it + runLength (c == quote) rest < bufSize := by omega
  rw [hcall, hscan, Option.bind_some]
  simp only [if_true, hlast, strchr, hsep, put_of_lt _ hin, Option.map_some]
  -- the terminator takes the place of the separator
  have hsame := filled_update_self buf₂ (it + runLength (c == quote) rest) 0
  rw [cString_eq hin (Function.update_self _ _ _), hsame, hfill, htoken]
  rw [hsame, hfill, htoken]
  exact fun hmem => hfree (List.mem_of_mem_filter hmem)

theorem mdescGetLexem_end (h : text.dropWhile mdescWspaces.contains = c :: rest)
    (hfit : runLength false (c :: rest) < bufSize - 1)
    (hend : (takeRun false (c :: rest)).2 = []) : mdescGetLexem buf text = some (none, []) := by
  obtain ⟨buf₁, it, hlen, -, -, -, hcall⟩ := mdescGetLexem_start buf h
  rw [takeRun_cons (contains_of_dropWhile h)] at hend
  rw [← hlen] at hfit
  rcases scanLexem_short buf₁ hfit with ⟨-, buf₂, it₂, hscan⟩ | ⟨s, tail, buf₂, hrest, -⟩
  · rw [hcall, hscan]
    rfl
  · dsimp only at hend
    rw [hend] at hrest
    cases hrest

/-- A run that does not fit, over a stack without a separator at the end of the buffer. -/
theorem mdescGetLexem_outside (h : text.dropWhile mdescWspaces.contains = c :: rest)
    (hlong : bufSize - 1 ≤ runLength false (c :: rest))
    (hstack : mdescWspaces.contains (buf (bufSize - 1)) = false) : mdescGetLexem buf text = none := by
  obtain ⟨buf₁, it, hlen, -, hit, hkept, hcall⟩ := mdescGetLexem_start buf h
  rw [← hlen] at hlong
  obtain ⟨buf₂, tail, hscan, hkept₂⟩ := scanLexem_long buf₁ (hit.trans (by decide)) hlong
  rw [hcall, hscan, Option.bind_some]
  have hend : strchr mdescWspaces (buf₂ (bufSize - 1)) = false := by
    rw [strchr, hkept₂, hkept, hstack]
  simp only [hend, if_true]
  rfl

theorem lexems_eq (stack : Nat → Bytes) (k : Nat) (text : List Byte) :
    lexems stack k text = match mdescGetLexem (stack k) text with
      | none => none
      | some (none, _) => some []
      | some (some lexem, rest) => (lexems stack (k + 1) rest).map (lexem :: ·) := by
  rw [lexems]
  split <;> simp_all

theorem runs_nil (h : text.dropWhile mdescWspaces.contains = []) : runs text = [] := by
  rw [runs]
  split <;> simp_all

theorem runs_cons (h : text.dropWhile mdescWspaces.contains = c :: rest) :
    runs text = ⟨(takeRun false (c :: rest)).1, (takeRun false (c :: rest)).2.isEmpty⟩ ::
      runs (takeRun false (c :: rest)).2 := by
  rw [runs]
  split <;> simp_all

theorem runs_separator (hs : mdescWspaces.contains s = true) (rest : List Byte) :
    runs (s :: rest) = runs rest := by
  have hdrop : (s :: rest).dropWhile mdescWspaces.contains =
      rest.dropWhile mdescWspaces.contains := List.dropWhile_cons_of_pos hs
  cases hrest : rest.dropWhile mdescWspaces.contains with
  | nil => rw [runs_nil (hdrop.trans hrest), runs_nil hrest]
  | cons c tail => rw [runs_cons (hdrop.trans hrest), runs_cons hrest]

theorem takeRun_next {quoted : Bool} (h : (takeRun quoted text).2 = s :: rest) :
    mdescWspaces.contains s = true ∧
      (takeRun quoted text).1.count quote % 2 = if quoted then 1 else 0 := by
  induction text generalizing quoted with
  | nil => cases h
  | cons c text ih =>
      rcases takeRun_cases quoted c text with ⟨rfl, hsep, heq⟩ | ⟨-, rfl, heq⟩ | ⟨-, hq, heq⟩
      · rw [heq] at h ⊢
        obtain ⟨rfl, -⟩ := List.cons.inj h
        exact ⟨hsep, rfl⟩
      · rw [heq] at h ⊢
        obtain ⟨hsep, hcount⟩ := ih h
        refine ⟨hsep, ?_⟩
        rw [List.count_cons_self]
        cases quoted <;> simp at hcount ⊢ <;> omega
      · rw [heq] at h ⊢
        obtain ⟨hsep, hcount⟩ := ih h
        exact ⟨hsep, by rwa [List.count_cons_of_ne hq]⟩

end Calls

section Tokens

variable {text : List Byte} {stack : Nat → Bytes} {k : Nat}

/-- The run fits the buffer, and the file does not end directly behind its closed quotes. -/
def Run.Fits (r : Run) : Prop := r.token.length ≤ 254 ∧ (r.closed = true → r.last = false)

/--
Whatever the stack holds, no write goes outside of the buffer, and if no token is
longer than 254 bytes the calls give the tokens of the text.
-/
def KeepsTokens (text : List Byte) : Prop :=
  ∀ stack : Nat → Bytes, lexems stack 0 text ≠ none ∧
    ((∀ t ∈ tokens text, t.length ≤ 254) → lexems stack 0 text = some (tokens text))

theorem tokens_cons {r : Run} {rest : List Byte} (hruns : runs text = r :: runs rest)
    (hclosed : r.closed = true) : tokens text = r.token :: tokens rest := by
  rw [tokens, hruns, List.filter_cons_of_pos hclosed, List.map_cons, tokens]

/-- How the first run of a text is read: the file ends with it, or a separator follows. -/
theorem firstRun_cases {c : Byte} {rest : List Byte} (hfree : 0 ∉ text)
    (h : text.dropWhile mdescWspaces.contains = c :: rest) :
    (∃ r, runs text = [r] ∧ r.last = true ∧
      (r.token.length ≤ 254 → ∀ stack k, lexems stack k text = some [])) ∨
    ∃ r rest', runs text = r :: runs rest' ∧ r.last = false ∧ r.closed = true ∧
      rest'.length < text.length ∧ 0 ∉ rest' ∧
      (r.token.length ≤ 254 → ∀ stack k,
        lexems stack k text = (lexems stack (k + 1) rest').map (r.token :: ·)) := by
  have hruns := runs_cons h
  cases hnext : (takeRun false (c :: rest)).2 with
  | nil =>
      rw [hnext, show runs [] = [] from runs_nil rfl] at hruns
      refine .inl ⟨_, hruns, rfl, fun hfit stack k => ?_⟩
      rw [lexems_eq, mdescGetLexem_end h (Nat.lt_succ_of_le hfit) hnext]
  | cons s rest' =>
      obtain ⟨hsep, hcount⟩ := takeRun_next hnext
      have happend := takeRun_append false (c :: rest)
      have hsuffix : rest' <:+ text := by
        refine List.IsSuffix.trans ?_ (List.dropWhile_suffix mdescWspaces.contains)
        rw [h, ← happend, hnext]
        exact (List.suffix_cons s rest').trans (List.suffix_append _ _)
      have hlt : rest'.length < text.length := by
        have hlen := congrArg List.length happend
        have hle := dropWhile_shorter h
        rw [hnext, List.length_append, List.length_cons, List.length_cons] at hlen
        omega
      rw [hnext, runs_separator hsep] at hruns
      refine .inr ⟨_, rest', hruns, rfl, by rw [Run.closed, hcount]; rfl, hlt,
        fun hmem => hfree (hsuffix.subset hmem), fun hfit stack k => ?_⟩
      have hraw : 0 ∉ (takeRun false (c :: rest)).1 := by
        intro hmem
        have htext := List.mem_append_left (takeRun false (c :: rest)).2 hmem
        rw [happend, ← h] at htext
        exact hfree ((List.dropWhile_suffix _).subset htext)
      rw [lexems_eq, mdescGetLexem_token hraw h (Nat.lt_succ_of_le hfit) hnext]
      rfl

theorem lexems_of_fits (hfree : 0 ∉ text) (h : ∀ r ∈ runs text, r.Fits) (stack : Nat → Bytes)
    (k : Nat) : lexems stack k text = some (tokens text) := by
  induction hn : text.length using Nat.strong_induction_on generalizing text k with
  | _ n ih =>
  cases hdrop : text.dropWhile mdescWspaces.contains with
  | nil =>
      rw [lexems_eq, mdescGetLexem_blank hdrop, tokens, runs_nil hdrop]
      rfl
  | cons c rest =>
      rcases firstRun_cases hfree hdrop with
        ⟨r, hruns, hlast, hcall⟩ | ⟨r, rest', hruns, -, hclosed, hlt, hfree', hcall⟩
      · have hr := h r (by simp [hruns])
        have hopen : r.closed = false := by
          rw [Bool.eq_false_iff]
          intro hclosed
          rw [hr.2 hclosed] at hlast
          cases hlast
        rw [hcall hr.1, tokens, hruns, List.filter_cons_of_neg (by simp [hopen])]
        rfl
      · have hr := h r (by simp [hruns])
        have hrest := ih _ (hn ▸ hlt) hfree' (fun r' hr' => h r' (by simp [hruns, hr'])) (k + 1) rfl
        rw [hcall hr.1, hrest, tokens_cons hruns hclosed]
        rfl

/-- Over a stack of zeros, a run that does not fit is written past the buffer or lost. -/
theorem lexems_of_not_fits (hfree : 0 ∉ text) {r : Run} (hr : r ∈ runs text) (hfits : ¬ r.Fits)
    (k : Nat) : lexems (fun _ _ => 0) k text = none ∨
      (∀ t ∈ tokens text, t.length ≤ 254) ∧ lexems (fun _ _ => 0) k text ≠ some (tokens text) := by
  induction hn : text.length using Nat.strong_induction_on generalizing text k with
  | _ n ih =>
  cases hdrop : text.dropWhile mdescWspaces.contains with
  | nil =>
      rw [runs_nil hdrop] at hr
      cases hr
  | cons c rest =>
      by_cases hlong : bufSize - 1 ≤ runLength false (c :: rest)
      · rw [lexems_eq, mdescGetLexem_outside hdrop hlong rfl]
        exact .inl rfl
      have hshort : ∀ r' rest', runs text = r' :: rest' → r'.token.length ≤ 254 := by
        intro r' rest' hruns
        rw [runs_cons hdrop] at hruns
        obtain ⟨rfl, -⟩ := List.cons.inj hruns
        exact Nat.le_of_lt_succ (Nat.lt_of_not_le hlong)
      rcases firstRun_cases hfree hdrop with
        ⟨r', hruns, hlast, hcall⟩ | ⟨r', rest', hruns, hlast, hclosed, hlt, hfree', hcall⟩
      · have hlen := hshort r' [] hruns
        rw [hruns, List.mem_singleton] at hr
        subst hr
        have hclosed : r.closed = true := by
          by_contra hopen
          exact hfits ⟨hlen, fun hc => absurd hc hopen⟩
        have htokens : tokens text = [r.token] := by
          rw [tokens, hruns, List.filter_cons_of_pos hclosed]
          rfl
        rw [hcall hlen, htokens]
        exact .inr ⟨by simpa using hlen, by simp⟩
      · have hlen := hshort r' _ hruns
        rw [hruns, List.mem_cons] at hr
        have hr' : r ∈ runs rest' := by
          rcases hr with rfl | hr
          · exact absurd ⟨hlen, fun _ => hlast⟩ hfits
          · exact hr
        rw [hcall hlen, tokens_cons hruns hclosed]
        rcases ih _ (hn ▸ hlt) hfree' hr' (k + 1) rfl with hnone | ⟨hshort', hne⟩
        · rw [hnone]
          exact .inl rfl
        · refine .inr ⟨?_, ?_⟩
          · intro t ht
            rcases List.mem_cons.mp ht with rfl | ht
            · exact hlen
            · exact hshort' t ht
          · cases hcalls : lexems (fun _ _ => 0) (k + 1) rest' with
            | none => simp
            | some ts =>
                rw [hcalls] at hne
                simpa using hne

/-- The lexer keeps the tokens of a text when its runs fit and none ends the file. -/
theorem keepsTokens_iff (hfree : 0 ∉ text) :
    KeepsTokens text ↔ ∀ r ∈ runs text, r.token.length ≤ 254 ∧ (r.closed = true → r.last = false) := by
  constructor
  · intro h r hr
    by_contra hfits
    obtain ⟨hin, htokens⟩ := h fun _ _ => 0
    rcases lexems_of_not_fits hfree hr hfits 0 with hnone | ⟨hshort, hne⟩
    · exact hin hnone
    · exact hne (htokens hshort)
  · intro h stack
    rw [lexems_of_fits hfree h]
    exact ⟨by simp, fun _ => rfl⟩

/-- `a "b c"` and a newline. -/
def twoTokens : List Byte := [97, 32, 34, 98, 32, 99, 34, 10]

theorem runs_twoTokens : runs twoTokens = [⟨[97], false⟩, ⟨[34, 98, 32, 99, 34], false⟩] := by
  have hfirst : twoTokens.dropWhile mdescWspaces.contains = 97 :: [32, 34, 98, 32, 99, 34, 10] := by
    decide
  have hrest : takeRun false (97 :: [32, 34, 98, 32, 99, 34, 10]) =
      ([97], [32, 34, 98, 32, 99, 34, 10]) := by decide
  have hsecond : [32, 34, 98, 32, 99, 34, 10].dropWhile mdescWspaces.contains =
      34 :: [98, 32, 99, 34, 10] := by decide
  have hrest' : takeRun false (34 :: [98, 32, 99, 34, 10]) = ([34, 98, 32, 99, 34], [10]) := by
    decide
  rw [runs_cons hfirst, hrest, runs_cons hsecond, hrest', runs_nil (by decide)]
  rfl

theorem keepsTokens_iff_two : KeepsTokens twoTokens :=
  (keepsTokens_iff (by decide)).mpr (by rw [runs_twoTokens]; decide)

/-- A file that ends with its only token, as `a` without a newline. -/
theorem keepsTokens_lastToken : ¬ KeepsTokens [97] := by
  intro h
  have hruns : runs [97] = [⟨[97], true⟩] := by
    have hdrop : ([97] : List Byte).dropWhile mdescWspaces.contains = [97] := by decide
    rw [runs_cons hdrop]
    exact congrArg _ (runs_nil rfl)
  have htokens : tokens [97] = [[97]] := by
    rw [tokens, hruns]
    decide
  have hcalls := (h fun _ _ => 0).2
  rw [htokens, lexems_eq, show mdescGetLexem (fun _ => 0) [97] = some (none, []) by decide] at hcalls
  exact absurd (hcalls (by decide)) (by decide)

end Tokens

end UntitledOs.Bin
