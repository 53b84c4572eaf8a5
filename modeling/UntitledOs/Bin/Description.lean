import Mathlib.Data.List.TakeWhile
import UntitledOs.Bin.Lexem

/-!
# Module descriptions

`mdesc_parse` of `bin/module.c`, which reads the names of the modules that a
module depends on, and that it reads back what a description lists.
-/

namespace UntitledOs.Bin

open Lib

/-- What the parser finds: the buffers of its calls of the lexer, and whether the
`krealloc` after the `k`-th of these calls is given its memory. -/
structure DescEnv where
  stack : Nat → Bytes
  krealloc : Nat → Bool

/-- An array of strings, with `none` for `NULL`. -/
abbrev NameArray := List (Option (List Byte))

def strDependencies : List Byte := [100, 101, 112, 101, 110, 100, 101, 110, 99, 105, 101, 115]

def strOpen : List Byte := [123]

def strClose : List Byte := [125]

/-- What `mdesc_parse_list` returns, with the calls of the lexer so far and what is left to read. -/
structure ListEnd where
  list : Option NameArray
  calls : Nat
  input : List Byte

/-- `mdesc_parse_list` with `list` read so far. -/
def mdescParseList (env : DescEnv) (k : Nat) (list : List (List Byte)) (input : List Byte) :
    Option ListEnd :=
  let finish rest : ListEnd :=
    ⟨if env.krealloc k then some (list.map some ++ [none]) else none, k + 1, rest⟩
  match _h : mdescGetLexem (env.stack k) input with
  | none => none
  | some (none, rest) => some (finish rest)
  | some (some lx, rest) =>
      if lx = strClose then some (finish rest)
      else if env.krealloc k then mdescParseList env (k + 1) (list ++ [lx]) rest
      else some ⟨none, k + 1, rest⟩
termination_by input.length
decreasing_by exact mdescGetLexem_shorter _h

theorem mdescParseList_le {env : DescEnv} {k : Nat} {list : List (List Byte)} {input : List Byte}
    {r : ListEnd} (h : mdescParseList env k list input = some r) :
    r.input.length ≤ input.length := by
  induction hn : input.length using Nat.strong_induction_on generalizing input k list with
  | _ n ih =>
  rw [mdescParseList] at h
  dsimp only at h
  split at h
  · cases h
  · next hcall =>
      cases h
      exact hn ▸ (mdescGetLexem_rest hcall).1
  · next hcall =>
      have hlt := mdescGetLexem_shorter hcall
      rw [hn] at hlt
      split at h
      · cases h
        exact hlt.le
      · split at h
        · exact (ih _ hlt h rfl).trans hlt.le
        · cases h
          exact hlt.le

/-- The loop of `mdesc_parse`; `propName` is the word before, if it has no value yet. -/
def mdescParseProps (env : DescEnv) (k : Nat) (propName : Option (List Byte))
    (dependencies : Option NameArray) (input : List Byte) : Option (Option NameArray) :=
  match _h : mdescGetLexem (env.stack k) input with
  | none => none
  | some (none, _) => some dependencies
  | some (some lx, rest) =>
      match propName with
      | none => mdescParseProps env (k + 1) (some lx) dependencies rest
      | some name =>
          if name = strDependencies ∧ lx = strOpen then
            match _hl : mdescParseList env (k + 1) [] rest with
            | none => none
            | some r => mdescParseProps env r.calls none r.list r.input
          else mdescParseProps env (k + 1) none dependencies rest
termination_by input.length
decreasing_by
  · exact mdescGetLexem_shorter _h
  · exact (mdescParseList_le _hl).trans_lt (mdescGetLexem_shorter _h)
  · exact mdescGetLexem_shorter _h

/-- `mdesc_parse`: the field `dependencies` of what it returns. -/
def mdescParse (env : DescEnv) (input : List Byte) : Option (Option NameArray) :=
  mdescParseProps env 0 none none input

section Words

variable {buf : Bytes} {raw rest name : List Byte} {s : Byte}

/-- One or more separators. -/
structure Gap where
  first : Byte
  more : List Byte
  separators : ∀ c ∈ first :: more, mdescWspaces.contains c = true

def Gap.text (g : Gap) : List Byte := g.first :: g.more

/-- Separators, a run with its first byte, and a separator: the lexem is the token of the run. -/
theorem mdescGetLexem_word {lead : List Byte} (hlead : ∀ c ∈ lead, mdescWspaces.contains c = true)
    {c : Byte} (hc : mdescWspaces.contains c = false)
    (hrun : takeRun false (c :: raw ++ s :: rest) = (c :: raw, s :: rest)) (hfree : 0 ∉ c :: raw)
    (hlen : ((c :: raw).filter (· != quote)).length ≤ 254) :
    mdescGetLexem buf (lead ++ (c :: raw ++ s :: rest)) =
      some (some ((c :: raw).filter (· != quote)), rest) := by
  have hdrop : (lead ++ (c :: raw ++ s :: rest)).dropWhile mdescWspaces.contains =
      c :: (raw ++ s :: rest) := by
    rw [List.dropWhile_append_of_pos hlead]
    exact List.dropWhile_cons_of_neg (by rw [hc]; exact Bool.false_ne_true)
  rw [List.cons_append] at hrun
  rw [mdescGetLexem_token (s := s) (by rwa [hrun]) hdrop, hrun]
  · rw [runLength, hrun]
    exact Nat.lt_succ_of_le hlen
  · rw [hrun]

theorem takeRun_bare (hname : ∀ c ∈ name, mdescWspaces.contains c = false ∧ c ≠ quote)
    (hs : mdescWspaces.contains s = true) (rest : List Byte) :
    takeRun false (name ++ s :: rest) = (name, s :: rest) := by
  induction name with
  | nil =>
      rw [List.nil_append, takeRun, hs]
      rfl
  | cons c name ih =>
      obtain ⟨hc, hq⟩ := hname c (by simp)
      have hbeq : (c == quote) = false := beq_false_of_ne hq
      rw [List.cons_append, takeRun_cons hc, hbeq, ih fun d hd => hname d (by simp [hd])]

theorem takeRun_quoted (hname : quote ∉ name) (hs : mdescWspaces.contains s = true)
    (rest : List Byte) :
    takeRun true (name ++ quote :: s :: rest) = (name ++ [quote], s :: rest) := by
  induction name with
  | nil =>
      have hstop : takeRun false (s :: rest) = ([], s :: rest) := by
        rw [takeRun, hs]
        rfl
      rw [List.nil_append, takeRun]
      simp [hstop]
  | cons c name ih =>
      have hbeq : (c == quote) = false := by
        apply beq_false_of_ne
        rintro rfl
        exact hname (by simp)
      rw [List.cons_append, takeRun]
      simp [hbeq, ih fun h => hname (by simp [h])]

theorem filter_quote (hname : quote ∉ name) : name.filter (· != quote) = name := by
  apply List.filter_eq_self.mpr
  intro c hc
  rw [bne_iff_ne]
  rintro rfl
  exact hname hc

end Words

/-- A name of a list, written bare or in quotes, and the separators behind it. -/
structure ListedName where
  name : List Byte
  quoted : Bool
  gap : Gap
  name_ne : name ≠ []
  length_le : name.length ≤ 254
  no_nul : 0 ∉ name
  no_quote : quote ∉ name
  not_close : name ≠ strClose
  bare : quoted = false → ∀ c ∈ name, mdescWspaces.contains c = false

namespace ListedName

def raw (n : ListedName) : List Byte := if n.quoted then quote :: (n.name ++ [quote]) else n.name

def text (n : ListedName) : List Byte := n.raw ++ n.gap.text

theorem mdescGetLexem_text (n : ListedName) {lead : List Byte} (buf : Bytes)
    (hlead : ∀ c ∈ lead, mdescWspaces.contains c = true) (rest : List Byte) :
    mdescGetLexem buf (lead ++ (n.text ++ rest)) = some (some n.name, n.gap.more ++ rest) := by
  have hs := n.gap.separators n.gap.first (by simp)
  rw [text, Gap.text, List.append_assoc, List.cons_append]
  cases hq : n.quoted with
  | true =>
      have hraw : n.raw = quote :: (n.name ++ [quote]) := if_pos hq
      have htoken : (quote :: (n.name ++ [quote])).filter (· != quote) = n.name := by
        simp [filter_quote n.no_quote]
      have hrun : takeRun false (quote :: (n.name ++ [quote]) ++ n.gap.first :: (n.gap.more ++ rest)) =
          (quote :: (n.name ++ [quote]), n.gap.first :: (n.gap.more ++ rest)) := by
        rw [List.cons_append, List.append_assoc, List.singleton_append, takeRun_cons (by decide),
          beq_self_eq_true, takeRun_quoted n.no_quote hs]
      have hcall := @mdescGetLexem_word buf _ _ _ _ hlead _ (by decide) hrun
        (by simpa [quote] using n.no_nul) (by rw [htoken]; exact n.length_le)
      rw [hraw, hcall, htoken]
  | false =>
      have hraw : n.raw = n.name := if_neg (by simp [hq])
      have hbare : ∀ c ∈ n.name, mdescWspaces.contains c = false ∧ c ≠ quote := by
        intro c hc
        refine ⟨n.bare hq c hc, ?_⟩
        rintro rfl
        exact n.no_quote hc
      have hrun := takeRun_bare hbare hs (n.gap.more ++ rest)
      have htoken := filter_quote n.no_quote
      have hlen := n.length_le
      have hnul := n.no_nul
      rw [hraw]
      cases hname : n.name with
      | nil => exact absurd hname n.name_ne
      | cons c name =>
          rw [hname] at hrun htoken hlen hnul hbare
          rw [mdescGetLexem_word hlead (hbare c (by simp)).1 hrun hnul (by rwa [htoken]), htoken]

end ListedName

/-- A word of the description itself. -/
def wordName (name : List Byte) (gap : Gap) (h : name ≠ [] ∧ name.length ≤ 254 ∧ 0 ∉ name ∧
    quote ∉ name ∧ name ≠ strClose ∧ ∀ c ∈ name, mdescWspaces.contains c = false) : ListedName :=
  ⟨name, false, gap, h.1, h.2.1, h.2.2.1, h.2.2.2.1, h.2.2.2.2.1, fun _ => h.2.2.2.2.2⟩

section Parse

variable {env : DescEnv} {k : Nat} {list : List (List Byte)} {lead input rest lx : List Byte}
  {dependencies : Option NameArray}

theorem mdescParseProps_end {propName : Option (List Byte)}
    (h : mdescGetLexem (env.stack k) input = some (none, rest)) :
    mdescParseProps env k propName dependencies input = some dependencies := by
  rw [mdescParseProps]
  split <;> simp_all

theorem mdescParseProps_name (h : mdescGetLexem (env.stack k) input = some (some lx, rest)) :
    mdescParseProps env k none dependencies input =
      mdescParseProps env (k + 1) (some lx) dependencies rest := by
  rw [mdescParseProps]
  split <;> simp_all

theorem mdescParseProps_list {r : ListEnd}
    (h : mdescGetLexem (env.stack k) input = some (some strOpen, rest))
    (hlist : mdescParseList env (k + 1) [] rest = some r) :
    mdescParseProps env k (some strDependencies) dependencies input =
      mdescParseProps env r.calls none r.list r.input := by
  rw [mdescParseProps]
  split
  · simp_all
  · simp_all
  · next hcall =>
      obtain ⟨hlx, rfl⟩ := Prod.mk.inj (Option.some.inj (h.symm.trans hcall))
      obtain rfl := Option.some.inj hlx
      simp only [and_self, if_true]
      split <;> simp_all

theorem mdescParseList_name (hheap : ∀ j, env.krealloc j = true)
    (hlead : ∀ c ∈ lead, mdescWspaces.contains c = true) (n : ListedName) (rest : List Byte) :
    mdescParseList env k list (lead ++ (n.text ++ rest)) =
      mdescParseList env (k + 1) (list ++ [n.name]) (n.gap.more ++ rest) := by
  have hcall := n.mdescGetLexem_text (env.stack k) hlead rest
  rw [mdescParseList]
  split <;> simp_all [n.not_close]

theorem mdescParseList_close (hheap : ∀ j, env.krealloc j = true)
    (hlead : ∀ c ∈ lead, mdescWspaces.contains c = true) (g : Gap) :
    mdescParseList env k list (lead ++ (strClose ++ g.text)) =
      some ⟨some (list.map some ++ [none]), k + 1, g.more⟩ := by
  have hrun := @takeRun_bare strClose _ (by decide) (g.separators g.first (by simp)) g.more
  have hcall := @mdescGetLexem_word (env.stack k) _ _ _ _ hlead _ (by decide) hrun (by decide) (by decide)
  rw [mdescParseList, Gap.text, strClose]
  split <;> simp_all [strClose, quote]

theorem mdescParseList_names (k : Nat) (list : List (List Byte)) (hheap : ∀ j, env.krealloc j = true) (names : List ListedName)
    (hlead : ∀ c ∈ lead, mdescWspaces.contains c = true) (g : Gap) :
    mdescParseList env k list (lead ++ (names.flatMap ListedName.text ++ (strClose ++ g.text))) =
      some ⟨some ((list ++ names.map ListedName.name).map some ++ [none]), k + names.length + 1,
        g.more⟩ := by
  induction names generalizing k list lead with
  | nil => simpa using mdescParseList_close hheap hlead g
  | cons n names ih =>
      rw [List.flatMap_cons, List.append_assoc, mdescParseList_name hheap hlead,
        ih _ _ fun c hc => n.gap.separators c (by simp [hc])]
      simp [Nat.add_assoc, Nat.add_comm 1]

/-- The text `dependencies { n1 .. nk }`. -/
def descText (g₁ g₂ g₃ : Gap) (names : List ListedName) : List Byte :=
  (strDependencies ++ g₁.text) ++ ((strOpen ++ g₂.text) ++
    (names.flatMap ListedName.text ++ (strClose ++ g₃.text)))

/-- What `mdesc_parse` reads from the description of a list of names is that list. -/
theorem mdescParse_descText (hheap : ∀ j, env.krealloc j = true) (g₁ g₂ g₃ : Gap)
    (names : List ListedName) :
    mdescParse env (descText g₁ g₂ g₃ names) =
      some (some ((names.map ListedName.name).map some ++ [none])) := by
  set list := names.flatMap ListedName.text ++ (strClose ++ g₃.text) with hlist
  have hgap : ∀ g : Gap, ∀ c ∈ g.more, mdescWspaces.contains c = true := fun g c hc =>
    g.separators c (by simp [hc])
  have hname : mdescGetLexem (env.stack 0) (descText g₁ g₂ g₃ names) =
      some (some strDependencies, g₁.more ++ ((strOpen ++ g₂.text) ++ list)) :=
    (wordName strDependencies g₁ (by decide)).mdescGetLexem_text (env.stack 0)
      (List.forall_mem_nil _) _
  have hopen : mdescGetLexem (env.stack 1) (g₁.more ++ ((strOpen ++ g₂.text) ++ list)) =
      some (some strOpen, g₂.more ++ list) :=
    (wordName strOpen g₂ (by decide)).mdescGetLexem_text (env.stack 1) (hgap g₁) _
  have hnames := mdescParseList_names 2 [] hheap names (hgap g₂) g₃
  have hend : ∀ k, mdescGetLexem (env.stack k) g₃.more = some (none, []) := fun k =>
    mdescGetLexem_blank (List.dropWhile_eq_nil_iff.mpr (hgap g₃))
  rw [mdescParse, mdescParseProps_name hname, mdescParseProps_list hopen hnames, mdescParseProps_end (hend _), List.nil_append]

end Parse

def blankGap : Gap := ⟨32, [], by decide⟩

/-- `dependencies { "a b" c }` -/
theorem mdescParse_descText_two :
    mdescParse ⟨fun _ _ => 0, fun _ => true⟩ (descText blankGap blankGap blankGap
      [⟨[97, 32, 98], true, blankGap, by decide, by decide, by decide, by decide, by decide, by decide⟩,
        ⟨[99], false, blankGap, by decide, by decide, by decide, by decide, by decide, by decide⟩]) =
      some (some [some [97, 32, 98], some [99], none]) :=
  mdescParse_descText (fun _ => rfl) _ _ _ _

end UntitledOs.Bin
