import Mathlib.Data.List.TakeWhile
import UntitledOs.Lib.Bytes

/-!
# Paths

`fs_next_file` cuts a path from the front and `fs_ext2_sep_fname_and_dir` from the
back.  A path is a C string without its closing zero; the zero that
`fs_next_file` writes over a slash only ends the component it has returned.
-/

namespace UntitledOs.Fs

open UntitledOs.Lib

abbrev Path := List Byte

/-- `'/'`. -/
def slash : Byte := 47#8

/-- `fs_next_file`: the next component, and what is left in `*cur`. -/
def fsNextFile (cur : Path) : Option (Path × Path) :=
  if cur = [] then none
  else some (cur.takeWhile (· ≠ slash), (cur.dropWhile (· ≠ slash)).tail)

theorem fsNextFile_lt {cur rest c : Path} (h : fsNextFile cur = some (c, rest)) :
    rest.length < cur.length := by
  unfold fsNextFile at h
  split at h
  · cases h
  · rename_i hne
    have hpos := List.length_pos_of_ne_nil hne
    have hdrop := (List.dropWhile_sublist (fun x => decide (x ≠ slash)) (l := cur)).length_le
    have hrest := congrArg (fun r => r.2.length) (Option.some.inj h)
    simp only [List.length_tail] at hrest
    omega

/-- The components that `fs_next_file` yields one after another. -/
def components (cur : Path) : List Path :=
  match _h : fsNextFile cur with
  | none => []
  | some (c, rest) => c :: components rest
termination_by cur.length
decreasing_by exact fsNextFile_lt _h

/-- The loop of `fs_ext2_sep_fname_and_dir` from position `i` down. -/
def sepLoop (path : Path) (i : Nat) : Option Nat :=
  if path[i]? = some slash then some i
  else match i with
    | 0 => none
    | i + 1 => sepLoop path i

/-- `fs_ext2_sep_fname_and_dir`: the directory left in `path_buf` and `*name_out`. -/
def sepFnameAndDir (path : Path) : Path × Path :=
  match sepLoop path path.length with
  | some i => (path.take i, path.drop (i + 1))
  | none => ([], path)

section Components

theorem components_nil : components [] = [] := by
  rw [components]
  rfl

theorem components_of_next {path c rest : Path} (h : fsNextFile path = some (c, rest)) :
    components path = c :: components rest := by
  rw [components]
  split
  · rename_i hnone
    rw [h] at hnone
    cases hnone
  · rename_i c' rest' hsome
    rw [h] at hsome
    obtain ⟨rfl, rfl⟩ := Prod.mk.inj (Option.some.inj hsome)
    rfl

theorem components_name {name : Path} (hname : slash ∉ name) (hne : name ≠ []) :
    components name = [name] := by
  have hall : ∀ x ∈ name, decide (x ≠ slash) = true := fun x hx =>
    decide_eq_true fun h => hname (h ▸ hx)
  have hnext : fsNextFile name = some (name, []) := by
    rw [fsNextFile, if_neg hne, List.takeWhile_eq_self_iff.mpr hall, List.dropWhile_eq_nil_iff.mpr hall]
    rfl
  rw [components_of_next hnext, components_nil]

theorem components_slash {name : Path} (hname : slash ∉ name) (rest : Path) :
    components (name ++ slash :: rest) = name :: components rest := by
  have hall : ∀ x ∈ name, decide (x ≠ slash) = true := fun x hx =>
    decide_eq_true fun h => hname (h ▸ hx)
  have hnext : fsNextFile (name ++ slash :: rest) = some (name, rest) := by
    rw [fsNextFile, if_neg (by simp), List.takeWhile_append_of_pos hall,
      List.dropWhile_append_of_pos hall, List.takeWhile_cons_of_neg (by simp),
      List.dropWhile_cons_of_neg (by simp), List.append_nil, List.tail_cons]
  exact components_of_next hnext

/-- The component that a closing slash leaves empty is never yielded. -/
theorem components_snoc (dir : Path) :
    components (dir ++ [slash]) = components dir ++
      if dir = [] ∨ dir.getLast? = some slash then [[]] else [] := by
  induction hn : dir.length using Nat.strong_induction_on generalizing dir with
  | _ n ih =>
      by_cases hmem : slash ∈ dir
      · obtain ⟨first, rest, rfl, hfirst⟩ := List.eq_append_cons_of_mem hmem
        have hrest := ih rest.length (by simp at hn; omega) rest rfl
        rw [List.append_assoc, List.cons_append, components_slash hfirst, hrest,
          components_slash hfirst, List.cons_append]
        congr 2
        cases rest with
        | nil => simp
        | cons x rest => simp
      · by_cases hnil : dir = []
        · subst hnil
          have := components_slash (List.not_mem_nil (a := slash)) []
          rw [components_nil] at this
          rw [components_nil, if_pos (.inl rfl)]
          exact this
        · have hend : ¬ (dir = [] ∨ dir.getLast? = some slash) := by
            rintro (h | h)
            · exact hnil h
            · exact hmem (List.mem_of_getLast? h)
          rw [components_slash hmem, components_nil, components_name hmem hnil, if_neg hend,
            List.append_nil]

theorem components_append (dir : Path) {name : Path} (hname : slash ∉ name) (hne : name ≠ []) :
    components (dir ++ slash :: name) = components (dir ++ [slash]) ++ [name] := by
  induction hn : dir.length using Nat.strong_induction_on generalizing dir with
  | _ n ih =>
      by_cases hmem : slash ∈ dir
      · obtain ⟨first, rest, rfl, hfirst⟩ := List.eq_append_cons_of_mem hmem
        have hrest := ih rest.length (by simp at hn; omega) rest rfl
        rw [List.append_assoc, List.cons_append, components_slash hfirst, hrest,
          List.append_assoc, List.cons_append, components_slash hfirst, List.cons_append]
      · rw [components_slash hmem, components_slash hmem, components_name hname hne,
          components_nil]
        rfl

end Components

section Separation

theorem sepLoop_none {path : Path} (h : slash ∉ path) (i : Nat) : sepLoop path i = none := by
  have hget : ∀ j, path[j]? ≠ some slash := fun j hj => h (List.mem_of_getElem? hj)
  induction i with
  | zero => rw [sepLoop, if_neg (hget 0)]
  | succ i ih => rw [sepLoop, if_neg (hget _), ih]

theorem sepLoop_some (dir : Path) {name : Path} (hname : slash ∉ name) (k : Nat) :
    sepLoop (dir ++ slash :: name) (dir.length + k) = some dir.length := by
  induction k with
  | zero =>
      rw [Nat.add_zero, sepLoop.eq_def, if_pos]
      rw [List.getElem?_append_right le_rfl, Nat.sub_self]
      rfl
  | succ k ih =>
      have hget : (dir ++ slash :: name)[dir.length + (k + 1)]? ≠ some slash := by
        rw [List.getElem?_append_right (by omega), Nat.add_sub_cancel_left, List.getElem?_cons_succ]
        exact fun h => hname (List.mem_of_getElem? h)
      rw [← Nat.add_assoc, sepLoop]
      exact (if_neg hget).trans ih

theorem sepFnameAndDir_name {path : Path} (h : slash ∉ path) : sepFnameAndDir path = ([], path) := by
  rw [sepFnameAndDir, sepLoop_none h]

theorem sepFnameAndDir_slash (dir : Path) {name : Path} (hname : slash ∉ name) :
    sepFnameAndDir (dir ++ slash :: name) = (dir, name) := by
  have hloop := sepLoop_some dir hname (name.length + 1)
  rw [sepFnameAndDir, List.length_append, List.length_cons, hloop]
  simp

theorem last_slash {path : Path} (h : slash ∈ path) :
    ∃ dir name, path = dir ++ slash :: name ∧ slash ∉ name := by
  obtain ⟨front, back, hrev, hfront⟩ := List.eq_append_cons_of_mem (List.mem_reverse.mpr h)
  refine ⟨back.reverse, front.reverse, ?_, fun hmem => hfront (List.mem_reverse.mp hmem)⟩
  rw [← List.reverse_reverse path, hrev]
  simp

/-- The last slash of the path is its first character or stands behind another one. -/
def BareSlash (path : Path) : Prop :=
  ∃ dir name, path = dir ++ slash :: name ∧ slash ∉ name ∧
    (dir = [] ∨ dir.getLast? = some slash)

/-- `fs_ext2_create` and the lookup agree on the components of a path unless the one before the
file name is empty. -/
theorem create_and_lookup_agree_iff (path : Path) (hne : path ≠ [])
    (hlast : path.getLast? ≠ some slash) :
    components (sepFnameAndDir path).1 ++ [(sepFnameAndDir path).2] = components path ↔
      ¬ BareSlash path := by
  by_cases hmem : slash ∈ path
  · obtain ⟨dir, name, rfl, hname⟩ := last_slash hmem
    have hnonempty : name ≠ [] := by
      rintro rfl
      exact hlast (by simp)
    have hbare : BareSlash (dir ++ slash :: name) ↔ dir = [] ∨ dir.getLast? = some slash := by
      refine ⟨?_, fun h => ⟨dir, name, rfl, hname, h⟩⟩
      rintro ⟨dir', name', heq, hname', h⟩
      have hsep := sepFnameAndDir_slash dir hname
      rw [heq, sepFnameAndDir_slash dir' hname'] at hsep
      rwa [← (Prod.mk.inj hsep).1]
    rw [sepFnameAndDir_slash dir hname, components_append dir hname hnonempty, components_snoc,
      hbare]
    by_cases hempty : dir = [] ∨ dir.getLast? = some slash
    · rw [if_pos hempty]
      simp [hempty]
    · rw [if_neg hempty, List.append_nil]
      exact ⟨fun _ => hempty, fun _ => rfl⟩
  · rw [sepFnameAndDir_name hmem, components_nil, components_name hmem hne]
    refine ⟨?_, fun _ => rfl⟩
    rintro - ⟨dir, name, rfl, -, -⟩
    exact hmem (by simp)

/-- `"a/b"`. -/
theorem create_and_lookup_agree_relative :
    components (sepFnameAndDir [97#8, slash, 98#8]).1 ++ [(sepFnameAndDir [97#8, slash, 98#8]).2] =
      components [97#8, slash, 98#8] :=
  (create_and_lookup_agree_iff [97#8, slash, 98#8] (by decide) (by decide)).mpr (by
    rintro ⟨dir, name, heq, hname, hdir⟩
    have hsep := sepFnameAndDir_slash dir hname
    rw [← heq, show sepFnameAndDir [97#8, slash, 98#8] = ([97#8], [98#8]) by decide] at hsep
    rw [← (Prod.mk.inj hsep).1] at hdir
    exact absurd hdir (by decide))

/-- `"/a"`: the file is created in the root directory, and looked for in the directory with the
empty name. -/
theorem create_and_lookup_differ :
    ¬ ∀ path : Path, path ≠ [] → path.getLast? ≠ some slash →
      components (sepFnameAndDir path).1 ++ [(sepFnameAndDir path).2] = components path := by
  intro h
  have hroot := h [slash, 97#8] (by decide) (by decide)
  rw [show sepFnameAndDir [slash, 97#8] = ([], [97#8]) by decide, components_nil,
    show ([slash, 97#8] : Path) = [] ++ slash :: [97#8] from rfl,
    components_slash (by decide), components_name (by decide) (by decide)] at hroot
  exact absurd hroot (by decide)

end Separation

end UntitledOs.Fs
