import Mathlib.Data.List.Basic
import Mathlib.Data.List.Pairwise

/-!
# Doubly linked lists in a store of cells

A list in memory is a pair of link functions.  `Segment next prev before cells
after` says that `cells` are linked to each other in this order, that the first
one points back to `before` and that the last one points on to `after`.  The
edits of a list (linking a cell in, unlinking one) change a segment only at the
seam, so each is stated for arbitrary link functions that agree elsewhere.
-/

namespace UntitledOs.Lib

variable {α : Type*}

def Segment (next prev : α → Option α) :
    Option α → List α → Option α → Prop
  | _, [], _ => True
  | before, a :: cells, after =>
      prev a = before ∧ next a = cells.head?.or after ∧
        Segment next prev (some a) cells after

instance decidableSegment [DecidableEq α] (next prev : α → Option α) :
    (before : Option α) → (cells : List α) → (after : Option α) →
      Decidable (Segment next prev before cells after)
  | _, [], _ => inferInstanceAs (Decidable True)
  | before, a :: cells, after =>
      have := decidableSegment next prev (some a) cells after
      inferInstanceAs (Decidable (prev a = before ∧ next a = cells.head?.or after ∧
        Segment next prev (some a) cells after))

/-- A whole list: nothing before its first cell and nothing after its last. -/
def LinkedList (next prev : α → Option α) (cells : List α) : Prop :=
  Segment next prev none cells none

instance [DecidableEq α] {next prev : α → Option α} {cells : List α} :
    Decidable (LinkedList next prev cells) :=
  decidableSegment next prev none cells none

namespace Segment

variable {next prev next' prev' : α → Option α}
  {before after : Option α} {a b c : α} {left right cells : List α}

@[simp] theorem nil_iff : Segment next prev before [] after := trivial

@[simp] theorem cons_iff :
    Segment next prev before (a :: cells) after ↔
      prev a = before ∧ next a = cells.head?.or after ∧
        Segment next prev (some a) cells after := Iff.rfl

theorem append_iff :
    Segment next prev before (left ++ right) after ↔
      Segment next prev before left (right.head?.or after) ∧
        Segment next prev (left.getLast?.or before) right after := by
  induction left generalizing before with
  | nil => simp
  | cons a left ih =>
      have hhead : (left ++ right).head?.or after =
          left.head?.or (right.head?.or after) := by
        cases left <;> simp
      have hlast : ((a :: left).getLast?).or before =
          left.getLast?.or (some a) := by
        cases left with
        | nil => simp
        | cons b left => simp [List.getLast?_cons]
      rw [List.cons_append, cons_iff, cons_iff, ih, hhead, hlast]
      tauto

theorem congr (h : Segment next prev before cells after)
    (hnext : ∀ x ∈ cells, next' x = next x)
    (hprev : ∀ x ∈ cells, prev' x = prev x) :
    Segment next' prev' before cells after := by
  induction cells generalizing before with
  | nil => trivial
  | cons a cells ih =>
      obtain ⟨hp, hn, hrest⟩ := h
      refine ⟨?_, ?_, ?_⟩
      · rw [hprev a (by simp), hp]
      · rw [hnext a (by simp), hn]
      · exact ih hrest (fun x hx => hnext x (by simp [hx]))
          (fun x hx => hprev x (by simp [hx]))

/-- The first cell of a segment may be pointed back somewhere else. -/
theorem rehead (h : Segment next prev before cells after) {before' : Option α}
    (hnext : ∀ x ∈ cells, next' x = next x)
    (hhead : ∀ x, cells.head? = some x → prev' x = before')
    (hprev : ∀ x ∈ cells.tail, prev' x = prev x) :
    Segment next' prev' before' cells after := by
  cases cells with
  | nil => trivial
  | cons a cells =>
      obtain ⟨-, hn, hrest⟩ := h
      refine ⟨hhead a rfl, ?_, ?_⟩
      · rw [hnext a (by simp), hn]
      · exact hrest.congr (fun x hx => hnext x (by simp [hx])) hprev

/-- The last cell of a segment may be pointed on somewhere else. -/
theorem retail (h : Segment next prev before (left ++ [a]) after)
    {after' : Option α}
    (hnext : ∀ x ∈ left, next' x = next x) (hlast : next' a = after')
    (hprev : ∀ x ∈ left ++ [a], prev' x = prev x) :
    Segment next' prev' before (left ++ [a]) after' := by
  rw [append_iff] at h ⊢
  obtain ⟨hleft, hp, -, -⟩ := h
  refine ⟨?_, ?_, ?_, trivial⟩
  · exact hleft.congr hnext (fun x hx => hprev x (by simp [hx]))
  · rw [hprev a (by simp), hp]
  · simpa using hlast

/--
Linking `b` in behind `a`.  Besides the two links of `b` only the forward link
of `a` and the backward link of its old successor change.
-/
theorem insert_after (h : Segment next prev before (left ++ a :: right) after)
    (hnodup : (left ++ a :: right).Nodup)
    (ha : next' a = some b) (hbn : next' b = right.head?.or after)
    (hbp : prev' b = some a)
    (hsucc : ∀ x, right.head? = some x → prev' x = some b)
    (hnext : ∀ x ∈ left ++ a :: right, x ≠ a → next' x = next x)
    (hprev : ∀ x ∈ left ++ a :: right, right.head? ≠ some x → prev' x = prev x) :
    Segment next' prev' before (left ++ a :: b :: right) after := by
  rw [show left ++ a :: right = (left ++ [a]) ++ right by simp] at h hnodup hnext hprev
  rw [show left ++ a :: b :: right = (left ++ [a]) ++ b :: right by simp]
  rw [append_iff] at h ⊢
  have hdisj := List.nodup_append.mp hnodup
  have hne : ∀ x ∈ left, x ≠ a := by
    intro x hx hxa
    have := (List.nodup_append.mp hdisj.1).2.2 x hx a (by simp)
    exact this hxa
  have hright : ∀ x ∈ left ++ [a], right.head? ≠ some x := by
    intro x hx hh
    exact hdisj.2.2 x hx x (List.mem_of_mem_head? hh) rfl
  refine ⟨?_, ?_, hbn, ?_⟩
  · refine h.1.retail (fun x hx => hnext x (by simp [hx]) (hne x hx)) (by simpa using ha) ?_
    exact fun x hx => hprev x (List.mem_append_left _ hx) (hright x hx)
  · simpa using hbp
  · refine h.2.rehead (fun x hx => hnext x (by simp [hx]) ?_) hsucc ?_
    · rintro rfl
      exact hdisj.2.2 x (by simp) x hx rfl
    · intro x hx
      refine hprev x (by simp [List.mem_of_mem_tail hx]) ?_
      intro hh
      cases right with
      | nil => simp at hh
      | cons c right =>
          simp only [List.head?_cons, Option.some.injEq] at hh
          subst hh
          exact (List.nodup_cons.mp hdisj.2.1).1 hx

/-- Unlinking `b` from behind `a`. -/
theorem remove_after
    (h : Segment next prev before (left ++ a :: b :: right) after)
    (hnodup : (left ++ a :: b :: right).Nodup)
    (ha : next' a = right.head?.or after)
    (hsucc : ∀ x, right.head? = some x → prev' x = some a)
    (hnext : ∀ x ∈ left ++ right, next' x = next x)
    (hprev : ∀ x ∈ left ++ a :: right, right.head? ≠ some x → prev' x = prev x) :
    Segment next' prev' before (left ++ a :: right) after := by
  rw [show left ++ a :: b :: right = (left ++ [a]) ++ b :: right by simp] at h hnodup
  rw [show left ++ a :: right = (left ++ [a]) ++ right by simp] at hprev ⊢
  rw [append_iff] at h ⊢
  have hdisj := List.nodup_append.mp hnodup
  have hright : ∀ x ∈ left ++ [a], right.head? ≠ some x := by
    intro x hx hh
    exact hdisj.2.2 x hx x (by simp [List.mem_of_mem_head? hh]) rfl
  refine ⟨?_, ?_⟩
  · refine h.1.retail (fun x hx => hnext x (by simp [hx])) (by simpa using ha) ?_
    exact fun x hx => hprev x (List.mem_append_left _ hx) (hright x hx)
  · refine h.2.2.2.rehead (fun x hx => hnext x (by simp [hx])) ?_ ?_
    · simpa using hsucc
    · intro x hx
      refine hprev x (by simp [List.mem_of_mem_tail hx]) ?_
      intro hh
      cases right with
      | nil => simp at hh
      | cons c right =>
          simp only [List.head?_cons, Option.some.injEq] at hh
          subst hh
          exact (List.nodup_cons.mp (List.nodup_cons.mp hdisj.2.1).2).1 hx

/-- Following the forward link from a cell of a segment. -/
theorem next_of_append
    (h : Segment next prev before (left ++ a :: right) after) :
    next a = right.head?.or after :=
  (append_iff.mp h).2.2.1

theorem prev_of_append
    (h : Segment next prev before (left ++ a :: right) after) :
    prev a = left.getLast?.or before :=
  (append_iff.mp h).2.1

/-- The links of a cell that is not the first one. -/
theorem links_of_append {a b : α}
    (h : Segment next prev before (left ++ a :: b :: right) after) :
    prev b = some a ∧ next b = right.head?.or after := by
  have h' : Segment next prev before ((left ++ [a]) ++ b :: right) after := by
    simpa using h
  exact ⟨by simpa using h'.prev_of_append, h'.next_of_append⟩

/-- The forward links determine a list that ends. -/
theorem unique {before' : Option α} {cells' : List α}
    (h : Segment next prev before cells none)
    (h' : Segment next prev before' cells' none)
    (hhead : cells.head? = cells'.head?) : cells = cells' := by
  induction cells generalizing cells' before before' with
  | nil => simpa [eq_comm] using hhead
  | cons a cells ih =>
      obtain ⟨cells', rfl⟩ := List.head?_eq_some_iff.mp hhead.symm
      congr 1
      refine ih h.2.2 h'.2.2 ?_
      have := h.2.1.symm.trans h'.2.1
      simpa using this

theorem prev_of_head (h : Segment next prev before cells after) (ha : cells.head? = some a) :
    prev a = before := by
  obtain ⟨rest, rfl⟩ := List.head?_eq_some_iff.mp ha
  exact h.1

/-- A segment whose ends are linked to other cells. -/
theorem reseat (h : Segment next prev before cells after) (hnodup : cells.Nodup)
    {before' after' : Option α}
    (hlast : ∀ x, cells.getLast? = some x → next' x = after')
    (hhead : ∀ x, cells.head? = some x → prev' x = before')
    (hnext : ∀ x ∈ cells, cells.getLast? ≠ some x → next' x = next x)
    (hprev : ∀ x ∈ cells, cells.head? ≠ some x → prev' x = prev x) :
    Segment next' prev' before' cells after' := by
  induction cells generalizing before before' with
  | nil => trivial
  | cons a cells ih =>
      obtain ⟨-, hn, hrest⟩ := h
      obtain ⟨ha, hnodup⟩ := List.nodup_cons.mp hnodup
      cases cells with
      | nil => exact ⟨hhead a rfl, by simpa using hlast a rfl, trivial⟩
      | cons b cells =>
          have hne : ∀ x ∈ b :: cells, x ≠ a := fun x hx hxa => ha (hxa ▸ hx)
          refine ⟨hhead a rfl, ?_, ih hrest hnodup ?_ ?_ ?_ ?_⟩
          · rw [hnext a (by simp) ?_, hn]
            · simp
            · rw [List.getLast?_cons_cons]
              exact fun hl => ha (List.mem_of_getLast? hl)
          · intro x hx
            exact hlast x (by rw [List.getLast?_cons_cons]; exact hx)
          · intro x hx
            obtain rfl : b = x := by simpa using hx
            rw [hprev b (by simp) (by simpa using (hne b (by simp)).symm)]
            exact hrest.1
          · intro x hx hxl
            exact hnext x (List.mem_cons_of_mem _ hx) (by rwa [List.getLast?_cons_cons])
          · intro x hx _
            exact hprev x (List.mem_cons_of_mem _ hx) (by simpa using (hne x hx).symm)

/--
Two neighbouring blocks of a list change places: the links over the three seams
are the only ones that change.
-/
theorem swap {first second : List α}
    (h : Segment next prev before (left ++ (first ++ (second ++ right))) after)
    (hnodup : (left ++ (first ++ (second ++ right))).Nodup)
    (hfirst : first ≠ []) (hsecond : second ≠ [])
    (hnl : ∀ x, left.getLast? = some x → next' x = second.head?)
    (hns : ∀ x, second.getLast? = some x → next' x = first.head?)
    (hnf : ∀ x, first.getLast? = some x → next' x = right.head?.or after)
    (hps : ∀ x, second.head? = some x → prev' x = left.getLast?.or before)
    (hpf : ∀ x, first.head? = some x → prev' x = second.getLast?)
    (hpr : ∀ x, right.head? = some x → prev' x = first.getLast?)
    (hnext : ∀ x, left.getLast? ≠ some x → first.getLast? ≠ some x →
      second.getLast? ≠ some x → next' x = next x)
    (hprev : ∀ x, first.head? ≠ some x → second.head? ≠ some x → right.head? ≠ some x →
      prev' x = prev x) :
    Segment next' prev' before (left ++ (second ++ (first ++ right))) after := by
  obtain ⟨f, hf⟩ := Option.ne_none_iff_exists'.mp (mt List.head?_eq_none_iff.mp hfirst)
  obtain ⟨t, ht⟩ := Option.ne_none_iff_exists'.mp (mt List.head?_eq_none_iff.mp hsecond)
  obtain ⟨f', hf'⟩ := Option.ne_none_iff_exists'.mp (mt List.getLast?_eq_none_iff.mp hfirst)
  obtain ⟨t', ht'⟩ := Option.ne_none_iff_exists'.mp (mt List.getLast?_eq_none_iff.mp hsecond)
  rw [append_iff, append_iff, append_iff] at h
  obtain ⟨hl, hfseg, hsseg, hr⟩ := h
  obtain ⟨hlnd, hrest, hldisj⟩ := List.nodup_append.mp hnodup
  obtain ⟨hfnd, hrest, hfdisj⟩ := List.nodup_append.mp hrest
  obtain ⟨hsnd, hrnd, hsdisj⟩ := List.nodup_append.mp hrest
  -- the ends of one block are in no other block
  have hlast : ∀ {l : List α} {x}, (∀ y ∈ l, x ≠ y) → l.getLast? ≠ some x :=
    fun hx hxl => hx _ (List.mem_of_getLast? hxl) rfl
  have hhead : ∀ {l : List α} {x}, (∀ y ∈ l, x ≠ y) → l.head? ≠ some x :=
    fun hx hxl => hx _ (List.mem_of_mem_head? hxl) rfl
  have hlf : ∀ x ∈ left, ∀ y ∈ first, x ≠ y := fun x hx y hy => hldisj x hx y (by simp [hy])
  have hls : ∀ x ∈ left, ∀ y ∈ second, x ≠ y := fun x hx y hy => hldisj x hx y (by simp [hy])
  have hlr : ∀ x ∈ left, ∀ y ∈ right, x ≠ y := fun x hx y hy => hldisj x hx y (by simp [hy])
  have hfs : ∀ x ∈ first, ∀ y ∈ second, x ≠ y := fun x hx y hy => hfdisj x hx y (by simp [hy])
  have hfr : ∀ x ∈ first, ∀ y ∈ right, x ≠ y := fun x hx y hy => hfdisj x hx y (by simp [hy])
  have hprevl : ∀ x ∈ left, prev' x = prev x := fun x hx =>
    hprev x (hhead (hlf x hx)) (hhead (hls x hx)) (hhead (hlr x hx))
  have hnextr : ∀ x ∈ right, next' x = next x := fun x hx =>
    hnext x (hlast fun y hy => (hlr y hy x hx).symm) (hlast fun y hy => (hfr y hy x hx).symm)
      (hlast fun y hy => (hsdisj y hy x hx).symm)
  rw [append_iff, append_iff, append_iff]
  refine ⟨hl.reseat hlnd ?_ ?_ ?_ (fun x hx _ => hprevl x hx), hsseg.reseat hsnd ?_ ?_ ?_ ?_,
    hfseg.reseat hfnd ?_ ?_ ?_ ?_, hr.rehead hnextr ?_ ?_⟩
  · intro x hx
    rw [hnl x hx]
    simp [ht]
  · intro x hx
    rw [hprevl x (List.mem_of_mem_head? hx)]
    exact hl.prev_of_head hx
  · intro x hx hxl
    exact hnext x hxl (hlast (hlf x hx)) (hlast (hls x hx))
  · intro x hx
    rw [hns x hx]
    simp [hf]
  · exact hps
  · intro x hx hxl
    exact hnext x (hlast fun y hy => (hls y hy x hx).symm)
      (hlast fun y hy => (hfs y hy x hx).symm) hxl
  · intro x hx hxh
    exact hprev x (hhead fun y hy => (hfs y hy x hx).symm) hxh (hhead (hsdisj x hx))
  · exact hnf
  · intro x hx
    rw [hpf x hx]
    simp [ht']
  · intro x hx hxl
    exact hnext x (hlast fun y hy => (hlf y hy x hx).symm) hxl (hlast (hfs x hx))
  · intro x hx hxh
    exact hprev x hxh (hhead (hfs x hx)) (hhead (hfr x hx))
  · intro x hx
    rw [hpr x hx]
    simp [hf']
  · intro x hx
    have hxr := List.mem_of_mem_tail hx
    refine hprev x (hhead fun y hy => (hfr y hy x hxr).symm)
      (hhead fun y hy => (hsdisj y hy x hxr).symm) ?_
    intro hxh
    obtain ⟨rest, rfl⟩ := List.head?_eq_some_iff.mp hxh
    exact (List.nodup_cons.mp hrnd).1 (by simpa using hx)

end Segment

end UntitledOs.Lib
