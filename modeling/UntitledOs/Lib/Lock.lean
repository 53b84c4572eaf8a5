import Mathlib.Logic.Function.Basic
import Mathlib.Data.List.Basic

/-!
# A test-and-set lock

CPUs that share a state and one lock word, their steps interleaved in any order.
A CPU with a request tries the word until it finds it clear, works on the state
in as many steps as its code takes, and gives the word back or forgets to.

In every interleaving the state is what the finished requests make of it one
after the other, and then the steps taken so far by the one CPU inside.
-/

namespace UntitledOs.Lib.Lock

/-- What a CPU inside does next. -/
inductive Turn (S L R : Type*) where
  | go (l : L) (s : S)
  | unlock (r : R)
  /-- out, with the word still taken -/
  | leave (r : R)

/-- The code of a request from the lock on; `L` is what the CPU keeps to itself. -/
structure Code (S Q L R : Type*) where
  enter : Q → L
  turn : L → S → Turn S L R

inductive Phase (Q L R : Type*) where
  | idle
  | spinning (q : Q)
  | inside (q : Q) (l : L)
  | after (q : Q) (r : R)

structure World (ι S Q L R : Type*) where
  word : Bool
  shared : S
  phase : ι → Phase Q L R

variable {ι S Q L R : Type*} [DecidableEq ι]

namespace World

def initial (s : S) : World ι S Q L R := ⟨false, s, fun _ => .idle⟩

def setPhase (w : World ι S Q L R) (i : ι) (p : Phase Q L R) : World ι S Q L R :=
  { w with phase := Function.update w.phase i p }

def Inside (w : World ι S Q L R) (i : ι) : Prop := ∃ q l, w.phase i = .inside q l

@[simp] theorem setPhase_word (w : World ι S Q L R) (i : ι) (p : Phase Q L R) :
    (w.setPhase i p).word = w.word := rfl

@[simp] theorem setPhase_shared (w : World ι S Q L R) (i : ι) (p : Phase Q L R) :
    (w.setPhase i p).shared = w.shared := rfl

@[simp] theorem setPhase_phase (w : World ι S Q L R) (i j : ι) (p : Phase Q L R) :
    (w.setPhase i p).phase j = if j = i then p else w.phase j :=
  Function.update_apply w.phase i p j

theorem inside_setPhase_ne {w : World ι S Q L R} {i j : ι} {p : Phase Q L R} (h : j ≠ i) :
    (w.setPhase i p).Inside j ↔ w.Inside j := by
  simp [Inside, h]

end World

/--
One atomic step of CPU `i`, with the request it finishes, if any.  The lock is ideal: its word
is tested and set in one step, and only a clear word is taken.
-/
inductive Step (C : Code S Q L R) :
    World ι S Q L R → List (ι × Q × R) → World ι S Q L R → Prop
  | call {w : World ι S Q L R} (i : ι) (q : Q) (h : w.phase i = .idle) :
      Step C w [] (w.setPhase i (.spinning q))
  | spin {w : World ι S Q L R} (i : ι) (q : Q) (h : w.phase i = .spinning q)
      (hword : w.word = true) : Step C w [] w
  | take {w : World ι S Q L R} (i : ι) (q : Q) (h : w.phase i = .spinning q)
      (hword : w.word = false) :
      Step C w [] { w.setPhase i (.inside q (C.enter q)) with word := true }
  | go {w : World ι S Q L R} {i : ι} {q : Q} {l l' : L} {s : S} (h : w.phase i = .inside q l)
      (hturn : C.turn l w.shared = .go l' s) :
      Step C w [] { w.setPhase i (.inside q l') with shared := s }
  | unlock {w : World ι S Q L R} {i : ι} {q : Q} {l : L} {r : R} (h : w.phase i = .inside q l)
      (hturn : C.turn l w.shared = .unlock r) :
      Step C w [(i, q, r)] { w.setPhase i (.after q r) with word := false }
  | leave {w : World ι S Q L R} {i : ι} {q : Q} {l : L} {r : R} (h : w.phase i = .inside q l)
      (hturn : C.turn l w.shared = .leave r) :
      Step C w [(i, q, r)] (w.setPhase i (.after q r))
  | back {w : World ι S Q L R} {i : ι} {q : Q} {r : R} (h : w.phase i = .after q r) :
      Step C w [] (w.setPhase i .idle)

/-- Any number of steps, with the requests they finish in order. -/
inductive Run (C : Code S Q L R) (w : World ι S Q L R) :
    List (ι × Q × R) → World ι S Q L R → Prop
  | nil : Run C w [] w
  | snoc {hist e : List (ι × Q × R)} {w' w'' : World ι S Q L R} :
      Run C w hist w' → Step C w' e w'' → Run C w (hist ++ e) w''

/-- The steps of one request while nothing else happens. -/
inductive Solo (C : Code S Q L R) (l : L) (s : S) : L → S → Prop
  | nil : Solo C l s l s
  | snoc {l' l'' : L} {s' s'' : S} :
      Solo C l s l' s' → C.turn l' s' = .go l'' s'' → Solo C l s l'' s''

/-- Requests served one after the other, each from start to end. -/
inductive Serial (C : Code S Q L R) (s : S) : List (ι × Q × R) → S → Prop
  | nil : Serial C s [] s
  | snoc {hist : List (ι × Q × R)} {i : ι} {q : Q} {r : R} {l : L} {s' s'' : S} :
      Serial C s hist s' → Solo C (C.enter q) s' l s'' → C.turn l s'' = .unlock r →
      Serial C s (hist ++ [(i, q, r)]) s''

/-- How a state of the world comes about from `s` by the finished requests `hist`. -/
inductive Explained (C : Code S Q L R) (s : S) (w : World ι S Q L R) :
    List (ι × Q × R) → Prop
  | free {hist : List (ι × Q × R)} (hword : w.word = false) (hout : ∀ j, ¬ w.Inside j)
      (hserial : Serial C s hist w.shared) : Explained C s w hist
  | held {hist : List (ι × Q × R)} {i : ι} {q : Q} {l : L} {s' : S} (hword : w.word = true)
      (hin : w.phase i = .inside q l) (hout : ∀ j, j ≠ i → ¬ w.Inside j)
      (hserial : Serial C s hist s') (hsolo : Solo C (C.enter q) s' l w.shared) :
      Explained C s w hist
  | lost {hist : List (ι × Q × R)} {i : ι} {q : Q} {r : R} {l : L} {s' : S}
      (hword : w.word = true) (hout : ∀ j, ¬ w.Inside j) (hserial : Serial C s hist s')
      (hsolo : Solo C (C.enter q) s' l w.shared) (hturn : C.turn l w.shared = .leave r) :
      Explained C s w (hist ++ [(i, q, r)])

variable {C : Code S Q L R} {s : S} {w w' : World ι S Q L R} {hist : List (ι × Q × R)}

theorem World.not_inside_setPhase {i j : ι} {p : Phase Q L R} (hout : j ≠ i → ¬ w.Inside j)
    (hp : ∀ q l, p ≠ .inside q l) : ¬ (w.setPhase i p).Inside j := by
  by_cases hji : j = i
  · rintro ⟨q, l, hin⟩
    rw [World.setPhase_phase, if_pos hji] at hin
    exact hp q l hin
  · rw [World.inside_setPhase_ne hji]
    exact hout hji

/-- A step of a CPU that is not inside, before and after, changes nothing for the others. -/
theorem Explained.setPhase {i : ι} {p : Phase Q L R} (h : Explained C s w hist)
    (hi : ¬ w.Inside i) (hp : ∀ q l, p ≠ .inside q l) : Explained C s (w.setPhase i p) hist := by
  cases h with
  | free hword hout hserial =>
      exact .free hword (fun j => World.not_inside_setPhase (fun _ => hout j) hp) hserial
  | @held _ k q l s' hword hin hout hserial hsolo =>
      have hki : k ≠ i := fun e => hi ⟨q, l, e ▸ hin⟩
      have hin' : (w.setPhase i p).phase k = .inside q l := by simpa [hki] using hin
      exact .held hword hin'
        (fun j hj => World.not_inside_setPhase (fun _ => hout j hj) hp) hserial hsolo
  | lost hword hout hserial hsolo hturn =>
      exact .lost hword (fun j => World.not_inside_setPhase (fun _ => hout j) hp) hserial hsolo hturn

/-- The CPU inside is the one the state is explained by. -/
theorem Explained.of_inside {i : ι} {q : Q} {l : L} (h : Explained C s w hist)
    (hin : w.phase i = .inside q l) :
    w.word = true ∧ (∀ j, j ≠ i → ¬ w.Inside j) ∧
      ∃ s', Serial C s hist s' ∧ Solo C (C.enter q) s' l w.shared := by
  cases h with
  | free _ hout _ => exact absurd ⟨q, l, hin⟩ (hout i)
  | @held _ k q' l' s' hword hin' hout hserial hsolo =>
      obtain rfl : i = k := by
        by_contra hne
        exact hout i hne ⟨q, l, hin⟩
      obtain ⟨rfl, rfl⟩ : q = q' ∧ l = l' := by
        rw [hin] at hin'
        cases hin'
        exact ⟨rfl, rfl⟩
      exact ⟨hword, hout, s', hserial, hsolo⟩
  | lost _ hout _ _ _ => exact absurd ⟨q, l, hin⟩ (hout i)

theorem Explained.step {e : List (ι × Q × R)} (h : Explained C s w hist) (hstep : Step C w e w') :
    Explained C s w' (hist ++ e) := by
  have hstill : ∀ {i : ι} {q : Q}, w.phase i = .idle ∨ w.phase i = .spinning q ∨
      (∃ r, w.phase i = .after q r) → ¬ w.Inside i := by
    rintro i q hph ⟨q', l', hin⟩
    rw [hin] at hph
    rcases hph with hph | hph | ⟨r, hph⟩ <;> cases hph
  cases hstep with
  | call i q hph =>
      rw [List.append_nil]
      exact h.setPhase (@hstill i q (.inl hph)) (fun _ _ hp => nomatch hp)
  | spin i q hph hword =>
      rw [List.append_nil]
      exact h
  | take i q hph hword =>
      rw [List.append_nil]
      cases h with
      | free _ hout hserial =>
          refine .held rfl (if_pos rfl : _ = Phase.inside q (C.enter q)) ?_ hserial .nil
          intro j hj hin
          exact hout j ((World.inside_setPhase_ne hj).mp hin)
      | held hheld _ _ _ _ => exact absurd (hword.symm.trans hheld) (by decide)
      | lost hheld _ _ _ _ => exact absurd (hword.symm.trans hheld) (by decide)
  | @go i q l l' s₂ hph hturn =>
      rw [List.append_nil]
      obtain ⟨hword, hout, s', hserial, hsolo⟩ := h.of_inside hph
      refine .held hword (if_pos rfl : _ = Phase.inside q l') ?_ hserial (.snoc hsolo hturn)
      intro j hj hin
      exact hout j hj ((World.inside_setPhase_ne hj).mp hin)
  | @unlock i q l r hph hturn =>
      obtain ⟨-, hout, s', hserial, hsolo⟩ := h.of_inside hph
      exact .free rfl (fun j => World.not_inside_setPhase (hout j) (fun _ _ hp => nomatch hp))
        (.snoc hserial hsolo hturn)
  | @leave i q l r hph hturn =>
      obtain ⟨hword, hout, s', hserial, hsolo⟩ := h.of_inside hph
      exact .lost hword (fun j => World.not_inside_setPhase (hout j) (fun _ _ hp => nomatch hp))
        hserial hsolo hturn
  | @back i q r hph =>
      rw [List.append_nil]
      exact h.setPhase (@hstill i q (.inr (.inr ⟨r, hph⟩))) (fun _ _ hp => nomatch hp)

/-- Every interleaving is explained by the requests it has finished, in the order they left. -/
theorem Run.explained (h : Run C (World.initial s) hist w) : Explained C s w hist := by
  induction h with
  | nil => exact .free rfl (fun j => by rintro ⟨q, l, hin⟩; cases hin) .nil
  | snoc _ hstep ih => exact ih.step hstep

theorem Run.mutual_exclusion {i j : ι} (h : Run C (World.initial s) hist w) (hi : w.Inside i)
    (hj : w.Inside j) : i = j := by
  obtain ⟨q, l, hin⟩ := hi
  by_contra hne
  exact (h.explained.of_inside hin).2.1 j (Ne.symm hne) hj

theorem Run.trans {w'' : World ι S Q L R} {hist' : List (ι × Q × R)} (h : Run C w hist w')
    (h' : Run C w' hist' w'') : Run C w (hist ++ hist') w'' := by
  induction h' with
  | nil => rwa [List.append_nil]
  | snoc _ hstep ih =>
      rw [← List.append_assoc]
      exact .snoc ih hstep

theorem World.after_of_setPhase {i j : ι} {p : Phase Q L R} {q : Q} {r : R}
    (h : (w.setPhase j p).phase i = .after q r) (hp : p ≠ .after q r) :
    w.phase i = .after q r := by
  rw [World.setPhase_phase] at h
  split at h
  · exact absurd h hp
  · exact h

theorem World.after_setPhase {i j : ι} {q q' : Q} {r r' : R}
    (h : (w.setPhase j (.after q' r')).phase i = .after q r) :
    w.phase i = .after q r ∨ (i, q, r) = (j, q', r') := by
  rw [World.setPhase_phase] at h
  split at h
  · rename_i hij
    cases h
    exact .inr (by rw [hij])
  · exact .inl h

/-- A request whose CPU is on its way out is among the finished ones. -/
theorem Run.after_mem {i : ι} {q : Q} {r : R} (h : Run C (World.initial s) hist w)
    (hph : w.phase i = .after q r) : (i, q, r) ∈ hist := by
  induction h with
  | nil => cases hph
  | snoc _ hstep ih =>
      rw [List.mem_append]
      cases hstep with
      | call _ _ _ => exact .inl (ih (World.after_of_setPhase hph (fun e => nomatch e)))
      | spin _ _ _ _ => exact .inl (ih hph)
      | take _ _ _ _ => exact .inl (ih (World.after_of_setPhase hph (fun e => nomatch e)))
      | go _ _ => exact .inl (ih (World.after_of_setPhase hph (fun e => nomatch e)))
      | unlock _ _ => exact (World.after_setPhase hph).imp ih List.mem_singleton.mpr
      | leave _ _ => exact (World.after_setPhase hph).imp ih List.mem_singleton.mpr
      | back _ => exact .inl (ih (World.after_of_setPhase hph (fun e => nomatch e)))

/-- A word taken with nobody inside is never given back: no request finishes any more. -/
theorem Run.lost (h : Run C w hist w') (hword : w.word = true) (hout : ∀ j, ¬ w.Inside j) :
    hist = [] ∧ w'.word = true ∧ w'.shared = w.shared ∧ ∀ j, ¬ w'.Inside j := by
  induction h with
  | nil => exact ⟨rfl, hword, rfl, hout⟩
  | snoc _ hstep ih =>
      obtain ⟨rfl, hword', hshared, hout'⟩ := ih
      cases hstep with
      | call i q _ =>
          exact ⟨rfl, hword', hshared,
            fun j => World.not_inside_setPhase (fun _ => hout' j) (fun _ _ hp => nomatch hp)⟩
      | spin => exact ⟨rfl, hword', hshared, hout'⟩
      | take _ _ _ hclear => exact absurd (hclear.symm.trans hword') (by decide)
      | @go i q l _ _ hph _ => exact absurd ⟨q, l, hph⟩ (hout' i)
      | @unlock i q l _ hph _ => exact absurd ⟨q, l, hph⟩ (hout' i)
      | @leave i q l _ hph _ => exact absurd ⟨q, l, hph⟩ (hout' i)
      | back _ =>
          exact ⟨rfl, hword', hshared,
            fun j => World.not_inside_setPhase (fun _ => hout' j) (fun _ _ hp => nomatch hp)⟩

/-- CPU `i` takes the next step of its request, if it has one. -/
def World.advance (C : Code S Q L R) (i : ι) (w : World ι S Q L R) :
    List (ι × Q × R) × World ι S Q L R :=
  match w.phase i with
  | .spinning q =>
      if w.word then ([], w)
      else ([], { w.setPhase i (.inside q (C.enter q)) with word := true })
  | .inside q l =>
      match C.turn l w.shared with
      | .go l' s => ([], { w.setPhase i (.inside q l') with shared := s })
      | .unlock r => ([(i, q, r)], { w.setPhase i (.after q r) with word := false })
      | .leave r => ([(i, q, r)], w.setPhase i (.after q r))
  | _ => ([], w)

/-- The CPUs of `order` advance one after the other. -/
def World.play (C : Code S Q L R) (w : World ι S Q L R) :
    List ι → List (ι × Q × R) × World ι S Q L R
  | [] => ([], w)
  | i :: order =>
      let (e, w') := w.advance C i
      let (hist, w'') := w'.play C order
      (e ++ hist, w'')

theorem Run.advance (h : Run C w hist w') (i : ι) :
    Run C w (hist ++ (w'.advance C i).1) (w'.advance C i).2 := by
  unfold World.advance
  split
  · rename_i q hph
    split
    · simpa using h
    · rename_i hword
      exact .snoc h (.take i q hph (by simpa using hword))
  · rename_i q l hph
    split
    · rename_i l' s' hturn
      exact .snoc h (.go hph hturn)
    · rename_i r hturn
      exact .snoc h (.unlock hph hturn)
    · rename_i r hturn
      exact .snoc h (.leave hph hturn)
  · simpa using h

theorem Run.play (h : Run C w hist w') (order : List ι) :
    Run C w (hist ++ (w'.play C order).1) (w'.play C order).2 := by
  induction order generalizing hist w' with
  | nil => simpa [World.play] using h
  | cons i order ih =>
      simp only [World.play, ← List.append_assoc]
      exact ih (h.advance i)

/-- A CPU inside that goes round in its code for ever keeps all others out. -/
theorem Run.stuck {i : ι} {q : Q} {l : L} {hist' : List (ι × Q × R)}
    (h : Run C (World.initial s) hist w) (hin : w.phase i = .inside q l)
    (hl : ∀ s, C.turn l s = .go l s) (hmore : Run C w hist' w') :
    hist' = [] ∧ w'.phase i = .inside q l ∧ w'.shared = w.shared := by
  induction hmore with
  | nil => exact ⟨rfl, hin, rfl⟩
  | @snoc hist' e w₁ w₂ hrun hstep ih =>
      obtain ⟨rfl, hin', hshared⟩ := ih
      obtain ⟨hword, hout, -⟩ := (h.trans hrun).explained.of_inside hin'
      have honly : ∀ {j : ι} {q' : Q} {l' : L}, w₁.phase j = .inside q' l' →
          j = i ∧ q' = q ∧ l' = l := by
        intro j q' l' hj
        obtain rfl : j = i := by
          by_contra hne
          exact hout j hne ⟨q', l', hj⟩
        rw [hin'] at hj
        cases hj
        exact ⟨rfl, rfl, rfl⟩
      have hother : ∀ {j : ι} {p : Phase Q L R}, (∀ q' l', w₁.phase j ≠ .inside q' l') →
          (w₁.setPhase j p).phase i = .inside q l := by
        intro j p hj
        have hne : i ≠ j := by
          rintro rfl
          exact hj q l hin'
        rw [World.setPhase_phase, if_neg hne]
        exact hin'
      cases hstep with
      | call j q' hph =>
          exact ⟨rfl, hother (fun _ _ e => nomatch hph.symm.trans e), hshared⟩
      | spin _ _ _ _ => exact ⟨rfl, hin', hshared⟩
      | take _ _ _ hclear => exact absurd (hclear.symm.trans hword) (by decide)
      | go hph hturn =>
          obtain ⟨rfl, rfl, rfl⟩ := honly hph
          rw [hl, Turn.go.injEq] at hturn
          obtain ⟨rfl, rfl⟩ := hturn
          exact ⟨rfl, if_pos rfl, hshared⟩
      | unlock hph hturn =>
          obtain ⟨rfl, rfl, rfl⟩ := honly hph
          rw [hl] at hturn
          cases hturn
      | leave hph hturn =>
          obtain ⟨rfl, rfl, rfl⟩ := honly hph
          rw [hl] at hturn
          cases hturn
      | back hph =>
          exact ⟨rfl, hother (fun _ _ e => nomatch hph.symm.trans e), hshared⟩

end UntitledOs.Lib.Lock
