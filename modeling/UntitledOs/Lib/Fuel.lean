import Mathlib.Data.Nat.Basic

/-!
Loops of a program are modelled by functions of a fuel argument.  `Returns f r`
says that the loop ends, with the result `r`.  A function is `Steady` when more
fuel never changes a result it has given, so that one fuel that gives a result
is enough.
-/

namespace UntitledOs.Lib

variable {α β : Type*}

def Returns (f : Nat → Option α) (r : α) : Prop :=
  ∃ n, ∀ fuel ≥ n, f fuel = some r

theorem Returns.unique {f : Nat → Option α} {r s : α}
    (hr : Returns f r) (hs : Returns f s) : r = s := by
  obtain ⟨n, hn⟩ := hr
  obtain ⟨k, hk⟩ := hs
  have h := hn (max n k) (Nat.le_max_left n k)
  rw [hk (max n k) (Nat.le_max_right n k)] at h
  exact (Option.some.inj h).symm

/-- A loop that never ends. -/
theorem not_returns {f : Nat → Option α} (hf : ∀ fuel, f fuel = none) (r : α) : ¬ Returns f r := by
  rintro ⟨n, hn⟩
  have h := hn n le_rfl
  rw [hf] at h
  cases h

theorem Returns.const (r : α) : Returns (fun _ => some r) r := ⟨0, fun _ _ => rfl⟩

theorem Returns.bind {f : Nat → Option α} {g : Nat → α → Option β} {a : α} {b : β}
    (hf : Returns f a) (hg : Returns (fun fuel => g fuel a) b) :
    Returns (fun fuel => (f fuel).bind (g fuel)) b := by
  obtain ⟨n, hn⟩ := hf
  obtain ⟨k, hk⟩ := hg
  refine ⟨max n k, fun fuel hfuel => ?_⟩
  simp only [hn fuel (by omega), Option.bind_some]
  exact hk fuel (by omega)

theorem Returns.map {f : Nat → Option α} {a : α} (hf : Returns f a) (g : α → β) :
    Returns (fun fuel => (f fuel).map g) (g a) := by
  obtain ⟨n, hn⟩ := hf
  exact ⟨n, fun fuel hfuel => by simp only [hn fuel hfuel, Option.map_some]⟩

theorem Returns.map_eq {f : Nat → Option α} {a : α} {g : α → β} {b : β} (hf : Returns f a)
    (hg : g a = b) : Returns (fun fuel => (f fuel).map g) b :=
  hg ▸ hf.map g

/-- Loops that agree from their second unit of fuel on return the same. -/
theorem Returns.of_succ {f g : Nat → Option α} {r : α}
    (hfg : ∀ fuel, f (fuel + 1) = g (fuel + 1)) (h : Returns g r) : Returns f r := by
  obtain ⟨n, hn⟩ := h
  refine ⟨n + 1, fun fuel hfuel => ?_⟩
  obtain ⟨k, rfl⟩ : ∃ k, fuel = k + 1 := ⟨fuel - 1, by omega⟩
  rw [hfg]
  exact hn _ (by omega)

/-- `p` is no answer, or it is the answer of `q`. -/
def Below (p q : Option α) : Prop := ∀ r, p = some r → q = some r

def Steady (f : Nat → Option α) : Prop := ∀ fuel, Below (f fuel) (f (fuel + 1))

namespace Below

theorem refl (p : Option α) : Below p p := fun _ h => h

theorem none (q : Option α) : Below .none q := fun _ h => nomatch h

theorem bind {p q : Option α} {f g : α → Option β} (h : Below p q)
    (hf : ∀ a, Below (f a) (g a)) : Below (p.bind f) (q.bind g) := by
  intro r hr
  obtain ⟨a, ha, hfa⟩ := Option.bind_eq_some_iff.mp hr
  rw [h a ha, Option.bind_some]
  exact hf a r hfa

theorem map {p q : Option α} (h : Below p q) (f : α → β) : Below (p.map f) (q.map f) := by
  intro r hr
  obtain ⟨a, ha, hfa⟩ := Option.map_eq_some_iff.mp hr
  rw [h a ha, Option.map_some, hfa]

end Below

namespace Steady

theorem const (p : Option α) : Steady fun _ => p := fun _ => Below.refl p

theorem bind {f : Nat → Option α} {g : Nat → α → Option β} (hf : Steady f)
    (hg : ∀ a, Steady fun fuel => g fuel a) : Steady fun fuel => (f fuel).bind (g fuel) :=
  fun fuel => (hf fuel).bind fun a => hg a fuel

theorem map {f : Nat → Option α} (hf : Steady f) (g : α → β) :
    Steady fun fuel => (f fuel).map g :=
  fun fuel => (hf fuel).map g

theorem returns {f : Nat → Option α} (hf : Steady f) (fuel : Nat) {r : α}
    (h : f fuel = some r) : Returns f r := by
  refine ⟨fuel, fun n hn => ?_⟩
  induction n, hn using Nat.le_induction with
  | base => exact h
  | succ n _ ih => exact hf n r ih

end Steady

end UntitledOs.Lib
