import UntitledOs.Kernlib.Kernmem

/-!
# Where a block goes

The walk of `kmalloc_align` computes candidate addresses in 64-bit arithmetic.
`placement` is the same choice in unbounded arithmetic: the first gap of the
list that can take an aligned block, or else the place behind the last node.
As long as the block placed there ends below `2^64`, nothing on the way to it
wraps and the walk of the code is the walk of the model.
-/

namespace UntitledOs.Kernlib

open UntitledOs.Lib

variable {σ : Type}

/-- Lowest header address from `e` on whose payload is a multiple of `align`. -/
def alignedFrom (e align : Nat) : Nat :=
  if (e + kmemNodeSize) % align ≠ 0 then
    e + (align - (e + kmemNodeSize) % align)
  else e

theorem le_alignedFrom (e align : Nat) : e ≤ alignedFrom e align := by
  unfold alignedFrom
  split <;> omega

theorem dvd_alignedFrom {align : Nat} (e : Nat) (h : 1 ≤ align) :
    align ∣ alignedFrom e align + kmemNodeSize := by
  unfold alignedFrom
  split
  · have hlt := Nat.mod_lt (e + kmemNodeSize) h
    have hsum : e + (align - (e + kmemNodeSize) % align) + kmemNodeSize =
        align * ((e + kmemNodeSize) / align + 1) := by
      have := Nat.div_add_mod (e + kmemNodeSize) align
      rw [Nat.mul_add, Nat.mul_one]
      omega
    exact ⟨_, hsum⟩
  · exact Nat.dvd_of_mod_eq_zero (by omega)

theorem alignedFrom_least {e align k : Nat} (hk : align ∣ k)
    (he : e + kmemNodeSize ≤ k) : alignedFrom e align + kmemNodeSize ≤ k := by
  unfold alignedFrom
  split
  · rename_i hmod
    obtain ⟨q, rfl⟩ := hk
    have hdiv := Nat.div_add_mod (e + kmemNodeSize) align
    have hq : (e + kmemNodeSize) / align + 1 ≤ q := by
      by_contra hcon
      have : align * q ≤ align * ((e + kmemNodeSize) / align) :=
        Nat.mul_le_mul_left _ (by omega)
      omega
    have := Nat.mul_le_mul_left align hq
    rw [Nat.mul_add, Nat.mul_one] at this
    omega
  · exact he

theorem alignedFrom_mono {align e e' : Nat} (hal : 1 ≤ align) (h : e ≤ e') :
    alignedFrom e align ≤ alignedFrom e' align := by
  have := alignedFrom_least (dvd_alignedFrom e' hal)
    (show e + kmemNodeSize ≤ alignedFrom e' align + kmemNodeSize by
      have := le_alignedFrom e' align
      omega)
  omega

/-- First address behind the block at `a`. -/
def blockEnd (m : Kmem σ) (a : Nat) : Nat := a + kmemNodeSize + m.sz a

/-- The outcome of the walk in unbounded arithmetic. -/
def firstGap (m : Kmem σ) (size align : Nat) : Nat → List Nat → GapSearch
  | it, [] => .tail it
  | it, a :: rest =>
      if alignedFrom (blockEnd m it) align + kmemNodeSize + size ≤ a then
        .gap it (alignedFrom (blockEnd m it) align) a
      else firstGap m size align a rest

/-- The header address `firstGap` settles on. -/
def placement (m : Kmem σ) (size align : Nat) : List Nat → Nat
  | [] => 0
  | [it] => alignedFrom (blockEnd m it) align
  | it :: a :: rest =>
      if alignedFrom (blockEnd m it) align + kmemNodeSize + size ≤ a then
        alignedFrom (blockEnd m it) align
      else placement m size align (a :: rest)

/-- Neighbouring blocks do not overlap, in address order. -/
abbrev Apart (m : Kmem σ) (cells : List Nat) : Prop :=
  cells.Pairwise fun a b => blockEnd m a ≤ b

theorem alignedFrom_le_placement {m : Kmem σ} (size : Nat) {align it : Nat}
    {rest : List Nat} (hal : 1 ≤ align) (hapart : Apart m (it :: rest)) :
    alignedFrom (blockEnd m it) align ≤ placement m size align (it :: rest) := by
  induction rest generalizing it with
  | nil => exact Nat.le_refl _
  | cons a rest ih =>
      rw [placement]
      split
      · exact Nat.le_refl _
      · have hstep : blockEnd m it ≤ blockEnd m a := by
          have := List.rel_of_pairwise_cons hapart (List.mem_cons_self (a := a))
          unfold blockEnd at *
          omega
        exact (alignedFrom_mono hal hstep).trans (ih hapart.of_cons)

theorem gapBegin_eq {m : Kmem σ} {it align : Nat}
    (h : alignedFrom (blockEnd m it) align + kmemNodeSize < 2 ^ 64) :
    gapBegin m it align = alignedFrom (blockEnd m it) align := by
  have hle := le_alignedFrom (blockEnd m it) align
  have hend : u64 (it + kmemNodeSize + m.sz it) = blockEnd m it :=
    u64_of_lt (by unfold blockEnd at *; omega)
  have hpay : u64 (blockEnd m it + kmemNodeSize) = blockEnd m it + kmemNodeSize :=
    u64_of_lt (by omega)
  simp only [gapBegin, hend, hpay]
  unfold alignedFrom at h ⊢
  split
  · rename_i hmod
    rw [if_pos hmod] at h
    exact u64_of_lt (by omega)
  · rfl

theorem gapSearch_eq {m : Kmem σ} {size align it fuel : Nat}
    {before : Option Nat} {rest : List Nat} (hal : 1 ≤ align)
    (hseg : Segment m.next m.prev before (it :: rest) none)
    (hapart : Apart m (it :: rest)) (hlt : ∀ a ∈ rest, a < 2 ^ 64)
    (hwrap : placement m size align (it :: rest) + kmemNodeSize + size < 2 ^ 64)
    (hfuel : rest.length < fuel) :
    gapSearch m size align fuel it = some (firstGap m size align it rest) := by
  induction fuel generalizing it before rest with
  | zero => omega
  | succ fuel ih =>
      cases rest with
      | nil =>
          have hnext : m.next it = none := hseg.2.1
          simp [gapSearch, firstGap, hnext]
      | cons a rest =>
          have hnext : m.next it = some a := hseg.2.1
          have hplace := alignedFrom_le_placement size hal hapart
          have hbegin : gapBegin m it align = alignedFrom (blockEnd m it) align :=
            gapBegin_eq (by omega)
          have hsize : u64 (size + kmemNodeSize) = size + kmemNodeSize :=
            u64_of_lt (by omega)
          have hcond : (a > alignedFrom (blockEnd m it) align ∧
              a - alignedFrom (blockEnd m it) align ≥ size + kmemNodeSize) ↔
              alignedFrom (blockEnd m it) align + kmemNodeSize + size ≤ a := by
            unfold kmemNodeSize
            omega
          simp only [gapSearch, hnext, hbegin, hsize, hcond, firstGap]
          by_cases hfit :
              alignedFrom (blockEnd m it) align + kmemNodeSize + size ≤ a
          · rw [if_pos hfit, if_pos hfit]
          · rw [if_neg hfit, if_neg hfit]
            rw [placement, if_neg hfit] at hwrap
            refine ih hseg.2.2 hapart.of_cons
              (fun x hx => hlt x (by simp [hx])) hwrap ?_
            simpa using hfuel

/-- More fuel does not change the outcome of a walk that has ended. -/
theorem gapSearch_mono {m : Kmem σ} {size align it fuel fuel' : Nat}
    {r : GapSearch} (hle : fuel ≤ fuel')
    (h : gapSearch m size align fuel it = some r) :
    gapSearch m size align fuel' it = some r := by
  induction fuel generalizing it fuel' with
  | zero => simp [gapSearch] at h
  | succ fuel ih =>
      obtain ⟨fuel', rfl⟩ := Nat.exists_eq_add_of_le' (Nat.lt_of_lt_of_le (Nat.succ_pos _) hle)
      simp only [gapSearch] at h ⊢
      cases hnext : m.next it with
      | none => simpa [hnext] using h
      | some a =>
          simp only [hnext] at h ⊢
          split at h
          · rename_i hfit
            rw [if_pos hfit]
            exact h
          · rename_i hfit
            rw [if_neg hfit]
            exact ih (by omega) h

/-- What the outcome of the walk says about the list. -/
inductive FoundPlace (m : Kmem σ) (size align : Nat) (cells : List Nat) :
    GapSearch → Prop
  | gap (left right : List Nat) (it a : Nat)
      (hcells : cells = left ++ it :: a :: right)
      (hfit : alignedFrom (blockEnd m it) align + kmemNodeSize + size ≤ a)
      (hplace : placement m size align cells =
        alignedFrom (blockEnd m it) align) :
      FoundPlace m size align cells
        (.gap it (alignedFrom (blockEnd m it) align) a)
  | tail (left : List Nat) (it : Nat) (hcells : cells = left ++ [it])
      (hplace : placement m size align cells =
        alignedFrom (blockEnd m it) align) :
      FoundPlace m size align cells (.tail it)

theorem firstGap_found (m : Kmem σ) (size align it : Nat) (rest : List Nat) :
    FoundPlace m size align (it :: rest) (firstGap m size align it rest) := by
  induction rest generalizing it with
  | nil => exact .tail [] it rfl rfl
  | cons a rest ih =>
      rw [firstGap]
      split
      · rename_i hfit
        exact .gap [] rest it a rfl hfit (by rw [placement, if_pos hfit])
      · rename_i hfit
        have hplace : placement m size align (it :: a :: rest) =
            placement m size align (a :: rest) := by
          rw [placement, if_neg hfit]
        have hfound := ih a
        generalize firstGap m size align a rest = outcome at hfound ⊢
        cases hfound with
        | gap left right it' a' hcells hfit' hplace' =>
            exact .gap (it :: left) right it' a' (by rw [hcells]; rfl) hfit'
              (hplace.trans hplace')
        | tail left it' hcells hplace' =>
            exact .tail (it :: left) it' (by rw [hcells]; rfl)
              (hplace.trans hplace')

end UntitledOs.Kernlib
