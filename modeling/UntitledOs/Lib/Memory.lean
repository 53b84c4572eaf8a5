import UntitledOs.Lib.Bytes

/-!
# Memory behind pointers

A pointer is a 64-bit word and wraps around.  The bytes of a range are those
whose distance from its start, on the circle of addresses, is below its length.
-/

namespace UntitledOs.Lib

abbrev Addr := BitVec 64

abbrev Memory := Addr → Byte

/-- `x` is one of the `n` bytes from `a` on. -/
def InRange (a : Addr) (n : Nat) (x : Addr) : Prop := (x - a).toNat < n

instance (a : Addr) (n : Nat) (x : Addr) : Decidable (InRange a n x) :=
  inferInstanceAs (Decidable ((x - a).toNat < n))

/-- No byte lies in both ranges. -/
def Apart (a b : Addr) (n : Nat) : Prop := ∀ x, InRange a n x → ¬ InRange b n x

/-- The `n` addresses from `a` on. -/
def addrs (a : Addr) (n : Nat) : List Addr := (List.range n).map fun i => a + BitVec.ofNat 64 i

namespace Memory

/-- The memory from `a` on. -/
def view (m : Memory) (a : Addr) : Bytes := fun i => m (a + BitVec.ofNat 64 i)

/-- The `n` bytes from `a` on replaced by the first ones of `src`. -/
def put (m : Memory) (a : Addr) (src : Bytes) (n : Nat) : Memory := fun x =>
  if InRange a n x then src (x - a).toNat else m x

/-- The copy of `n` bytes within one memory. -/
def copy (m : Memory) (dest src : Addr) (n : Nat) : Memory := m.put dest (m.view src) n

end Memory

section Range

variable {a b x : Addr} {i j k n : Nat}

theorem add_ofNat (a : Addr) (i j : Nat) :
    a + BitVec.ofNat 64 i + BitVec.ofNat 64 j = a + BitVec.ofNat 64 (i + j) := by
  rw [BitVec.add_assoc, ← BitVec.ofNat_add]

theorem toNat_add_ofNat (h : a.toNat + i < 2 ^ 64) :
    (a + BitVec.ofNat 64 i).toNat = a.toNat + i := by
  rw [BitVec.toNat_add, BitVec.toNat_ofNat, Nat.add_mod_mod]
  exact Nat.mod_eq_of_lt h

theorem distance (h : i < 2 ^ 64) : (a + BitVec.ofNat 64 i - a).toNat = i := by
  rw [BitVec.add_comm, BitVec.add_sub_cancel, BitVec.toNat_ofNat]
  exact Nat.mod_eq_of_lt h

theorem inRange_add (hn : n ≤ 2 ^ 64) (h : i < n) : InRange a n (a + BitVec.ofNat 64 i) := by
  unfold InRange
  rwa [distance (by omega)]

theorem InRange.exists_add (h : InRange a n x) : ∃ i < n, x = a + BitVec.ofNat 64 i := by
  refine ⟨(x - a).toNat, h, ?_⟩
  rw [BitVec.ofNat_toNat, BitVec.setWidth_eq, BitVec.add_comm, BitVec.sub_add_cancel]

theorem mem_addrs (hn : n ≤ 2 ^ 64) : x ∈ addrs a n ↔ InRange a n x := by
  unfold addrs
  simp only [List.mem_map, List.mem_range]
  constructor
  · rintro ⟨i, hi, rfl⟩
    exact inRange_add hn hi
  · intro h
    obtain ⟨i, hi, rfl⟩ := h.exists_add
    exact ⟨i, hi, rfl⟩

theorem addrs_add (a : Addr) (j k : Nat) :
    addrs a (j + k) = addrs a j ++ addrs (a + BitVec.ofNat 64 j) k := by
  unfold addrs
  rw [List.range_add, List.map_append, List.map_map]
  congr 1
  refine List.map_congr_left fun i _ => ?_
  rw [Function.comp_apply, add_ofNat]

/-- A range cut in two. -/
theorem inRange_split (h : j + k ≤ 2 ^ 64) :
    InRange a (j + k) x ↔ InRange a j x ∨ InRange (a + BitVec.ofNat 64 j) k x := by
  rw [← mem_addrs h, ← mem_addrs (by omega), ← mem_addrs (by omega), addrs_add, List.mem_append]

theorem Apart.left (h : Apart a b (j + k)) (hn : j + k ≤ 2 ^ 64) : Apart a b j :=
  fun x ha hb => h x ((inRange_split hn).mpr (.inl ha)) ((inRange_split hn).mpr (.inl hb))

theorem Apart.right (h : Apart a b (j + k)) (hn : j + k ≤ 2 ^ 64) :
    Apart (a + BitVec.ofNat 64 j) (b + BitVec.ofNat 64 j) k :=
  fun x ha hb => h x ((inRange_split hn).mpr (.inr ha)) ((inRange_split hn).mpr (.inr hb))

end Range

namespace Memory

variable {m : Memory} {a dest src x : Addr} {s s' : Bytes} {i j k n : Nat}

theorem view_add (m : Memory) (a : Addr) (j i : Nat) :
    m.view (a + BitVec.ofNat 64 j) i = m.view a (j + i) := by
  unfold view
  rw [add_ofNat]

theorem put_add (hn : n ≤ 2 ^ 64) (h : i < n) : m.put a s n (a + BitVec.ofNat 64 i) = s i := by
  unfold put
  rw [if_pos (inRange_add hn h), distance (by omega)]

theorem put_of_outside (h : ¬ InRange a n x) : m.put a s n x = m x := if_neg h

theorem put_congr (h : ∀ i < n, s i = s' i) : m.put a s n = m.put a s' n := by
  funext x
  unfold put
  split
  · rename_i hx
    exact h _ hx
  · rfl

@[simp] theorem put_zero (m : Memory) (a : Addr) (s : Bytes) : m.put a s 0 = m := by
  funext x
  exact put_of_outside (Nat.not_lt_zero _)

theorem put_put (hn : j + k ≤ 2 ^ 64) :
    (m.put a s j).put (a + BitVec.ofNat 64 j) (fun i => s (j + i)) k = m.put a s (j + k) := by
  funext x
  by_cases hhigh : InRange (a + BitVec.ofNat 64 j) k x
  · obtain ⟨i, hi, rfl⟩ := hhigh.exists_add
    rw [put_add (by omega) hi, add_ofNat, put_add hn (by omega)]
  rw [put_of_outside hhigh]
  by_cases hlow : InRange a j x
  · obtain ⟨i, hi, rfl⟩ := hlow.exists_add
    rw [put_add (by omega) hi, put_add hn (by omega)]
  · have hout : ¬ InRange a (j + k) x := by
      rw [inRange_split hn]
      exact not_or.mpr ⟨hlow, hhigh⟩
    rw [put_of_outside hlow, put_of_outside hout]

/-- A copy between ranges apart, taken up after its first `j` bytes. -/
theorem copy_copy (h : Apart dest src (j + k)) (hn : j + k ≤ 2 ^ 64) :
    (m.copy dest src j).copy (dest + BitVec.ofNat 64 j) (src + BitVec.ofNat 64 j) k =
      m.copy dest src (j + k) := by
  unfold copy
  rw [← put_put hn]
  refine put_congr fun i hi => ?_
  rw [view_add]
  refine put_of_outside fun hdest => ?_
  exact h _ ((inRange_split hn).mpr (.inl hdest)) (inRange_add hn (by omega))

/-- The bytes of `m` by their addresses as numbers. -/
def Shows (m : Memory) (b : Bytes) : Prop := ∀ a, m a = b a.toNat

theorem Shows.view {b : Bytes} (h : m.Shows b) (hi : a.toNat + i < 2 ^ 64) :
    m.view a i = b (a.toNat + i) := by
  unfold Memory.view
  rw [h, toNat_add_ofNat hi]

/-- What is written into a range that does not wrap around. -/
theorem Shows.put {b : Bytes} (h : m.Shows b) (hs : ∀ i < n, s i = s' i)
    (hn : a.toNat + n ≤ 2 ^ 64) : (m.put a s n).Shows (copyTo b a.toNat s' n) := by
  intro x
  unfold Memory.put copyTo
  have hrange : InRange a n x ↔ a.toNat ≤ x.toNat ∧ x.toNat < a.toNat + n := by
    unfold InRange
    bv_omega
  simp only [hrange]
  split
  · rename_i hx
    have hdist : (x - a).toNat = x.toNat - a.toNat := by bv_omega
    rw [hdist]
    exact hs _ (by omega)
  · exact h x

end Memory

end UntitledOs.Lib
