import UntitledOs.Kernlib.Placement

/-!
# The heap list in the boot phase

Before `kmem_set_map_functions` the heap only moves `occupied_to`.  `HeapList`
is the invariant of the node list; linking a block in and unlinking one keep
it, and so every history of `kmalloc_align`, `krealloc_align` and `kfree` does.
-/

namespace UntitledOs.Kernlib

open UntitledOs.Lib

variable {σ : Type}

@[simp] theorem spinlockLock_ignored {env : KmemEnv σ}
    (h : env.spin = false) (m : Kmem σ) :
    spinlockLock env m = some m := by
  simp [spinlockLock, h]

@[simp] theorem spinlockUnlock_ignored {env : KmemEnv σ}
    (h : env.spin = false) (m : Kmem σ) :
    spinlockUnlock env m = m := by
  simp [spinlockUnlock, h]

/-- `cells` are the nodes from `kmem_head` on, in list order. -/
structure HeapList (m : Kmem σ) (cells : List Nat) : Prop where
  head : cells.head? = some kmemHeapBase
  head_sz : m.sz kmemHeapBase = 0
  linked : LinkedList m.next m.prev cells
  apart : Apart m cells
  below : ∀ a ∈ cells.tail, blockEnd m a ≤ m.occupiedTo
  limit : kmemHeapBase ≤ m.occupiedTo ∧ m.occupiedTo < 2 ^ 64

/-- The writes that link the block `b` in behind `it`, and no others. -/
structure LinkedIn (m m' : Kmem σ) (left : List Nat) (it b : Nat)
    (right : List Nat) (size : Nat) : Prop where
  sz_new : m'.sz b = size
  sz_old : ∀ x ∈ left ++ it :: right, m'.sz x = m.sz x
  next_new : m'.next it = some b ∧ m'.next b = right.head?
  prev_new : m'.prev b = some it
  prev_succ : ∀ x, right.head? = some x → m'.prev x = some b
  next_old : ∀ x ∈ left ++ it :: right, x ≠ it → m'.next x = m.next x
  prev_old : ∀ x ∈ left ++ it :: right, right.head? ≠ some x →
    m'.prev x = m.prev x

namespace HeapList

variable {m : Kmem σ} {cells left right : List Nat} {a b it size align : Nat}

theorem nodup (h : HeapList m cells) : cells.Nodup :=
  h.apart.imp (fun {x y} hxy => by unfold blockEnd kmemNodeSize at hxy; omega)

theorem eq_cons (h : HeapList m cells) :
    cells = kmemHeapBase :: cells.tail := by
  obtain ⟨rest, hrest⟩ := List.head?_eq_some_iff.mp h.head
  rw [hrest]
  rfl

theorem base_le (h : HeapList m cells) (hb : b ∈ cells) : kmemHeapBase ≤ b := by
  rw [h.eq_cons] at hb
  have hap := h.apart
  rw [h.eq_cons] at hap
  rcases List.mem_cons.mp hb with rfl | hb
  · exact Nat.le_refl _
  · have := List.rel_of_pairwise_cons hap hb
    unfold blockEnd at this
    omega

theorem blockEnd_lt (h : HeapList m cells) (hb : b ∈ cells) :
    blockEnd m b < 2 ^ 64 := by
  have hlimit := h.limit
  rw [h.eq_cons] at hb
  rcases List.mem_cons.mp hb with rfl | hb
  · have := h.head_sz
    unfold blockEnd kmemHeapBase kmemNodeSize at *
    omega
  · have := h.below b hb
    omega

/-- A block linked in between its neighbours keeps the invariant. -/
theorem link {m' : Kmem σ} (h : HeapList m (left ++ it :: right))
    (hin : LinkedIn m m' left it b right size)
    (hlow : blockEnd m it ≤ b) (hhigh : ∀ c ∈ right, b + kmemNodeSize + size ≤ c)
    (hlimit : b + kmemNodeSize + size ≤ m'.occupiedTo)
    (hocc : m.occupiedTo ≤ m'.occupiedTo ∧ m'.occupiedTo < 2 ^ 64) :
    HeapList m' (left ++ it :: b :: right) := by
  obtain ⟨hsz, hszs, hnext, hprev, hsucc, hnexts, hprevs⟩ := hin
  have hend : ∀ x ∈ left ++ it :: right, blockEnd m' x = blockEnd m x := by
    intro x hx
    unfold blockEnd
    rw [hszs x hx]
  have hhead : (left ++ it :: b :: right).head? = some kmemHeapBase := by
    have := h.head
    cases left <;> simpa using this
  refine ⟨hhead, ?_, ?_, ?_, ?_, ?_⟩
  · rw [hszs _ (by rw [h.eq_cons]; simp), h.head_sz]
  · refine Segment.insert_after h.linked h.nodup hnext.1 ?_ hprev hsucc hnexts hprevs
    simpa using hnext.2
  · have hap := h.apart
    rw [Apart, List.pairwise_append] at hap ⊢
    obtain ⟨hleft, hright, hcross⟩ := hap
    have hbend : blockEnd m' b = b + kmemNodeSize + size := by
      unfold blockEnd
      rw [hsz]
    have hends : ∀ x ∈ left ++ it :: right, ∀ y, blockEnd m x ≤ y → blockEnd m' x ≤ y := by
      intro x hx y hxy
      rwa [hend x hx]
    refine ⟨?_, ?_, ?_⟩
    · exact hleft.imp_of_mem fun {x y} hx _ hxy => hends x (by simp [hx]) y hxy
    · obtain ⟨hit, hrest⟩ := List.pairwise_cons.mp hright
      refine List.Pairwise.cons ?_ (List.Pairwise.cons ?_ ?_)
      · intro y hy
        rcases List.mem_cons.mp hy with rfl | hy
        · exact hends it (by simp) _ hlow
        · exact hends it (by simp) _ (hit y hy)
      · intro y hy
        rw [hbend]
        exact hhigh y hy
      · exact hrest.imp_of_mem fun {x y} hx _ hxy => hends x (by simp [hx]) y hxy
    · intro x hx y hy
      have hxit : blockEnd m x ≤ it := hcross x hx it (by simp)
      rcases List.mem_cons.mp hy with rfl | hy
      · exact hends x (by simp [hx]) _ hxit
      rcases List.mem_cons.mp hy with rfl | hy
      · refine hends x (by simp [hx]) _ ?_
        unfold blockEnd at *
        omega
      · exact hends x (by simp [hx]) _ (hcross x hx y (by simp [hy]))
  · intro x hx
    have hmem : x = b ∨ x ∈ (left ++ it :: right).tail := by
      cases left with
      | nil => simpa using hx
      | cons l left =>
          simp only [List.cons_append, List.tail_cons, List.mem_append,
            List.mem_cons] at hx ⊢
          tauto
    rcases hmem with rfl | hmem
    · unfold blockEnd
      rw [hsz]
      exact hlimit
    · rw [hend x (List.mem_of_mem_tail hmem)]
      exact (h.below x hmem).trans hocc.1
  · exact ⟨h.limit.1.trans hocc.1, hocc.2⟩

theorem unlink {m' : Kmem σ} (h : HeapList m (left ++ it :: b :: right))
    (hocc : m'.occupiedTo = m.occupiedTo)
    (hszs : ∀ x, m'.sz x = m.sz x)
    (hnext : m'.next it = right.head?)
    (hsucc : ∀ x, right.head? = some x → m'.prev x = some it)
    (hnexts : ∀ x ∈ left ++ right, m'.next x = m.next x)
    (hprevs : ∀ x ∈ left ++ it :: right, right.head? ≠ some x →
      m'.prev x = m.prev x) :
    HeapList m' (left ++ it :: right) := by
  have hend : ∀ x, blockEnd m' x = blockEnd m x := by
    intro x
    unfold blockEnd
    rw [hszs]
  have hsub : (left ++ it :: right).Sublist (left ++ it :: b :: right) :=
    List.Sublist.append_left (List.Sublist.cons_cons _ (List.sublist_cons_self _ _)) _
  refine ⟨?_, ?_, ?_, ?_, ?_, ?_⟩
  · have := h.head
    cases left <;> simpa using this
  · rw [hszs, h.head_sz]
  · refine Segment.remove_after h.linked h.nodup ?_ hsucc hnexts hprevs
    simpa using hnext
  · exact (h.apart.sublist hsub).imp fun {x y} hxy => by rwa [hend]
  · intro x hx
    rw [hend, hocc]
    refine h.below x ?_
    cases left with
    | nil => exact List.mem_cons_of_mem _ (by simpa using hx)
    | cons l left =>
        simp only [List.cons_append, List.tail_cons, List.mem_append,
          List.mem_cons] at hx ⊢
        tauto
  · rw [hocc]
    exact h.limit

end HeapList

end UntitledOs.Kernlib
