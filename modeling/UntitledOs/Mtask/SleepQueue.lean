import Mathlib.Data.List.Perm.Basic
import UntitledOs.Mtask.Thread

/-!
# The sleep queue as a priority queue

Pushing keeps a heap in which `k / 2` is the parent of `k`.  Popping treats
`2 * k + 1` and `2 * k + 2` as the children of `k` and never moves on from the
root: it ends for queues of at most two threads and no others.
-/

namespace UntitledOs.Mtask

open UntitledOs.Lib

variable {ths ths' : Threads} {q q' : ThreadPqueue} {live : List Nat} {th a b i k n : Nat}
  {f : Nat → Nat}

/-- `a` should not wake up after `b`. -/
def NotLater (ths : Threads) (a b : Nat) : Prop := wakeupIsLater (ths a) (ths b) = false

theorem notLater_iff : NotLater ths a b ↔
    (ths a).sleepOverflow < (ths b).sleepOverflow ∨
      (ths a).sleepOverflow = (ths b).sleepOverflow ∧ (ths a).sleepUntil ≤ (ths b).sleepUntil := by
  rw [NotLater, wakeupIsLater]
  split
  · simp only [gt_iff_lt, decide_eq_false_iff_not]
    omega
  · simp only [gt_iff_lt, decide_eq_false_iff_not]
    omega

theorem NotLater.trans {c : Nat} (h : NotLater ths a b) (h' : NotLater ths b c) :
    NotLater ths a c := by
  rw [notLater_iff] at h h' ⊢
  omega

theorem notLater_of_later (h : wakeupIsLater (ths a) (ths b) = true) : NotLater ths b a := by
  by_contra hnot
  rw [notLater_iff] at hnot
  have hab : NotLater ths a b := by
    rw [notLater_iff]
    omega
  rw [NotLater, h] at hab
  cases hab

theorem notLater_refl (ths : Threads) (a : Nat) : NotLater ths a a := by
  rw [notLater_iff]
  omega

section Items

/-- The first `n` values of an array. -/
def prefixOf (n : Nat) (f : Nat → Nat) : List Nat := (List.range n).map f

theorem prefixOf_update (hi : i < n) (f : Nat → Nat) (a b : Nat) :
    (a :: prefixOf n (Function.update f i b)).Perm (b :: prefixOf n (Function.update f i a)) := by
  obtain ⟨l₁, l₂, hl⟩ := List.append_of_mem (List.mem_range.mpr hi)
  have hnd := List.nodup_range (n := n)
  rw [hl, List.nodup_append, List.nodup_cons] at hnd
  have h₁ : ∀ x ∈ l₁, x ≠ i := fun x hx => hnd.2.2 x hx i (by simp)
  have h₂ : ∀ x ∈ l₂, x ≠ i := fun x hx hxi => hnd.2.1.1 (hxi ▸ hx)
  have hmap : ∀ c, prefixOf n (Function.update f i c) = l₁.map f ++ c :: l₂.map f := by
    intro c
    rw [prefixOf, hl, List.map_append, List.map_cons, Function.update_self]
    congr 1
    · exact List.map_congr_left fun x hx => Function.update_of_ne (h₁ x hx) _ _
    · congr 1
      exact List.map_congr_left fun x hx => Function.update_of_ne (h₂ x hx) _ _
  rw [hmap, hmap]
  calc (a :: (l₁.map f ++ b :: l₂.map f)).Perm (a :: b :: (l₁.map f ++ l₂.map f)) :=
        List.perm_middle.cons a
    _ |>.Perm (b :: a :: (l₁.map f ++ l₂.map f)) := List.Perm.swap b a _
    _ |>.Perm (b :: (l₁.map f ++ a :: l₂.map f)) := (List.perm_middle.symm).cons b

/-- A value that moves from one cell to another, and the other way round. -/
theorem prefixOf_swap (hi : i < n) (hk : k < n) (hne : k ≠ i) (f : Nat → Nat) (a : Nat) :
    (prefixOf n (Function.update (Function.update f k (f i)) i a)).Perm
      (prefixOf n (Function.update f k a)) := by
  have hself : Function.update (Function.update f k (f i)) i (f i) = Function.update f k (f i) := by
    funext x
    by_cases hx : x = i
    · subst hx
      rw [Function.update_self, Function.update_of_ne hne.symm]
    · rw [Function.update_of_ne hx]
  have hleft := prefixOf_update hi (Function.update f k (f i)) (f i) a
  rw [hself] at hleft
  exact (hleft.trans (prefixOf_update hk f a (f i))).cons_inv

end Items

namespace ThreadPqueue

/-- The threads of the queue. -/
def items (q : ThreadPqueue) : List Nat := prefixOf q.size q.heap

/-- The order that pushing keeps. -/
def Ordered (ths : Threads) (q : ThreadPqueue) : Prop :=
  ∀ j, 0 < j → j < q.size → NotLater ths (q.heap (j / 2)) (q.heap j)

/-- The order while the thread at `k` may be too early for its place. -/
structure UpOrder (ths : Threads) (q : ThreadPqueue) (k : Nat) : Prop where
  except : ∀ j, 0 < j → j < q.size → j ≠ k → NotLater ths (q.heap (j / 2)) (q.heap j)
  grand : 0 < k → ∀ j, j < q.size → j / 2 = k → NotLater ths (q.heap (k / 2)) (q.heap j)

@[simp] theorem size_setHeap (q : ThreadPqueue) (i a : Nat) : (q.setHeap i a).size = q.size := rfl

theorem heap_setHeap (q : ThreadPqueue) (i a x : Nat) :
    (q.setHeap i a).heap x = if x = i then a else q.heap x := by
  simp [setHeap, Function.update_apply]

/-- One step of the sift: the parent comes down, the free place moves up. -/
theorem UpOrder.move (hup : UpOrder ths (q.setHeap k th) k) (hk : 0 < k) (hks : k < q.size)
    (hparent : NotLater ths th (q.heap (k / 2))) :
    UpOrder ths ((q.setHeap k (q.heap (k / 2))).setHeap (k / 2) th) (k / 2) := by
  have hexcept : ∀ j, 0 < j → j < q.size → j ≠ k → j / 2 ≠ k →
      NotLater ths (q.heap (j / 2)) (q.heap j) := by
    intro j hj hjs hjk hjp
    have h := hup.except j hj hjs hjk
    rwa [heap_setHeap, heap_setHeap, if_neg hjk, if_neg hjp] at h
  have hgrand : ∀ j, j < q.size → j / 2 = k → NotLater ths (q.heap (k / 2)) (q.heap j) := by
    intro j hjs hjp
    have h := hup.grand hk j hjs hjp
    rwa [heap_setHeap, heap_setHeap, if_neg (show j ≠ k by omega), if_neg (by omega)] at h
  constructor
  · intro j hj hjs hjp
    simp only [heap_setHeap, if_neg hjp]
    -- the child of the new place, the children of the old place, and all others
    by_cases hjk : j = k
    · subst hjk
      simpa using hparent
    rw [if_neg hjk]
    by_cases hjpk : j / 2 = k
    · rw [if_neg (show j / 2 ≠ k / 2 by omega), if_pos hjpk]
      exact hgrand j hjs hjpk
    by_cases hsib : j / 2 = k / 2
    · rw [if_pos hsib]
      exact hparent.trans (hsib ▸ hexcept j hj hjs hjk hjpk)
    · rw [if_neg hsib, if_neg hjpk]
      exact hexcept j hj hjs hjk hjpk
  · intro hpos j hjs hjp
    have hup2 : NotLater ths (q.heap (k / 2 / 2)) (q.heap (k / 2)) :=
      hexcept (k / 2) hpos (by omega) (by omega) (by omega)
    simp only [heap_setHeap]
    rw [if_neg (show k / 2 / 2 ≠ k / 2 by omega), if_neg (show k / 2 / 2 ≠ k by omega),
      if_neg (show j ≠ k / 2 by omega)]
    by_cases hjk : j = k
    · rw [if_pos hjk]
      exact hup2
    · rw [if_neg hjk]
      exact hup2.trans (hjp ▸ hexcept j (by omega) hjs hjk (by omega))

theorem UpOrder.finish (hup : UpOrder ths q 0) : Ordered ths q :=
  fun j hj hjs => hup.except j hj hjs (by omega)

/-- The loop of `heapify_up` ends with the heap in order. -/
theorem heapifyUpLoop_spec (fuel : Nat) (hk : k < q.size) (hfuel : k < fuel)
    (hup : UpOrder ths (q.setHeap k th) k) :
    ∃ r, heapifyUpLoop ths th fuel q k = some r ∧ r.1.size = q.size ∧
      Ordered ths (r.1.setHeap r.2 th) ∧
      (r.1.setHeap r.2 th).items.Perm (q.setHeap k th).items := by
  induction fuel generalizing q k with
  | zero => omega
  | succ fuel ih =>
      unfold heapifyUpLoop
      cases hlater : wakeupIsLater (ths (q.heap (k / 2))) (ths th) with
      | false =>
          simp only [wakeupIsEarlier, hlater, Bool.not_false, if_true]
          refine ⟨_, rfl, rfl, fun j hj hjs => ?_, List.Perm.refl _⟩
          by_cases hjk : j = k
          · subst hjk
            rw [heap_setHeap, heap_setHeap, if_pos rfl, if_neg (by omega)]
            exact hlater
          · exact hup.except j hj hjs hjk
      | true =>
          simp only [wakeupIsEarlier, hlater, Bool.not_true, Bool.false_eq_true, if_false]
          have hparent : NotLater ths th (q.heap (k / 2)) := notLater_of_later hlater
          by_cases hzero : k = 0
          · subst hzero
            have hsame : (q.setHeap 0 (q.heap 0)).setHeap 0 th = q.setHeap 0 th := by
              simp [setHeap]
            exact ⟨_, rfl, rfl, hsame ▸ hup.finish, hsame ▸ List.Perm.refl _⟩
          have hmove := hup.move (by omega) hk hparent
          have hperm : ((q.setHeap k (q.heap (k / 2))).setHeap (k / 2) th).items.Perm
              (q.setHeap k th).items :=
            prefixOf_swap (by omega) hk (by omega) q.heap th
          split
          · next hroot =>
              rw [hroot] at hmove hperm ⊢
              exact ⟨_, rfl, rfl, hmove.finish, hperm⟩
          · obtain ⟨r, hr, hsize, hord, hitems⟩ := ih (by simp; omega) (by omega) hmove
            exact ⟨r, hr, hsize, hord, hitems.trans hperm⟩

theorem prefixOf_succ (n : Nat) (f : Nat → Nat) : prefixOf (n + 1) f = prefixOf n f ++ [f n] := by
  rw [prefixOf, List.range_succ, List.map_append]
  rfl

theorem prefixOf_push (n : Nat) (f : Nat → Nat) (a : Nat) :
    prefixOf (n + 1) (Function.update f n a) = prefixOf n f ++ [a] := by
  rw [prefixOf_succ, Function.update_self]
  congr 1
  exact List.map_congr_left fun x hx =>
    Function.update_of_ne (by have := List.mem_range.mp hx; omega) _ _

theorem heapifyUpLoop_steady (ths : Threads) (thr : Nat) (q : ThreadPqueue) (k : Nat) :
    Steady fun fuel => heapifyUpLoop ths thr fuel q k := by
  intro fuel
  induction fuel generalizing q k with
  | zero => exact Below.none _
  | succ fuel ih =>
      dsimp only
      unfold heapifyUpLoop
      split
      · exact Below.refl _
      dsimp only
      split
      · exact Below.refl _
      · exact ih _ _

/-- `thread_pqueue_push` returns, with the thread added. -/
theorem push_spec (hord : Ordered ths q) (hroom : q.size + 1 < 2 ^ 64) (thr : Nat) :
    ∃ q', Returns (fun fuel => push fuel ths q thr) q' ∧ Ordered ths q' ∧
      q'.items.Perm (thr :: q.items) := by
  set p : ThreadPqueue := { q.setHeap q.size thr with
    size := q.size + 1
    maxSize := if q.size = q.maxSize then q.maxSize + threadPqueueGrowth else q.maxSize } with hp
  have hpush : (fun fuel => push fuel ths q thr) = fun fuel => heapifyUp fuel ths p := by
    funext fuel
    rw [hp]
    unfold push
    split <;> rfl
  have hsize : p.size = q.size + 1 := rfl
  have hlast : sub64 p.size 1 = q.size := by rw [sub64_of_le] <;> omega
  have hthr : p.heap q.size = thr := Function.update_self _ _ _
  have hset : p.setHeap q.size thr = p := by simp [hp, setHeap]
  have hup : UpOrder ths (p.setHeap q.size thr) q.size := by
    rw [hset]
    constructor
    · intro j hj hjs hjk
      have hheap : ∀ x, x ≠ q.size → p.heap x = q.heap x :=
        fun x hx => Function.update_of_ne hx _ _
      rw [hheap j hjk, hheap (j / 2) (by omega)]
      exact hord j hj (by omega)
    · intro _ j hjs _
      omega
  obtain ⟨r, hr, -, hordr, hitems⟩ :=
    heapifyUpLoop_spec (q.size + 1) (by omega) (by omega) hup
  refine ⟨r.1.setHeap r.2 thr, ?_, hordr, hitems.trans ?_⟩
  · rw [hpush]
    unfold heapifyUp
    simp only [hlast, hthr]
    exact ((heapifyUpLoop_steady ths thr p q.size).returns _ hr).map _
  · rw [hset]
    exact (List.Perm.of_eq (prefixOf_push _ _ _)).trans List.perm_append_comm

/-- In whatever order the queue is, the loop of `heapify_up` keeps its threads. -/
theorem heapifyUpLoop_items {fuel : Nat} {r : ThreadPqueue × Nat}
    (h : heapifyUpLoop ths th fuel q k = some r) (hk : k < q.size) :
    (r.1.setHeap r.2 th).items.Perm (q.setHeap k th).items := by
  induction fuel generalizing q k with
  | zero => cases h
  | succ fuel ih =>
      unfold heapifyUpLoop at h
      split at h
      · obtain rfl := Option.some.inj h
        exact .refl _
      by_cases hzero : k = 0
      · subst hzero
        obtain rfl := Option.some.inj h
        refine .of_eq ?_
        simp [setHeap]
      have hperm : ((q.setHeap k (q.heap (k / 2))).setHeap (k / 2) th).items.Perm
          (q.setHeap k th).items :=
        prefixOf_swap (by omega) hk (by omega) q.heap th
      dsimp only at h
      split at h
      · next hroot =>
          obtain rfl := Option.some.inj h
          rw [hroot] at hperm ⊢
          exact hperm
      · exact (ih h (by simp; omega)).trans hperm

theorem push_items {fuel : Nat} (hroom : q.size + 1 < 2 ^ 64)
    (h : q.push fuel ths th = some q') : q'.items.Perm (th :: q.items) := by
  set p : ThreadPqueue := { q.setHeap q.size th with
    size := q.size + 1
    maxSize := if q.size = q.maxSize then q.maxSize + threadPqueueGrowth else q.maxSize } with hp
  have hpush : q.push fuel ths th = heapifyUp fuel ths p := by
    rw [hp]
    unfold push
    split <;> rfl
  have hsize : p.size = q.size + 1 := rfl
  have hlast : sub64 p.size 1 = q.size := by rw [sub64_of_le] <;> omega
  have hthr : p.heap q.size = th := Function.update_self _ _ _
  have hset : p.setHeap q.size th = p := by simp [hp, setHeap]
  rw [hpush] at h
  obtain ⟨r, hr, rfl⟩ := Option.map_eq_some_iff.mp h
  rw [hlast, hthr] at hr
  rw [hlast, hthr]
  have hitems := heapifyUpLoop_items hr (by omega)
  rw [hset] at hitems
  exact hitems.trans ((List.Perm.of_eq (prefixOf_push _ _ _)).trans List.perm_append_comm)

/-- The loop of `heapify_down` writes the root only. -/
theorem heapifyDownLoop_frame {fuel : Nat} {r : ThreadPqueue}
    (h : heapifyDownLoop ths th fuel q 0 = some r) :
    r.size = q.size ∧ ∀ i, i ≠ 0 → r.heap i = q.heap i := by
  induction fuel generalizing q with
  | zero => cases h
  | succ fuel ih =>
      unfold heapifyDownLoop at h
      split at h
      · split at h
        · obtain rfl := Option.some.inj h
          exact ⟨rfl, fun _ _ => rfl⟩
        dsimp only at h
        split at h
        · obtain rfl := Option.some.inj h
          exact ⟨rfl, fun _ _ => rfl⟩
        · obtain ⟨hsize, hheap⟩ := ih h
          exact ⟨hsize, fun i hi => (hheap i hi).trans (by simp [heap_setHeap, hi])⟩
      · obtain rfl := Option.some.inj h
        exact ⟨rfl, fun _ _ => rfl⟩

/-- In whatever order the queue is, a pop that returns takes out the root. -/
theorem pop_items {fuel : Nat} (hpos : 0 < q.size) (hroom : q.size < 2 ^ 64)
    (h : q.pop fuel ths = some (q', th)) :
    th = q.heap 0 ∧ (th :: q'.items).Perm q.items := by
  have hlast : sub64 q.size 1 = q.size - 1 := by rw [sub64_of_le] <;> omega
  unfold pop heapifyDown at h
  simp only [hlast] at h
  obtain ⟨p, hdown, hp⟩ := Option.map_eq_some_iff.mp h
  obtain ⟨r, hloop, rfl⟩ := Option.map_eq_some_iff.mp hdown
  obtain ⟨rfl, rfl⟩ := Prod.mk.inj hp
  obtain ⟨hsize, hheap⟩ := heapifyDownLoop_frame hloop
  refine ⟨rfl, ?_⟩
  have hsame : (r.setHeap 0 ((q.setHeap 0 (q.heap (q.size - 1))).heap 0)).items =
      prefixOf (q.size - 1) (Function.update q.heap 0 (q.heap (q.size - 1))) := by
    rw [items, size_setHeap, hsize]
    refine List.map_congr_left fun i _ => ?_
    rw [heap_setHeap]
    split
    · next hi => simp [hi, setHeap]
    · next hi => rw [hheap i hi]; rfl
  obtain ⟨m, hm⟩ : ∃ m, q.size = m + 1 := ⟨q.size - 1, by omega⟩
  have hall : q.items = prefixOf m q.heap ++ [q.heap m] := by rw [items, hm, prefixOf_succ]
  rw [hall]
  refine (List.Perm.cons _ (.of_eq hsame)).trans ?_
  rw [hm, Nat.add_sub_cancel]
  rcases Nat.eq_zero_or_pos m with rfl | hmpos
  · simp [prefixOf]
  · have hswap := prefixOf_update hmpos q.heap (q.heap 0) (q.heap m)
    rw [Function.update_eq_self] at hswap
    exact hswap.trans (List.perm_append_singleton _ _).symm

/-- The root is an earliest thread, and the next one is so among the others. -/
theorem Ordered.least (hord : Ordered ths q) {j : Nat} (hj : j < q.size) :
    NotLater ths (q.heap 0) (q.heap j) ∧ (0 < j → NotLater ths (q.heap 1) (q.heap j)) := by
  induction j using Nat.strong_induction_on with
  | _ j ih =>
      rcases Nat.eq_zero_or_pos j with hzero | hpos
      · subst hzero
        exact ⟨notLater_refl _ _, fun h => absurd h (Nat.lt_irrefl 0)⟩
      have hparent := hord j hpos hj
      obtain ⟨hroot, hfirst⟩ := ih (j / 2) (by omega) (by omega)
      refine ⟨hroot.trans hparent, fun _ => ?_⟩
      by_cases hone : j = 1
      · subst hone
        exact notLater_refl _ _
      · exact (hfirst (by omega)).trans hparent

theorem Ordered.of_small (h : q.size ≤ 1) : Ordered ths q := fun j hj hjs => by omega

/-- With one or two threads queued, `thread_pqueue_pop` returns the root. -/
theorem pop_small (hpos : 0 < q.size) (hsmall : q.size ≤ 2) (ths : Threads) :
    ∃ q', Returns (fun fuel => pop fuel ths q) (q', q.heap 0) ∧ q'.size ≤ 1 ∧
      q'.items.Perm (q.items.erase (q.heap 0)) := by
  have hlast : sub64 q.size 1 = q.size - 1 := by rw [sub64_of_le] <;> omega
  refine ⟨{ q.setHeap 0 (q.heap (q.size - 1)) with size := q.size - 1 }, ⟨1, fun fuel hfuel => ?_⟩,
    by simp; omega, ?_⟩
  · obtain ⟨n, rfl⟩ : ∃ n, fuel = n + 1 := ⟨fuel - 1, by omega⟩
    unfold pop heapifyDown heapifyDownLoop
    simp only [hlast]
    rw [if_neg (by omega)]
    simp [setHeap]
  · obtain hone | htwo : q.size = 1 ∨ q.size = 2 := by omega
    · simp [items, prefixOf, hone]
    · simp [items, prefixOf, htwo, List.range_succ, setHeap]

theorem minChild_setHeap_zero (ths : Threads) (q : ThreadPqueue) (a : Nat) :
    minChild ths (q.setHeap 0 a) 0 = minChild ths q 0 := by
  simp [minChild, heap_setHeap]

/-- The loop of `heapify_down` stays at the root as long as a child is not later. -/
theorem heapifyDownLoop_none (fuel : Nat) (hsize : 2 ≤ q.size)
    (hchild : NotLater ths (q.heap (minChild ths q 0)) th) :
    heapifyDownLoop ths th fuel q 0 = none := by
  induction fuel generalizing q with
  | zero => rfl
  | succ fuel ih =>
      unfold heapifyDownLoop
      rw [if_pos (by omega), if_neg (by omega)]
      simp only
      rw [hchild]
      simp only [Bool.false_eq_true, if_false]
      have hne : minChild ths q 0 ≠ 0 := by
        unfold minChild
        dsimp only
        split <;> decide
      apply ih
      · exact hsize
      · rwa [minChild_setHeap_zero, heap_setHeap, if_neg hne]

/-- With more than two threads queued, `thread_pqueue_pop` never returns. -/
theorem pop_none (hord : Ordered ths q) (hlarge : 2 < q.size) (hroom : q.size < 2 ^ 64)
    (fuel : Nat) : pop fuel ths q = none := by
  have hlast : sub64 q.size 1 = q.size - 1 := by rw [sub64_of_le] <;> omega
  unfold pop heapifyDown
  simp only [hlast]
  rw [heapifyDownLoop_none fuel (by simp; omega) ?_]
  · rfl
  have hfirst := (hord.least (show q.size - 1 < q.size by omega)).2 (by omega)
  simp only [setHeap, Function.update_self]
  unfold minChild
  dsimp only
  split
  · next hne =>
      rw [Function.update_of_ne (by decide)]
      have hearlier : q.size - 1 > 2 ∧ NotLater ths (q.heap 2) (q.heap 1) := by
        simpa [wakeupIsEarlier, NotLater] using hne
      exact hearlier.2.trans hfirst
  · rw [Function.update_of_ne (by decide)]
    exact hfirst

end ThreadPqueue

open ThreadPqueue

/--
The sleep queue after any calls that returned, with the threads pushed and not
popped yet.  A queued thread keeps its wake-up time.
-/
inductive PqueueRun : Threads → ThreadPqueue → List Nat → Prop
  | init (ths : Threads) : PqueueRun ths ThreadPqueue.init []
  | push {ths : Threads} {q q' : ThreadPqueue} {live : List Nat} {th : Nat}
      (run : PqueueRun ths q live) (room : live.length + 1 < 2 ^ 64)
      (returns : Returns (fun fuel => q.push fuel ths th) q') : PqueueRun ths q' (th :: live)
  | pop {ths : Threads} {q q' : ThreadPqueue} {live : List Nat} {th : Nat}
      (run : PqueueRun ths q live) (nonempty : live ≠ [])
      (returns : Returns (fun fuel => q.pop fuel ths) (q', th)) :
      PqueueRun ths q' (live.erase th)
  | others {ths ths' : Threads} {q : ThreadPqueue} {live : List Nat} (run : PqueueRun ths q live)
      (same : ∀ t ∈ live, (ths' t).sleepUntil = (ths t).sleepUntil ∧
        (ths' t).sleepOverflow = (ths t).sleepOverflow) : PqueueRun ths' q live

/-- What a pop is to do: return an earliest thread, and take it out. -/
def PopCorrect (ths : Threads) (q : ThreadPqueue) (live : List Nat) : Prop :=
  ∃ q' th, Returns (fun fuel => q.pop fuel ths) (q', th) ∧ th ∈ live ∧
    (∀ t ∈ live, NotLater ths th t) ∧ q'.items.Perm (live.erase th)

/-- What holds of the queue in every run. -/
structure PqueueInv (ths : Threads) (q : ThreadPqueue) (live : List Nat) : Prop where
  ordered : Ordered ths q
  items : q.items.Perm live
  room : live.length < 2 ^ 64

namespace PqueueInv

theorem size_eq (h : PqueueInv ths q live) : q.size = live.length := by
  have hlen := h.items.length_eq
  simpa [ThreadPqueue.items, prefixOf] using hlen

theorem mem_live (h : PqueueInv ths q live) (hi : i < q.size) : q.heap i ∈ live :=
  h.items.mem_iff.mp (List.mem_map.mpr ⟨i, List.mem_range.mpr hi, rfl⟩)

theorem exists_index (h : PqueueInv ths q live) (hth : th ∈ live) :
    ∃ i < q.size, q.heap i = th := by
  obtain ⟨i, hi, rfl⟩ := List.mem_map.mp (h.items.mem_iff.mpr hth)
  exact ⟨i, List.mem_range.mp hi, rfl⟩

theorem others (h : PqueueInv ths q live)
    (hsame : ∀ t ∈ live, (ths' t).sleepUntil = (ths t).sleepUntil ∧
      (ths' t).sleepOverflow = (ths t).sleepOverflow) : PqueueInv ths' q live := by
  refine ⟨fun j hj hjs => ?_, h.items, h.room⟩
  have hold := h.ordered j hj hjs
  rw [notLater_iff] at hold ⊢
  obtain ⟨hp, hpo⟩ := hsame _ (h.mem_live (show j / 2 < q.size by omega))
  obtain ⟨hc, hco⟩ := hsame _ (h.mem_live hjs)
  rw [hp, hpo, hc, hco]
  exact hold

/-- A pop either never returns or takes out an earliest thread. -/
theorem pop (h : PqueueInv ths q live) (hne : live ≠ []) :
    (2 < live.length ∧ ∀ fuel, q.pop fuel ths = none) ∨
      live.length ≤ 2 ∧ (∀ t ∈ live, NotLater ths (q.heap 0) t) ∧
        ∃ q', Returns (fun fuel => q.pop fuel ths) (q', q.heap 0) ∧
          PqueueInv ths q' (live.erase (q.heap 0)) := by
  have hsize := h.size_eq
  have hpos : 0 < live.length := List.length_pos_iff.mpr hne
  rcases Nat.lt_or_ge 2 live.length with hlarge | hsmall
  · exact .inl ⟨hlarge, pop_none h.ordered (by omega) (by have := h.room; omega)⟩
  · refine .inr ⟨hsmall, fun t ht => ?_, ?_⟩
    · obtain ⟨i, hi, rfl⟩ := h.exists_index ht
      exact (h.ordered.least hi).1
    · obtain ⟨q', hret, hq', hitems⟩ :=
        pop_small (q := q) (by omega) (by omega) ths
      exact ⟨q', hret, .of_small hq', hitems.trans (h.items.erase _),
        List.length_erase_le.trans_lt h.room⟩

theorem popCorrect_iff (h : PqueueInv ths q live) (hne : live ≠ []) :
    PopCorrect ths q live ↔ live.length ≤ 2 := by
  rcases h.pop hne with ⟨hlarge, hnone⟩ | ⟨hsmall, hleast, q', hret, hinv⟩
  · exact ⟨fun ⟨q', th, hret, _⟩ => absurd hret (not_returns hnone _), fun hle => by omega⟩
  · refine ⟨fun _ => hsmall, fun _ => ⟨q', _, hret, h.mem_live ?_, hleast, hinv.items⟩⟩
    have := List.length_pos_iff.mpr hne
    rw [h.size_eq]
    omega

end PqueueInv

/-- Every call that returns keeps the invariant. -/
theorem pqueueRun_inv (run : PqueueRun ths q live) : PqueueInv ths q live := by
  induction run with
  | init ths => exact ⟨.of_small (by simp [ThreadPqueue.init]), List.Perm.refl _, by simp⟩
  | push run room returns ih =>
      have hsize := ih.size_eq
      obtain ⟨p, hp, hord, hitems⟩ := push_spec ih.ordered (by omega) _
      obtain rfl := hp.unique returns
      exact ⟨hord, hitems.trans (ih.items.cons _), by simpa using room⟩
  | pop run nonempty returns ih =>
      rcases ih.pop nonempty with ⟨-, hnone⟩ | ⟨-, -, p, hp, hinv⟩
      · exact absurd returns (not_returns hnone _)
      · obtain ⟨rfl, rfl⟩ := Prod.mk.inj (hp.unique returns)
        exact hinv
  | others run same ih => exact ih.others same

/--
In every run the queue holds the threads pushed and not popped, a push returns
and adds its thread, and a pop is correct exactly when it is made with at most
two threads queued.
-/
theorem sleep_queue_correct (run : PqueueRun ths q live) :
    q.items.Perm live ∧
      (∀ th, live.length + 1 < 2 ^ 64 →
        ∃ q', Returns (fun fuel => q.push fuel ths th) q' ∧ q'.items.Perm (th :: live)) ∧
      (live ≠ [] → (PopCorrect ths q live ↔ live.length ≤ 2)) := by
  have hinv := pqueueRun_inv run
  refine ⟨hinv.items, fun th hroom => ?_, hinv.popCorrect_iff⟩
  obtain ⟨q', hret, -, hitems⟩ := push_spec hinv.ordered (by rw [hinv.size_eq]; exact hroom) th
  exact ⟨q', hret, hitems.trans (hinv.items.cons th)⟩

section Examples

/-- Threads that wake up in the order of their addresses. -/
def sleepers : Threads := fun a => ⟨0, 1024, a, 0, 0, 0⟩

/-- The queue after the threads 1, 2, ..., n have been pushed. -/
def sleepersQueue : Nat → ThreadPqueue
  | 0 => .init
  | n + 1 => ((sleepersQueue n).push 64 sleepers (n + 1)).getD (sleepersQueue n)

theorem push_steady (ths : Threads) (q : ThreadPqueue) (thr : Nat) :
    Steady fun fuel => q.push fuel ths thr :=
  (heapifyUpLoop_steady _ _ _ _).map _

theorem PqueueRun.sleepers_push (run : PqueueRun sleepers q live)
    (room : live.length + 1 < 2 ^ 64) (h : (q.push 64 sleepers th).isSome) :
    PqueueRun sleepers ((q.push 64 sleepers th).getD q) (th :: live) := by
  obtain ⟨p, hp⟩ := Option.isSome_iff_exists.mp h
  rw [hp]
  exact run.push room ((push_steady _ _ _).returns 64 hp)

theorem sleepersQueue_one : PqueueRun sleepers (sleepersQueue 1) [1] :=
  (PqueueRun.init sleepers).sleepers_push (by decide) (by decide)

theorem sleepersQueue_two : PqueueRun sleepers (sleepersQueue 2) [2, 1] :=
  sleepersQueue_one.sleepers_push (by decide) (by decide)

theorem sleepersQueue_three : PqueueRun sleepers (sleepersQueue 3) [3, 2, 1] :=
  sleepersQueue_two.sleepers_push (by decide) (by decide)

theorem sleep_queue_correct_two :
    PqueueRun sleepers (sleepersQueue 2) [2, 1] ∧ (sleepersQueue 2).items.Perm [2, 1] ∧
      PopCorrect sleepers (sleepersQueue 2) [2, 1] :=
  have h := sleep_queue_correct sleepersQueue_two
  ⟨sleepersQueue_two, h.1, (h.2.2 (by decide)).mpr (by decide)⟩

/-- The pop of three threads never returns. -/
theorem sleep_queue_hangs :
    PqueueRun sleepers (sleepersQueue 3) [3, 2, 1] ∧
      (∀ fuel, (sleepersQueue 3).pop fuel sleepers = none) ∧
      ¬ PopCorrect sleepers (sleepersQueue 3) [3, 2, 1] := by
  have hnone := pop_none (pqueueRun_inv sleepersQueue_three).ordered
    (show 2 < (sleepersQueue 3).size by decide) (show (sleepersQueue 3).size < 2 ^ 64 by decide)
  exact ⟨sleepersQueue_three, hnone, fun ⟨_, _, hret, _⟩ => not_returns hnone _ hret⟩

end Examples

end UntitledOs.Mtask
