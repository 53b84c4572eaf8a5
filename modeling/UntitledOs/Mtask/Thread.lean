import UntitledOs.Word
import UntitledOs.Lib.Fuel

/-!
# Threads and the sleep queue

`mtask/thread.h` and `mtask/thread_pqueue.c`.  Threads are named by address; the
saved registers and the owning process are left out.
-/

namespace UntitledOs.Mtask

open UntitledOs.Lib

structure Thread where
  vruntime : Nat
  weight : Nat
  sleepUntil : Nat
  sleepOverflow : Nat
  /-- index into `cpu_trees` -/
  tree : Nat
  /-- tree node that contains the thread -/
  hndl : Nat
  deriving DecidableEq, Repr

abbrev Threads := Nat → Thread

/-- `thread_wakeup_is_later` -/
def wakeupIsLater (t₁ t₂ : Thread) : Bool :=
  if t₁.sleepOverflow = t₂.sleepOverflow then t₁.sleepUntil > t₂.sleepUntil
  else t₁.sleepOverflow > t₂.sleepOverflow

/-- `thread_wakeup_is_earlier` -/
def wakeupIsEarlier (t₁ t₂ : Thread) : Bool := !wakeupIsLater t₁ t₂

/-- `thread_should_wakeup_now` -/
def shouldWakeupNow (t : Thread) (timerVal : Nat) : Bool :=
  t.sleepOverflow = 0 && t.sleepUntil ≤ timerVal

/-- `THREAD_PQUEUE_GROWTH` -/
def threadPqueueGrowth : Nat := 4

structure ThreadPqueue where
  heap : Nat → Nat
  size : Nat
  maxSize : Nat
  lock : Bool

namespace ThreadPqueue

/-- `thread_pqueue_init` -/
def init : ThreadPqueue := ⟨fun _ => 0, 0, 0, false⟩

def setHeap (q : ThreadPqueue) (i th : Nat) : ThreadPqueue :=
  { q with heap := Function.update q.heap i th }

/--
The loop of `thread_pqueue_heapify_up`: the queue and the slot for `thr`.  It
runs over `k`, `k/2`, ... and so needs no fuel beyond `k`.
-/
def heapifyUpLoop (ths : Threads) (thr : Nat) : Nat → ThreadPqueue → Nat → Option (ThreadPqueue × Nat)
  | 0, _, _ => none
  | fuel + 1, q, k =>
      if wakeupIsEarlier (ths (q.heap (k / 2))) (ths thr) then some (q, k)
      else
        let q := q.setHeap k (q.heap (k / 2))
        if k / 2 = 0 then some (q, 0) else heapifyUpLoop ths thr fuel q (k / 2)

/-- `thread_pqueue_heapify_up` -/
def heapifyUp (fuel : Nat) (ths : Threads) (q : ThreadPqueue) : Option ThreadPqueue :=
  let k := sub64 q.size 1
  let thr := q.heap k
  (heapifyUpLoop ths thr fuel q k).map fun r => r.1.setHeap r.2 thr

/-- `_min`; the conditional binds weaker than the sum before it. -/
def minChild (ths : Threads) (q : ThreadPqueue) (k : Nat) : Nat :=
  let earlier := decide (k * 2 + 2 < q.size) &&
    wakeupIsEarlier (ths (q.heap (k * 2 + 2))) (ths (q.heap (k * 2 + 1)))
  if k * 2 + earlier.toNat ≠ 0 then 2 else 1

/-- The loop of `thread_pqueue_heapify_down`, in which `k` is never advanced. -/
def heapifyDownLoop (ths : Threads) (thr : Nat) : Nat → ThreadPqueue → Nat → Option ThreadPqueue
  | 0, _, _ => none
  | fuel + 1, q, k =>
      if k < q.size / 2 then
        if k * 2 + 1 ≥ q.size then some q
        else
          let child := q.heap (minChild ths q k)
          if wakeupIsLater (ths child) (ths thr) then some q
          else heapifyDownLoop ths thr fuel (q.setHeap k child) k
      else some q

/-- `thread_pqueue_heapify_down` -/
def heapifyDown (fuel : Nat) (ths : Threads) (q : ThreadPqueue) : Option ThreadPqueue :=
  let thr := q.heap 0
  (heapifyDownLoop ths thr fuel q 0).map fun q => q.setHeap 0 thr

/-- `thread_pqueue_reset_overflow` -/
def resetOverflow (q : ThreadPqueue) (ths : Threads) : Threads :=
  (List.range q.size).foldl
    (fun ths i => Function.update ths (q.heap i) { ths (q.heap i) with sleepOverflow := 0 }) ths

/-- `thread_pqueue_push` -/
def push (fuel : Nat) (ths : Threads) (q : ThreadPqueue) (thr : Nat) : Option ThreadPqueue :=
  let q := if q.size = q.maxSize then { q with maxSize := q.maxSize + threadPqueueGrowth } else q
  heapifyUp fuel ths { q.setHeap q.size thr with size := q.size + 1 }

/-- `thread_pqueue_pop` -/
def pop (fuel : Nat) (ths : Threads) (q : ThreadPqueue) : Option (ThreadPqueue × Nat) :=
  let thr := q.heap 0
  let size := sub64 q.size 1
  (heapifyDown fuel ths { q.setHeap 0 (q.heap size) with size := size }).map fun q => (q, thr)

theorem heapifyDownLoop_steady (ths : Threads) (thr : Nat) (q : ThreadPqueue) (k : Nat) :
    Steady fun fuel => heapifyDownLoop ths thr fuel q k := by
  intro fuel
  induction fuel generalizing q with
  | zero => exact Below.none _
  | succ fuel ih =>
      dsimp only
      unfold heapifyDownLoop
      split
      · split
        · exact Below.refl _
        dsimp only
        split
        · exact Below.refl _
        · exact ih _
      · exact Below.refl _

theorem pop_steady (ths : Threads) (q : ThreadPqueue) : Steady fun fuel => pop fuel ths q :=
  ((heapifyDownLoop_steady _ _ _ _).map _).map _

end ThreadPqueue

end UntitledOs.Mtask
