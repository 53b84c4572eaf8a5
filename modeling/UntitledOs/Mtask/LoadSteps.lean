import Mathlib.Logic.Relation
import UntitledOs.Mtask.Bookkeeping
import UntitledOs.Mtask.Wakeup

/-!
# The steps of the scheduler

A call of `scheduler_advance_thread_queue` is taken apart into its steps: each
round of the wake-up loop, the choice of how many jobs to give, each job that is
given, and the end.  With the calls to queue, to dequeue and to put to sleep they
are the steps of the runs of all CPUs.
-/

namespace UntitledOs.Mtask

open UntitledOs.Lib UntitledOs.RbTree

variable {env : SchedEnv} {s s' : Sched} {live asleep : List Nat}
  {th n c k fuel timerVal : Nat}

section Parts

/-- One round of the wake-up loop with a thread that is due. -/
def wakeOne (env : SchedEnv) (fuel : Nat) (s : Sched) (lapicId : Nat) : Option Sched :=
  ((s.sleepPqueue lapicId).pop fuel s.thread).bind fun (q', th) =>
    schedulerQueueThread env fuel (s.setSleepPqueue lapicId q') th

/-- `give_amt`, or nothing to give. -/
def giveAmt (s : Sched) (lapicId timerVal : Nat) : Option Nat :=
  if timeSince (s.cpuTrees lapicId).lastGiveTime timerVal ≥ taskGiveDelay then
    s.cpuTreeList.map fun head =>
      let cnt := (s.cpuTrees lapicId).threadCnt
      let diff := sub64 cnt (s.cntOf head)
      if diff ≥ max (u64 (cnt * taskGiveThres) / 100) taskGiveThresMin then diff / 2 else 0
  else some 0

/-- What follows the give-away step, which may have set `last_give_time` to `last`. -/
def endAdvance (env : SchedEnv) (fuel : Nat) (s : Sched) (lapicId timerVal passed last : Nat) :
    Option (Sched × Option Nat) :=
  let s := s.setTree lapicId { s.cpuTrees lapicId with lastGiveTime := last }
  if passed < (s.cpuTrees lapicId).timeSlice then
    some ((s.setPrevThread lapicId none).unlockTree lapicId, none)
  else
    switchThread env fuel lapicId passed
      { s with timerPrevVal := Function.update s.timerPrevVal lapicId timerVal }

end Parts

/-- The scheduler is between two calls, or CPU `c` has `k` more jobs to give away. -/
inductive Phase
  | idle
  | giving (c k : Nat)
  deriving DecidableEq, Repr

inductive LoadEvent
  | queue (th : Nat)
  | dequeue (th : Nat)
  | sleep (th timeNs timerVal : Nat)
  /-- `thread_pqueue_reset_overflow` at the start of an interrupt -/
  | reset (c : Nat)
  | wake (c timerVal : Nat)
  | enter (c timerVal : Nat)
  | give (c : Nat)
  | leave (c timerVal passed last : Nat)

/-- The scheduler with the threads that are queued and those that sleep. -/
structure LoadState where
  sched : Sched
  live : List Nat
  asleep : List Nat
  phase : Phase

/-- Calls to queue, to dequeue and to put to sleep, and interrupts in their steps. -/
inductive LoadStep (env : SchedEnv) : LoadState → LoadEvent → LoadState → Prop
  | queue {s s' : Sched} {live asleep : List Nat} {th : Nat} (fresh : th ∉ live)
      (awake : th ∉ asleep) (room : live.length + asleep.length + 1 < 2 ^ 64)
      (returns : Returns (fun fuel => schedulerQueueThread env fuel s th) s') :
      LoadStep env ⟨s, live, asleep, .idle⟩ (.queue th) ⟨s', th :: live, asleep, .idle⟩
  | dequeue {s s' : Sched} {live asleep : List Nat} {th : Nat} (queued : th ∈ live)
      (returns : Returns (fun fuel => schedulerDequeueThread fuel s th) s') :
      LoadStep env ⟨s, live, asleep, .idle⟩ (.dequeue th) ⟨s', live.erase th, asleep, .idle⟩
  | sleep {s s' : Sched} {live asleep : List Nat} {th timeNs timerVal : Nat} (queued : th ∈ live)
      (returns : Returns (fun fuel => schedulerSleepThread env fuel s th timeNs timerVal) s') :
      LoadStep env ⟨s, live, asleep, .idle⟩ (.sleep th timeNs timerVal)
        ⟨s', live.erase th, th :: asleep, .idle⟩
  | reset (s : Sched) (live asleep : List Nat) (c : Nat) :
      LoadStep env ⟨s, live, asleep, .idle⟩ (.reset c)
        ⟨{ s with thread := (s.sleepPqueue c).resetOverflow s.thread }, live, asleep, .idle⟩
  | wake {s s' : Sched} {live asleep : List Nat} {c timerVal : Nat} (cpu : c < env.coreNum)
      (sleeper : (s.sleepPqueue c).size ≠ 0)
      (due : shouldWakeupNow (s.thread ((s.sleepPqueue c).heap 0)) timerVal = true)
      (returns : Returns (fun fuel => wakeOne env fuel s c) s') :
      LoadStep env ⟨s, live, asleep, .idle⟩ (.wake c timerVal)
        ⟨s', (s.sleepPqueue c).heap 0 :: live, asleep.erase ((s.sleepPqueue c).heap 0), .idle⟩
  | enter {s s' : Sched} {live asleep : List Nat} {c timerVal k : Nat} (cpu : c < env.coreNum)
      (lock : s.lockTree c = some s') (amount : giveAmt s' c timerVal = some k) :
      LoadStep env ⟨s, live, asleep, .idle⟩ (.enter c timerVal) ⟨s', live, asleep, .giving c k⟩
  | give {s s' : Sched} {live asleep : List Nat} {c k : Nat}
      (returns : Returns (fun fuel => giveJobs env fuel c 1 s) s') :
      LoadStep env ⟨s, live, asleep, .giving c (k + 1)⟩ (.give c) ⟨s', live, asleep, .giving c k⟩
  | leave {s s' : Sched} {live asleep : List Nat} {c timerVal passed last : Nat} {thr : Option Nat}
      (gave : last = timerVal ∨ last = (s.cpuTrees c).lastGiveTime)
      (returns : Returns (fun fuel => endAdvance env fuel s c timerVal passed last) (s', thr)) :
      LoadStep env ⟨s, live, asleep, .giving c 0⟩ (.leave c timerVal passed last)
        ⟨s', live, asleep, .idle⟩

/-- The block that a step gets from `kmalloc` is not a node in use at that moment. -/
def LoadEvent.FreshNode (env : SchedEnv) (s : Sched) : LoadEvent → Prop
  | queue _ => FreshBlock env env.coreNum s
  | wake _ _ => FreshBlock env env.coreNum s
  -- the node that the job leaves may be given out again
  | give c => ∀ root s₁, (s.cpuTrees c).root = some root →
      Returns (fun fuel => threadTreeRemove fuel s (s.node root).item) s₁ →
        FreshBlock env env.coreNum s₁
  | _ => True

/-- Runs from `scheduler_init`, or from a state that is `right`, of steps that are `ok`. -/
inductive LoadRun (env : SchedEnv) (right : Sched → List Nat → List Nat → Prop)
    (ok : Sched → LoadEvent → Prop) : LoadState → Prop
  | init (s : Sched) (blocks : ListBlocks env s) :
      LoadRun env right ok ⟨schedulerInit env s, [], [], .idle⟩
  | resume {s : Sched} {live asleep : List Nat} (isRight : right s live asleep) :
      LoadRun env right ok ⟨s, live, asleep, .idle⟩
  | step {x y : LoadState} {e : LoadEvent} (run : LoadRun env right ok x)
      (block : e.FreshNode env x.sched) (isOk : ok x.sched e) (step : LoadStep env x e y) :
      LoadRun env right ok y

/-- The thread of the node `th->hndl` can be deleted from its tree. -/
def RemoveSafe (s : Sched) (th : Nat) : Prop :=
  DeleteSafeAny threadTreeKind (s.tree (s.thread th).tree) (s.thread th).hndl

/--
The list takes the change of a count, the tree the deletion; at the end of an
interrupt the leftmost node is freed itself.
-/
def LoadEvent.Safe (n : Nat) (s : Sched) : LoadEvent → Prop
  | queue _ => QueueSafe n s
  | dequeue th => DequeueSafe n s th ∧ RemoveSafe s th
  | sleep th _ _ => DequeueSafe n s th ∧ RemoveSafe s th
  | reset _ => True
  | wake _ _ => QueueSafe n s
  | enter _ _ => True
  | give c => ∀ root, (s.cpuTrees c).root = some root →
      DequeueSafe n s (s.node root).item ∧ RemoveSafe s (s.node root).item
  | leave c _ passed _ => (s.cpuTrees c).timeSlice ≤ passed → SwitchClean s c

section Advance

/-- Any number of steps. -/
def LoadSteps (env : SchedEnv) : LoadState → LoadState → Prop :=
  Relation.ReflTransGen fun x y => ∃ e, LoadStep env x e y

theorem giveJobs_succ (s : Sched) (c k : Nat) :
    giveJobs env fuel c (k + 1) s = (giveJobs env fuel c 1 s).bind (giveJobs env fuel c k) := by
  simp only [giveJobs, Option.bind_assoc, Option.bind_some]

theorem giveAway_parts (h : giveAway env fuel c timerVal s = some s') :
    ∃ k s₁ last, giveAmt s c timerVal = some k ∧ giveJobs env fuel c k s = some s₁ ∧
      (last = timerVal ∨ last = (s₁.cpuTrees c).lastGiveTime) ∧
      s' = s₁.setTree c { s₁.cpuTrees c with lastGiveTime := last } := by
  unfold giveAway at h
  unfold giveAmt
  split at h
  · rename_i hdue
    obtain ⟨head, hhead, h⟩ := Option.bind_eq_some_iff.mp h
    obtain ⟨s₁, hgive, rfl⟩ := Option.map_eq_some_iff.mp h
    rw [if_pos hdue, hhead]
    refine ⟨_, s₁, timerVal, rfl, ?_, .inl rfl, rfl⟩
    dsimp only
    split at hgive
    · rename_i hover
      rw [if_pos hover]
      exact hgive
    · rename_i hunder
      rw [if_neg hunder]
      exact hgive
  · rename_i hearly
    obtain rfl := Option.some.inj h
    rw [if_neg hearly]
    refine ⟨0, s, (s.cpuTrees c).lastGiveTime, rfl, rfl, .inr rfl, ?_⟩
    simp [Sched.setTree]

theorem wakeSleepers_steps (hcn : c < env.coreNum)
    (h : wakeSleepers env c timerVal fuel s = some s') :
    ∃ live' asleep', LoadSteps env ⟨s, live, asleep, .idle⟩ ⟨s', live', asleep', .idle⟩ := by
  induction fuel generalizing s live asleep with
  | zero => cases h
  | succ fuel ih =>
      unfold wakeSleepers at h
      dsimp only at h
      split at h
      · obtain rfl := Option.some.inj h
        exact ⟨live, asleep, .refl⟩
      rename_i hsize
      split at h
      · obtain rfl := Option.some.inj h
        exact ⟨live, asleep, .refl⟩
      rename_i hdue
      obtain ⟨⟨q', th⟩, hpop, h⟩ := Option.bind_eq_some_iff.mp h
      obtain ⟨s₁, hqueue, h⟩ := Option.bind_eq_some_iff.mp h
      have hwake : Returns (fun fuel => wakeOne env fuel s c) s₁ :=
        ((ThreadPqueue.pop_steady _ _).returns _ hpop).bind
          ((schedulerQueueThread_steady _ _ _).returns _ hqueue)
      obtain ⟨live', asleep', hrest⟩ := ih h
      exact ⟨live', asleep', hrest.head ⟨_, .wake hcn hsize (by simpa using hdue) hwake⟩⟩

theorem giveJobs_steps (h : giveJobs env fuel c k s = some s') :
    LoadSteps env ⟨s, live, asleep, .giving c k⟩ ⟨s', live, asleep, .giving c 0⟩ := by
  induction k generalizing s with
  | zero =>
      obtain rfl := Option.some.inj h
      exact .refl
  | succ k ih =>
      rw [giveJobs_succ] at h
      obtain ⟨s₁, hgive, h⟩ := Option.bind_eq_some_iff.mp h
      exact (ih h).head ⟨_, .give ((giveJobs_steady _ _ _ _).returns _ hgive)⟩

theorem endAdvance_steady (env : SchedEnv) (s : Sched) (c timerVal passed last : Nat) :
    Steady fun fuel => endAdvance env fuel s c timerVal passed last := by
  unfold endAdvance
  dsimp only
  split
  · exact Steady.const _
  · exact switchThread_steady _ _ _ _

theorem wakeOne_steady (env : SchedEnv) (s : Sched) (c : Nat) :
    Steady fun fuel => wakeOne env fuel s c :=
  (ThreadPqueue.pop_steady _ _).bind fun _ => schedulerQueueThread_steady _ _ _

/-- A call of `scheduler_advance_thread_queue` that returns is such steps. -/
theorem schedulerAdvanceThreadQueue_steps {thr : Option Nat} (hcn : c < env.coreNum)
    (h : schedulerAdvanceThreadQueue env fuel s c timerVal = some (s', thr)) :
    ∃ live' asleep', LoadSteps env ⟨s, live, asleep, .idle⟩ ⟨s', live', asleep', .idle⟩ := by
  unfold schedulerAdvanceThreadQueue at h
  obtain ⟨s₁, hwake, h⟩ := Option.bind_eq_some_iff.mp h
  obtain ⟨s₂, hlock, h⟩ := Option.bind_eq_some_iff.mp h
  obtain ⟨s₃, hgive, h⟩ := Option.bind_eq_some_iff.mp h
  obtain ⟨k, s₄, last, hamt, hjobs, hlast, rfl⟩ := giveAway_parts hgive
  have hreset : ∀ ths, ths = (if s.timerPrevVal c > timerVal then
      (s.sleepPqueue c).resetOverflow s.thread else s.thread) →
      LoadSteps env ⟨s, live, asleep, .idle⟩ ⟨{ s with thread := ths }, live, asleep, .idle⟩ := by
    rintro ths rfl
    split
    · exact .single ⟨_, .reset s live asleep c⟩
    · exact .refl
  obtain ⟨live', asleep', hwaken⟩ := wakeSleepers_steps hcn hwake
  have hend : endAdvance env fuel s₄ c timerVal (timeSince (s.timerPrevVal c) timerVal) last =
      some (s', thr) := h
  have hgiven : LoadSteps env ⟨s₂, live', asleep', .giving c k⟩ ⟨s', live', asleep', .idle⟩ :=
    (giveJobs_steps hjobs).tail
      ⟨_, .leave hlast ((endAdvance_steady env s₄ c timerVal _ last).returns fuel hend)⟩
  exact ⟨live', asleep', ((hreset _ rfl).trans hwaken).trans
    (hgiven.head ⟨_, .enter hcn hlock hamt⟩)⟩

end Advance

section Check

/-- The step that an event makes, if it can be made. -/
def loadStep (env : SchedEnv) (fuel : Nat) : LoadState → LoadEvent → Option LoadState
  | ⟨s, live, asleep, .idle⟩, .queue th =>
      if th ∉ live ∧ th ∉ asleep ∧ live.length + asleep.length + 1 < 2 ^ 64 then
        (schedulerQueueThread env fuel s th).map fun s => ⟨s, th :: live, asleep, .idle⟩
      else none
  | ⟨s, live, asleep, .idle⟩, .dequeue th =>
      if th ∈ live then
        (schedulerDequeueThread fuel s th).map fun s => ⟨s, live.erase th, asleep, .idle⟩
      else none
  | ⟨s, live, asleep, .idle⟩, .sleep th timeNs timerVal =>
      if th ∈ live then
        (schedulerSleepThread env fuel s th timeNs timerVal).map fun s =>
          ⟨s, live.erase th, th :: asleep, .idle⟩
      else none
  | ⟨s, live, asleep, .idle⟩, .reset c =>
      some ⟨{ s with thread := (s.sleepPqueue c).resetOverflow s.thread }, live, asleep, .idle⟩
  | ⟨s, live, asleep, .idle⟩, .wake c timerVal =>
      if c < env.coreNum ∧ (s.sleepPqueue c).size ≠ 0 ∧
          shouldWakeupNow (s.thread ((s.sleepPqueue c).heap 0)) timerVal = true then
        (wakeOne env fuel s c).map fun s' => ⟨s', (s.sleepPqueue c).heap 0 :: live,
          asleep.erase ((s.sleepPqueue c).heap 0), .idle⟩
      else none
  | ⟨s, live, asleep, .idle⟩, .enter c timerVal =>
      if c < env.coreNum then
        (s.lockTree c).bind fun s => (giveAmt s c timerVal).map fun k =>
          ⟨s, live, asleep, .giving c k⟩
      else none
  | ⟨s, live, asleep, .giving c (k + 1)⟩, .give c' =>
      if c' = c then (giveJobs env fuel c 1 s).map fun s => ⟨s, live, asleep, .giving c k⟩ else none
  | ⟨s, live, asleep, .giving c 0⟩, .leave c' timerVal passed last =>
      if c' = c ∧ (last = timerVal ∨ last = (s.cpuTrees c).lastGiveTime) then
        (endAdvance env fuel s c timerVal passed last).map fun r => ⟨r.1, live, asleep, .idle⟩
      else none
  | _, _ => none

theorem loadStep_sound {x y : LoadState} {e : LoadEvent} (h : loadStep env fuel x e = some y) :
    LoadStep env x e y := by
  unfold loadStep at h
  split at h
  · split at h
    · rename_i hqueue
      obtain ⟨fresh, awake, room⟩ := hqueue
      obtain ⟨s', hs', rfl⟩ := Option.map_eq_some_iff.mp h
      exact .queue fresh awake room ((schedulerQueueThread_steady _ _ _).returns _ hs')
    · cases h
  · split at h
    · rename_i queued
      obtain ⟨s', hs', rfl⟩ := Option.map_eq_some_iff.mp h
      exact .dequeue queued ((schedulerDequeueThread_steady _ _).returns _ hs')
    · cases h
  · split at h
    · rename_i queued
      obtain ⟨s', hs', rfl⟩ := Option.map_eq_some_iff.mp h
      exact .sleep queued ((schedulerSleepThread_steady _ _ _ _ _).returns _ hs')
    · cases h
  · obtain rfl := Option.some.inj h
    exact .reset _ _ _ _
  · split at h
    · rename_i hwake
      obtain ⟨cpu, sleeper, due⟩ := hwake
      obtain ⟨s', hs', rfl⟩ := Option.map_eq_some_iff.mp h
      exact .wake cpu sleeper due ((wakeOne_steady _ _ _).returns _ hs')
    · cases h
  · split at h
    · rename_i cpu
      obtain ⟨s', hlock, h⟩ := Option.bind_eq_some_iff.mp h
      obtain ⟨k, hamt, rfl⟩ := Option.map_eq_some_iff.mp h
      exact .enter cpu hlock hamt
    · cases h
  · split at h
    · rename_i hc
      subst hc
      obtain ⟨s', hs', rfl⟩ := Option.map_eq_some_iff.mp h
      exact .give ((giveJobs_steady _ _ _ _).returns _ hs')
    · cases h
  · split at h
    · rename_i hleave
      obtain ⟨rfl, gave⟩ := hleave
      obtain ⟨r, hr, rfl⟩ := Option.map_eq_some_iff.mp h
      exact .leave gave ((endAdvance_steady _ _ _ _ _ _).returns _ hr)
    · cases h
  · cases h

/-- `LoadEvent.FreshNode`, read off the trees. -/
def freshNodeCheck (env : SchedEnv) (fuel : Nat) (s : Sched) : LoadEvent → Bool
  | .queue _ => freshBlockCheck env env.coreNum fuel s
  | .wake _ _ => freshBlockCheck env env.coreNum fuel s
  | .give c => match (s.cpuTrees c).root with
      | none => true
      | some root =>
          (threadTreeRemove fuel s (s.node root).item).any (freshBlockCheck env env.coreNum fuel)
  | _ => true

theorem freshNode_of_check {e : LoadEvent} (h : freshNodeCheck env fuel s e = true) :
    e.FreshNode env s := by
  cases e with
  | queue th => exact freshBlock_of_check h
  | wake c timerVal => exact freshBlock_of_check h
  | give c =>
      intro root s₁ hroot hret
      simp only [freshNodeCheck, hroot] at h
      obtain ⟨s₂, hrem, hfresh⟩ := (Option.any_eq_true _ _).mp h
      obtain rfl := hret.unique ((threadTreeRemove_steady _ _).returns fuel hrem)
      exact freshBlock_of_check hfresh
  | _ => trivial

def removeSafeCheck (fuel : Nat) (s : Sched) (th : Nat) : Bool :=
  deleteSafeCheck threadTreeKind fuel (s.tree (s.thread th).tree) (s.thread th).hndl

theorem removeSafe_of_check (h : removeSafeCheck fuel s th = true) : RemoveSafe s th :=
  deleteSafeAny_of_check h

/-- `SwitchClean`, read off the tree. -/
def switchCleanCheck (fuel : Nat) (s : Sched) (c : Nat) : Bool :=
  match (s.cpuTrees c).root with
  | none => true
  | some root => ((s.tree c).leftmost fuel root).any fun a => decide (DeleteSafe (s.tree c) a ∧
      ((s.cpuTrees c).root = some a → (s.tree c).child .right a = none))

theorem switchClean_of_check (h : switchCleanCheck fuel s c = true) : SwitchClean s c := by
  intro root a hroot hret
  simp only [switchCleanCheck, hroot] at h
  obtain ⟨a', hleft, hclean⟩ := (Option.any_eq_true _ _).mp h
  obtain rfl := hret.unique ((Tree.leftmost_steady _ _).returns fuel hleft)
  rw [hroot]
  exact of_decide_eq_true hclean

/-- `LoadEvent.Safe`, read off the list and the trees. -/
def loadSafeCheck (n fuel : Nat) (s : Sched) : LoadEvent → Bool
  | .queue _ => decide (QueueSafe n s)
  | .dequeue th => decide (DequeueSafe n s th) && removeSafeCheck fuel s th
  | .sleep th _ _ => decide (DequeueSafe n s th) && removeSafeCheck fuel s th
  | .wake _ _ => decide (QueueSafe n s)
  | .give c => ((s.cpuTrees c).root).all fun root =>
      decide (DequeueSafe n s (s.node root).item) && removeSafeCheck fuel s (s.node root).item
  | .leave c _ passed _ => !decide ((s.cpuTrees c).timeSlice ≤ passed) || switchCleanCheck fuel s c
  | _ => true

theorem loadSafe_of_check {e : LoadEvent} (h : loadSafeCheck n fuel s e = true) : e.Safe n s := by
  cases e with
  | queue th => exact of_decide_eq_true (p := QueueSafe n s) h
  | dequeue th =>
      obtain ⟨hlist, htree⟩ := Bool.and_eq_true_iff.mp h
      exact ⟨of_decide_eq_true hlist, removeSafe_of_check htree⟩
  | sleep th timeNs timerVal =>
      obtain ⟨hlist, htree⟩ := Bool.and_eq_true_iff.mp h
      exact ⟨of_decide_eq_true hlist, removeSafe_of_check htree⟩
  | wake c timerVal => exact of_decide_eq_true (p := QueueSafe n s) h
  | give c =>
      intro root hroot
      simp only [loadSafeCheck, hroot, Option.all_some, Bool.and_eq_true] at h
      exact ⟨of_decide_eq_true h.1, removeSafe_of_check h.2⟩
  | leave c timerVal passed last =>
      intro hslice
      simp only [loadSafeCheck, hslice, decide_true, Bool.not_true, Bool.false_or] at h
      exact switchClean_of_check h
  | reset c => trivial
  | enter c timerVal => trivial

/-- A step that the checks let pass. -/
def checkedStep (env : SchedEnv) (check : Nat → Sched → LoadEvent → Bool) (fuel : Nat)
    (x : LoadState) (e : LoadEvent) : Option LoadState :=
  if freshNodeCheck env fuel x.sched e = true ∧ check fuel x.sched e = true then
    loadStep env fuel x e
  else none

theorem checkedStep_sound {check : Nat → Sched → LoadEvent → Bool} {x y : LoadState}
    {e : LoadEvent} (h : checkedStep env check fuel x e = some y) :
    e.FreshNode env x.sched ∧ check fuel x.sched e = true ∧ LoadStep env x e y := by
  unfold checkedStep at h
  split at h
  · rename_i hcheck
    exact ⟨freshNode_of_check hcheck.1, hcheck.2, loadStep_sound h⟩
  · cases h

theorem loadRun_of_steps {right : Sched → List Nat → List Nat → Prop}
    {ok : Sched → LoadEvent → Prop} {check : Nat → Sched → LoadEvent → Bool}
    (hok : ∀ s e, check fuel s e = true → ok s e) (events : List LoadEvent) {x y : LoadState}
    (run : LoadRun env right ok x) (hy : events.foldlM (checkedStep env check fuel) x = some y) :
    LoadRun env right ok y := by
  induction events generalizing x with
  | nil =>
      obtain rfl : x = y := Option.some.inj hy
      exact run
  | cons e events ih =>
      rw [List.foldlM_cons] at hy
      obtain ⟨x₁, hstep, hy⟩ := Option.bind_eq_some_iff.mp hy
      obtain ⟨block, isOk, step⟩ := checkedStep_sound hstep
      exact ih (run.step block (hok _ _ isOk) step) hy

end Check

end UntitledOs.Mtask
