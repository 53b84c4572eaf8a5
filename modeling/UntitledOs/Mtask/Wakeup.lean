import UntitledOs.Mtask.SleepFrame

/-!
# Timed wake-up

Times are unbounded; the counter is their low 64 bits.  A deadline is kept as its
low 64 bits and one overflow bit, which says that the counter has to wrap first.
The bits mean what they should as long as the interrupts clear them at the wraps
and at no other time.
-/

namespace UntitledOs.Mtask

open UntitledOs.Lib

/-- A thread and its deadline. -/
abbrev Sleeper := Nat × Nat

/-- A thread goes to sleep at the time `t`, or the timer interrupts at the time `t`. -/
inductive WakeEvent
  | sleep (th timeNs t : Nat)
  | interrupt (t : Nat)

/-- Runs of sleep calls of threads of the CPU `cpu` and of its interrupts, with the times
of the last interrupt and of the last event and the threads that should be asleep. -/
inductive WakeRun (env : SchedEnv) (cpu : Nat)
    (ok : Sched → Nat → List Sleeper → WakeEvent → Prop) :
    Sched → Nat → Nat → List Sleeper → Prop
  | start {s : Sched} (t : Nat) (empty : (s.sleepPqueue cpu).size = 0) : WakeRun env cpu ok s t t []
  | sleep {s s' : Sched} {last now th timeNs t : Nat} {live : List Sleeper}
      (run : WakeRun env cpu ok s last now live) (later : now ≤ t)
      (awake : th ∉ live.map Prod.fst) (home : (s.cpuTrees (s.thread th).tree).cpuNum = cpu)
      (duration : timeNs < 2 ^ 64) (room : live.length + 1 < 2 ^ 64)
      (isOk : ok s last live (.sleep th timeNs t))
      (returns : Returns (fun fuel => schedulerSleepThread env fuel s th timeNs (t % 2 ^ 64)) s') :
      WakeRun env cpu ok s' last t ((th, t + timeNs / env.timerResNs) :: live)
  | interrupt {s s' : Sched} {last now t : Nat} {live : List Sleeper} {thr : Option Nat}
      (run : WakeRun env cpu ok s last now live) (later : now ≤ t)
      (apart : last < t ∧ t < last + 2 ^ 64) (isOk : ok s last live (.interrupt t))
      (returns : Returns (fun fuel => schedulerAdvanceThreadQueue env fuel s cpu (t % 2 ^ 64))
        (s', thr)) :
      WakeRun env cpu ok s' t t (live.filter fun e => t < e.2)

def Overflowed (s : Sched) (e : Sleeper) : Prop := (s.thread e.1).sleepOverflow = 1

/-- The last interrupt and the call read the counter without a wrap between them, or the
deadline comes before the next wrap and no other thread waits for a wrap. -/
def SleepOk (s : Sched) (last : Nat) (live : List Sleeper) (t ticks : Nat) : Prop :=
  t / 2 ^ 64 = last / 2 ^ 64 ∨
    (t % 2 ^ 64 + ticks < 2 ^ 64 ∧ ∀ e ∈ live, ¬ Overflowed s e)

/-- The interrupt sees the wraps it has to see, no deadline before a wrap it sees lies
higher in the counter's range, and no more than two threads sleep if it wakes one. -/
structure InterruptOk (cpu : Nat) (s : Sched) (last : Nat) (live : List Sleeper) (t : Nat) :
    Prop where
  seen : (s.timerPrevVal cpu > t % 2 ^ 64 ↔ t / 2 ^ 64 ≠ last / 2 ^ 64) ∨
    ∀ e ∈ live, ¬ Overflowed s e
  late : ∀ e ∈ live, e.2 / 2 ^ 64 < t / 2 ^ 64 → e.2 % 2 ^ 64 ≤ t % 2 ^ 64
  few : live.length ≤ 2 ∨ ∀ e ∈ live, t < e.2

def WakeEvent.Ok (env : SchedEnv) (cpu : Nat) (s : Sched) (last : Nat) (live : List Sleeper) :
    WakeEvent → Prop
  | sleep _ timeNs t => SleepOk s last live t (timeNs / env.timerResNs)
  | interrupt t => InterruptOk cpu s last live t

/-- The two words of a thread against its deadline. -/
structure Encodes (s : Sched) (last now : Nat) (e : Sleeper) : Prop where
  low : (s.thread e.1).sleepUntil = e.2 % 2 ^ 64
  wrap : ((s.thread e.1).sleepOverflow = 0 ∧ e.2 / 2 ^ 64 ≤ now / 2 ^ 64) ∨
    (Overflowed s e ∧ e.2 / 2 ^ 64 = last / 2 ^ 64 + 1)

structure SleepInv (cpu : Nat) (s : Sched) (last now : Nat) (live : List Sleeper) : Prop where
  queue : PqueueInv s.thread (s.sleepPqueue cpu) (live.map Prod.fst)
  encodes : ∀ e ∈ live, Encodes s last now e
  apart : (∃ e ∈ live, Overflowed s e) →
    ∀ e ∈ live, ¬ Overflowed s e → e.2 / 2 ^ 64 ≤ last / 2 ^ 64
  order : last ≤ now

section Loop

variable {env : SchedEnv} {cpu val : Nat} {s s' : Sched} {q : ThreadPqueue} {ths : Threads}

theorem shouldWakeupNow_congr {t t' : Thread} (huntil : t'.sleepUntil = t.sleepUntil)
    (hover : t'.sleepOverflow = t.sleepOverflow) (val : Nat) :
    shouldWakeupNow t' val = shouldWakeupNow t val := by
  rw [shouldWakeupNow, shouldWakeupNow, huntil, hover]

/-- What `thread_pqueue_reset_overflow` leaves of a thread. -/
theorem resetOverflow_apply (q : ThreadPqueue) (ths : Threads) (a : Nat) :
    q.resetOverflow ths a =
      if a ∈ q.items then { ths a with sleepOverflow := 0 } else ths a := by
  suffices h : ∀ (l : List Nat) (ths : Threads),
      l.foldl (fun ths i => Function.update ths (q.heap i)
        { ths (q.heap i) with sleepOverflow := 0 }) ths a =
      if a ∈ l.map q.heap then { ths a with sleepOverflow := 0 } else ths a from h _ ths
  intro l
  induction l with
  | nil => simp
  | cons i l ih =>
      intro ths
      rw [List.foldl_cons, ih]
      by_cases hai : a = q.heap i
      · subst hai
        simp
      · simp [hai]

theorem heap_mem_items {i : Nat} (hi : i < q.size) : q.heap i ∈ q.items :=
  List.mem_map.mpr ⟨i, List.mem_range.mpr hi, rfl⟩

theorem items_eq_nil (h : q.size = 0) : q.items = [] := by
  simp [ThreadPqueue.items, prefixOf, h]

/-- The loop takes out the threads that are due: none, or those of a queue of at most two
whose root is due if any of them is. -/
theorem wakeSleepers_spec (fuel : Nat) (h : wakeSleepers env cpu val fuel s = some s')
    (hdue : (∀ a ∈ (s.sleepPqueue cpu).items, shouldWakeupNow (s.thread a) val = false) ∨
      ((s.sleepPqueue cpu).size ≤ 2 ∧ ∀ i < (s.sleepPqueue cpu).size,
        shouldWakeupNow (s.thread ((s.sleepPqueue cpu).heap i)) val = true →
          shouldWakeupNow (s.thread ((s.sleepPqueue cpu).heap 0)) val = true)) :
    (s'.sleepPqueue cpu).items.Perm
        ((s.sleepPqueue cpu).items.filter fun a => !shouldWakeupNow (s.thread a) val) ∧
      ((s'.sleepPqueue cpu = s.sleepPqueue cpu ∧
          ∀ a ∈ (s.sleepPqueue cpu).items, shouldWakeupNow (s.thread a) val = false) ∨
        (s'.sleepPqueue cpu).size ≤ 1) ∧
      (∀ a, (s'.thread a).sleepUntil = (s.thread a).sleepUntil) ∧
      ∀ a, (s'.thread a).sleepOverflow = (s.thread a).sleepOverflow := by
  induction fuel generalizing s with
  | zero => cases h
  | succ fuel ih =>
      unfold wakeSleepers at h
      dsimp only at h
      split at h
      · rename_i hzero
        obtain rfl : s = s' := Option.some.inj h
        simp [items_eq_nil hzero]
      rename_i hpos
      have hroot : (s.sleepPqueue cpu).heap 0 ∈ (s.sleepPqueue cpu).items :=
        heap_mem_items (Nat.pos_of_ne_zero hpos)
      split at h
      · rename_i hnot
        obtain rfl : s = s' := Option.some.inj h
        have hnone : ∀ a ∈ (s.sleepPqueue cpu).items, shouldWakeupNow (s.thread a) val = false := by
          rcases hdue with hnone | ⟨-, hfirst⟩
          · exact hnone
          · intro a ha
            obtain ⟨i, hi, rfl⟩ := List.mem_map.mp ha
            by_contra hwake
            have := hfirst i (List.mem_range.mp hi) (by simpa using hwake)
            simp [this] at hnot
        refine ⟨List.Perm.of_eq (List.filter_eq_self.mpr fun a ha => ?_).symm, .inl ⟨rfl, hnone⟩,
          fun _ => rfl, fun _ => rfl⟩
        simp [hnone a ha]
      · rename_i hwake
        have hwake' : shouldWakeupNow (s.thread ((s.sleepPqueue cpu).heap 0)) val = true := by
          simpa using hwake
        obtain ⟨hsmall, -⟩ := hdue.resolve_left fun hnone => by
          simp [hnone _ hroot] at hwake'
        obtain ⟨⟨q', th⟩, hpop, h⟩ := Option.bind_eq_some_iff.mp h
        obtain ⟨s₂, hqueue, hrest⟩ := Option.bind_eq_some_iff.mp h
        obtain ⟨q₁, hret, hone, hitems⟩ :=
          ThreadPqueue.pop_small (Nat.pos_of_ne_zero hpos) hsmall s.thread
        have heq := hret.unique ((ThreadPqueue.pop_steady _ _).returns _ hpop)
        simp only [Prod.mk.injEq] at heq
        obtain ⟨rfl, rfl⟩ := heq
        have hkeep := schedulerQueueThread_keeps hqueue
        have hq₂ : s₂.sleepPqueue cpu = q₁ := by
          rw [hkeep.pqueue]
          simp [Sched.setSleepPqueue]
        have hsame : ∀ a, shouldWakeupNow (s₂.thread a) val = shouldWakeupNow (s.thread a) val :=
          fun a => shouldWakeupNow_congr (hkeep.sleepUntil a) (hkeep.sleepOverflow a) val
        obtain ⟨hperm, hsize, huntil, hover⟩ := ih hrest (.inr ⟨by rw [hq₂]; omega, fun i hi hw => by
          obtain rfl : i = 0 := by
            rw [hq₂] at hi
            omega
          exact hw⟩)
        refine ⟨hperm.trans ?_, .inr ?_, fun a => (huntil a).trans (hkeep.sleepUntil a),
          fun a => (hover a).trans (hkeep.sleepOverflow a)⟩
        · simp only [hsame, hq₂]
          refine (hitems.filter _).trans ?_
          have hcons := (List.perm_cons_erase hroot).filter fun a => !shouldWakeupNow (s.thread a) val
          rw [List.filter_cons_of_neg (by simp [hwake'])] at hcons
          exact hcons.symm
        · rcases hsize with ⟨heq, -⟩ | hle
          · rw [heq, hq₂]
            exact hone
          · exact hle

end Loop

section Steps

variable {env : SchedEnv} {cpu last now th timeNs t : Nat} {s s' : Sched} {live : List Sleeper}
  {e : Sleeper}

theorem Encodes.overflow_zero (h : Encodes s last now e) (hnot : ¬ Overflowed s e) :
    (s.thread e.1).sleepOverflow = 0 ∧ e.2 / 2 ^ 64 ≤ now / 2 ^ 64 :=
  h.wrap.resolve_right fun hwrap => hnot hwrap.1

theorem Encodes.overflowed (h : Encodes s last now e) (hover : Overflowed s e) :
    e.2 / 2 ^ 64 = last / 2 ^ 64 + 1 := by
  rcases h.wrap with ⟨hzero, -⟩ | ⟨-, hwrap⟩
  · rw [Overflowed, hzero] at hover
    cases hover
  · exact hwrap

theorem Encodes.keep {last' now' : Nat} (h : Encodes s last now e) (hnow : now ≤ now')
    (hlast : last' = last) (huntil : (s'.thread e.1).sleepUntil = (s.thread e.1).sleepUntil)
    (hover : (s'.thread e.1).sleepOverflow = (s.thread e.1).sleepOverflow) :
    Encodes s' last' now' e := by
  subst hlast
  refine ⟨huntil.trans h.low, ?_⟩
  rcases h.wrap with ⟨hzero, hle⟩ | ⟨hone, hwrap⟩
  · exact .inl ⟨hover.trans hzero, hle.trans (Nat.div_le_div_right hnow)⟩
  · exact .inr ⟨hover.trans hone, hwrap⟩

/-- What `scheduler_sleep_thread` writes. -/
theorem schedulerSleepThread_spec {fuel : Nat}
    (home : (s.cpuTrees (s.thread th).tree).cpuNum = cpu) (duration : timeNs < 2 ^ 64)
    (h : schedulerSleepThread env fuel s th timeNs (t % 2 ^ 64) = some s') :
    ∃ q, (s.sleepPqueue cpu).push fuel s'.thread th = some q ∧ s'.sleepPqueue cpu = q ∧
      (∀ a, a ≠ th → (s'.thread a).sleepUntil = (s.thread a).sleepUntil ∧
        (s'.thread a).sleepOverflow = (s.thread a).sleepOverflow) ∧
      (s'.thread th).sleepUntil = (t + timeNs / env.timerResNs) % 2 ^ 64 ∧
      (s'.thread th).sleepOverflow =
        if 2 ^ 64 ≤ t % 2 ^ 64 + timeNs / env.timerResNs then 1 else 0 := by
  have hticks : timeNs / env.timerResNs < 2 ^ 64 := (Nat.div_le_self _ _).trans_lt duration
  have hsub : sub64 (2 ^ 64 - 1) (timeNs / env.timerResNs) =
      2 ^ 64 - 1 - timeNs / env.timerResNs := sub64_of_le (by omega) (by omega)
  unfold schedulerSleepThread at h
  obtain ⟨s₂, hdequeue, h⟩ := Option.bind_eq_some_iff.mp h
  obtain ⟨hkeep, htree⟩ := schedulerDequeueThread_keeps hdequeue
  have hcpu : (s₂.cpuTrees (s₂.thread th).tree).cpuNum = cpu := by
    rw [htree, hkeep.cpuNum, ← home]
    simp [Sched.setThread]
  simp only [hcpu] at h
  split at h
  · cases h
  obtain ⟨q, hpush, rfl⟩ := Option.map_eq_some_iff.mp h
  refine ⟨q, ?_, by simp [Sched.setSleepPqueue], fun a ha => ?_, ?_, ?_⟩
  · rw [hkeep.pqueue] at hpush
    exact hpush
  · show (s₂.thread a).sleepUntil = _ ∧ (s₂.thread a).sleepOverflow = _
    rw [hkeep.sleepUntil, hkeep.sleepOverflow]
    simp [Sched.setThread, ha]
  · show (s₂.thread th).sleepUntil = _
    rw [hkeep.sleepUntil]
    simp only [Sched.setThread, Function.update_self, u64]
    omega
  · show (s₂.thread th).sleepOverflow = _
    rw [hkeep.sleepOverflow]
    simp only [Sched.setThread, Function.update_self, hsub]
    refine if_congr ?_ rfl rfl
    omega

theorem SleepInv.sleep (h : SleepInv cpu s last now live) (later : now ≤ t)
    (awake : th ∉ live.map Prod.fst) (home : (s.cpuTrees (s.thread th).tree).cpuNum = cpu)
    (duration : timeNs < 2 ^ 64) (room : live.length + 1 < 2 ^ 64)
    (hok : SleepOk s last live t (timeNs / env.timerResNs))
    (returns : Returns (fun fuel => schedulerSleepThread env fuel s th timeNs (t % 2 ^ 64)) s') :
    SleepInv cpu s' last t ((th, t + timeNs / env.timerResNs) :: live) := by
  obtain ⟨fuel, hfuel⟩ := returns
  obtain ⟨q, hpush, hq, hothers, hlow, hover⟩ :=
    schedulerSleepThread_spec home duration (hfuel fuel le_rfl)
  have hold : ∀ e ∈ live, e.1 ≠ th := by
    rintro e he rfl
    exact awake (List.mem_map_of_mem he)
  have hlast := h.order
  -- the others are as before, for the later time
  have hencodes : ∀ e ∈ live, Encodes s' last t e := fun e he =>
    (h.encodes e he).keep later rfl (hothers e.1 (hold e he)).1 (hothers e.1 (hold e he)).2
  have hsame : ∀ e ∈ live, (Overflowed s' e ↔ Overflowed s e) := fun e he => by
    rw [Overflowed, (hothers e.1 (hold e he)).2, Overflowed]
  have hqueue := h.queue.others fun a ha => by
    obtain ⟨e, he, rfl⟩ := List.mem_map.mp ha
    exact hothers e.1 (hold e he)
  have hsize := hqueue.size_eq
  rw [List.length_map] at hsize
  obtain ⟨q', hret, hord, hitems⟩ := ThreadPqueue.push_spec hqueue.ordered (by omega) th
  obtain rfl := hret.unique ((push_steady _ _ _).returns _ hpush)
  refine ⟨⟨hq ▸ hord, ?_, by simpa using room⟩, ?_, ?_, hlast.trans later⟩
  · rw [hq]
    exact hitems.trans (hqueue.items.cons th)
  · intro e he
    rcases List.mem_cons.mp he with rfl | he
    · refine ⟨hlow, ?_⟩
      by_cases hwrap : 2 ^ 64 ≤ t % 2 ^ 64 + timeNs / env.timerResNs
      · rw [if_pos hwrap] at hover
        rcases hok with heq | ⟨hlt, -⟩
        · refine .inr ⟨hover, ?_⟩
          have hticks : timeNs / env.timerResNs < 2 ^ 64 :=
            (Nat.div_le_self _ _).trans_lt duration
          simp only
          omega
        · omega
      · rw [if_neg hwrap] at hover
        refine .inl ⟨hover, ?_⟩
        simp only
        omega
    · exact hencodes e he
  · rintro ⟨e, he, hone⟩ e' he' hzero
    rcases List.mem_cons.mp he' with rfl | he'
    · -- the new thread does not wait for a wrap, so another one does
      have hnew : ¬ 2 ^ 64 ≤ t % 2 ^ 64 + timeNs / env.timerResNs := fun hwrap =>
        hzero (by rw [Overflowed, hover, if_pos hwrap])
      have he : e ∈ live := (List.mem_cons.mp he).resolve_left (by rintro rfl; exact hzero hone)
      rcases hok with heq | ⟨-, hnone⟩
      · simp only
        omega
      · exact absurd ((hsame e he).mp hone) (hnone e he)
    · rcases hok with heq | ⟨hlt, hnone⟩
      · have hle := ((hencodes e' he').overflow_zero hzero).2
        omega
      · rcases List.mem_cons.mp he with rfl | he
        · rw [Overflowed, hover, if_neg (by omega)] at hone
          cases hone
        · exact absurd ((hsame e he).mp hone) (hnone e he)

/-- The threads as the interrupt at the time `t` looks at them. -/
def threadsAt (cpu : Nat) (s : Sched) (t : Nat) : Threads :=
  if s.timerPrevVal cpu > t % 2 ^ 64 then (s.sleepPqueue cpu).resetOverflow s.thread else s.thread

theorem schedulerAdvanceThreadQueue_spec {fuel : Nat} {thr : Option Nat}
    (h : schedulerAdvanceThreadQueue env fuel s cpu (t % 2 ^ 64) = some (s', thr)) :
    ∃ s₁, wakeSleepers env cpu (t % 2 ^ 64) fuel { s with thread := threadsAt cpu s t } = some s₁ ∧
      KeepsSleepers s₁ s' := by
  unfold schedulerAdvanceThreadQueue at h
  obtain ⟨s₁, hwake, h⟩ := Option.bind_eq_some_iff.mp h
  obtain ⟨s₂, hlock, h⟩ := Option.bind_eq_some_iff.mp h
  obtain ⟨s₃, hgive, h⟩ := Option.bind_eq_some_iff.mp h
  have hkeep := (KeepsSleepers.lockTree hlock).trans (giveAway_keeps hgive)
  refine ⟨s₁, hwake, hkeep.trans ?_⟩
  split at h
  · simp only [Option.some.injEq, Prod.mk.injEq] at h
    obtain ⟨rfl, -⟩ := h
    exact @KeepsSleepers.trans _ (s₃.setPrevThread cpu none) _ (.of_eq rfl rfl rfl)
      (.unlockTree _ cpu)
  · have hset : KeepsSleepers s₃ { s₃ with
        timerPrevVal := Function.update s₃.timerPrevVal cpu (t % 2 ^ 64) } := .of_eq rfl rfl rfl
    exact hset.trans (switchThread_keeps h)

theorem SleepInv.mem_items (h : SleepInv cpu s last now live) (he : e ∈ live) :
    e.1 ∈ (s.sleepPqueue cpu).items :=
  h.queue.items.mem_iff.mpr (List.mem_map_of_mem he)

theorem SleepInv.threadsAt_until (t a : Nat) :
    (threadsAt cpu s t a).sleepUntil = (s.thread a).sleepUntil := by
  unfold threadsAt
  split
  · rw [resetOverflow_apply]
    split <;> rfl
  · rfl

theorem SleepInv.threadsAt_overflow (h : SleepInv cpu s last now live) (he : e ∈ live) (t : Nat) :
    (threadsAt cpu s t e.1).sleepOverflow =
      if s.timerPrevVal cpu > t % 2 ^ 64 then 0 else (s.thread e.1).sleepOverflow := by
  unfold threadsAt
  split
  · rw [resetOverflow_apply, if_pos (h.mem_items he)]
  · rfl

/-- The test of the interrupt compares the times. -/
theorem SleepInv.due_iff (h : SleepInv cpu s last now live) (later : now ≤ t)
    (hlt : t < last + 2 ^ 64) (hok : InterruptOk cpu s last live t) (he : e ∈ live) :
    shouldWakeupNow (threadsAt cpu s t e.1) (t % 2 ^ 64) = true ↔ e.2 ≤ t := by
  have henc := h.encodes e he
  have hlow := henc.low
  have hover := h.threadsAt_overflow he t
  have horder := h.order
  rw [shouldWakeupNow, SleepInv.threadsAt_until, hlow, Bool.and_eq_true, decide_eq_true_eq,
    decide_eq_true_eq, hover]
  by_cases hone : Overflowed s e
  · have hwrap := henc.overflowed hone
    have hseen := hok.seen.resolve_right fun hnone => hnone e he hone
    rw [Overflowed] at hone
    by_cases hreset : s.timerPrevVal cpu > t % 2 ^ 64
    · have hne := hseen.mp hreset
      simp only [if_pos hreset, true_and]
      omega
    · have heq : t / 2 ^ 64 = last / 2 ^ 64 := by
        by_contra hne
        exact hreset (hseen.mpr hne)
      simp only [if_neg hreset, hone]
      omega
  · obtain ⟨hzero, hle⟩ := henc.overflow_zero hone
    have hlate := hok.late e he
    simp only [hzero, ite_self, true_and]
    omega

theorem SleepInv.root_due (h : SleepInv cpu s last now live) (later : now ≤ t)
    (hok : InterruptOk cpu s last live t) {a b : Sleeper} (ha : a ∈ live) (hb : b ∈ live)
    (hle : NotLater s.thread a.1 b.1) (hdue : b.2 ≤ t) : a.2 ≤ t := by
  have hena := h.encodes a ha
  have henb := h.encodes b hb
  have hlate := hok.late b hb
  rw [notLater_iff, hena.low, henb.low] at hle
  by_cases hone : Overflowed s b
  · have hwb := henb.overflowed hone
    by_cases honea : Overflowed s a
    · have hwa := hena.overflowed honea
      rw [Overflowed] at hone honea
      omega
    · have hza := (hena.overflow_zero honea)
      have hapart := h.apart ⟨b, hb, hone⟩ a ha honea
      omega
  · have hzb := henb.overflow_zero hone
    have honea : ¬ Overflowed s a := by
      intro honea
      rw [Overflowed] at honea
      omega
    have hza := hena.overflow_zero honea
    omega

/-- A queue none of whose threads is due keeps its order when its bits are cleared. -/
theorem SleepInv.ordered_reset (h : SleepInv cpu s last now live)
    (hok : InterruptOk cpu s last live t) (hlast : last < t)
    (hnone : ∀ e ∈ live, t < e.2) (huntil : ∀ a, (s'.thread a).sleepUntil = (s.thread a).sleepUntil)
    (hover : ∀ e ∈ live, (s'.thread e.1).sleepOverflow =
      if s.timerPrevVal cpu > t % 2 ^ 64 then 0 else (s.thread e.1).sleepOverflow) :
    ThreadPqueue.Ordered s'.thread (s.sleepPqueue cpu) := by
  intro j hj hjs
  have hold := h.queue.ordered j hj hjs
  obtain ⟨a, ha, haeq⟩ := List.mem_map.mp (h.queue.mem_live (show j / 2 < _ by omega))
  obtain ⟨b, hb, hbeq⟩ := List.mem_map.mp (h.queue.mem_live hjs)
  rw [← haeq, ← hbeq] at hold ⊢
  have hena := h.encodes a ha
  have hnota := hnone a ha
  rw [notLater_iff] at hold ⊢
  rw [hover a ha, hover b hb, huntil, huntil]
  split
  · rename_i hreset
    refine .inr ⟨rfl, ?_⟩
    rcases hold with hmixed | ⟨-, hle⟩
    · -- then `a` is from before the wrap and would be due
      exfalso
      rcases (h.encodes b hb).wrap with ⟨hzero, -⟩ | ⟨hone, hwrap⟩
      · omega
      · have hzero : ¬ Overflowed s a := by
          intro honea
          rw [Overflowed] at hone honea
          omega
        have hapart := h.apart ⟨b, hb, hone⟩ a ha hzero
        have hne := (hok.seen.resolve_right fun hno => hno b hb hone).mp hreset
        omega
    · exact hle
  · exact hold

theorem SleepInv.interrupt {thr : Option Nat} (h : SleepInv cpu s last now live)
    (later : now ≤ t) (apart : last < t ∧ t < last + 2 ^ 64) (hok : InterruptOk cpu s last live t)
    (returns : Returns (fun fuel => schedulerAdvanceThreadQueue env fuel s cpu (t % 2 ^ 64))
      (s', thr)) :
    SleepInv cpu s' t t (live.filter fun e => t < e.2) := by
  obtain ⟨fuel, hfuel⟩ := returns
  obtain ⟨s₁, hwake, hkeep⟩ := schedulerAdvanceThreadQueue_spec (hfuel fuel le_rfl)
  have hdue : ∀ e ∈ live, (shouldWakeupNow (threadsAt cpu s t e.1) (t % 2 ^ 64) = true ↔ e.2 ≤ t) :=
    fun e he => h.due_iff later apart.2 hok he
  have hsize := h.queue.size_eq
  rw [List.length_map] at hsize
  have hsleeper : ∀ a ∈ (s.sleepPqueue cpu).items, ∃ e ∈ live, e.1 = a := fun a ha =>
    List.mem_map.mp (h.queue.items.mem_iff.mp ha)
  obtain ⟨hperm, hqueue, huntil, hover⟩ := wakeSleepers_spec fuel hwake (by
    rcases hok.few with hfew | hnone
    · refine .inr ⟨by rw [← hsize] at hfew; exact hfew, fun i hi hdue_i => ?_⟩
      obtain ⟨a, ha, haeq⟩ := List.mem_map.mp (h.queue.mem_live (Nat.zero_lt_of_lt hi))
      obtain ⟨b, hb, hbeq⟩ := List.mem_map.mp (h.queue.mem_live hi)
      have hle := (h.queue.ordered.least hi).1
      simp only [← haeq, ← hbeq] at hle hdue_i ⊢
      exact (hdue a ha).mpr (h.root_due later hok ha hb hle ((hdue b hb).mp hdue_i))
    · refine .inl fun a ha => ?_
      obtain ⟨e, he, rfl⟩ := hsleeper a ha
      by_contra hwakes
      have := (hdue e he).mp (by simpa using hwakes)
      have := hnone e he
      omega)
  have hpqueue : s'.sleepPqueue cpu = s₁.sleepPqueue cpu := by rw [hkeep.pqueue]
  have huntil' : ∀ a, (s'.thread a).sleepUntil = (s.thread a).sleepUntil := fun a => by
    rw [hkeep.sleepUntil, huntil, SleepInv.threadsAt_until]
  have hover' : ∀ e ∈ live, (s'.thread e.1).sleepOverflow =
      if s.timerPrevVal cpu > t % 2 ^ 64 then 0 else (s.thread e.1).sleepOverflow := fun e he => by
    rw [hkeep.sleepOverflow, hover, h.threadsAt_overflow he]
  have hencodes : ∀ e ∈ live, t < e.2 → Encodes s' t t e := by
    intro e he hlt
    have henc := h.encodes e he
    refine ⟨(huntil' e.1).trans henc.low, ?_⟩
    rw [Overflowed, hover' e he]
    by_cases hone : Overflowed s e
    · have hwrap := henc.overflowed hone
      have hseen := hok.seen.resolve_right fun hnone => hnone e he hone
      by_cases hreset : s.timerPrevVal cpu > t % 2 ^ 64
      · have hne := hseen.mp hreset
        refine .inl ⟨if_pos hreset, ?_⟩
        omega
      · have heq : t / 2 ^ 64 = last / 2 ^ 64 := by
          by_contra hne
          exact hreset (hseen.mpr hne)
        exact .inr ⟨(if_neg hreset).trans hone, by omega⟩
    · obtain ⟨hzero, hle⟩ := henc.overflow_zero hone
      refine .inl ⟨by rw [hzero, ite_self], ?_⟩
      omega
  have hitems : (s'.sleepPqueue cpu).items.Perm ((live.filter fun e => t < e.2).map Prod.fst) := by
    rw [hpqueue]
    refine hperm.trans ((h.queue.items.filter _).trans (List.Perm.of_eq ?_))
    rw [List.filter_map]
    refine congrArg _ (List.filter_congr fun e he => ?_)
    show (!shouldWakeupNow (threadsAt cpu s t e.1) (t % 2 ^ 64)) = decide (t < e.2)
    by_cases hle : e.2 ≤ t
    · rw [(hdue e he).mpr hle, Bool.not_true, eq_comm, decide_eq_false_iff_not]
      omega
    · rw [Bool.eq_false_iff.mpr fun hw => hle ((hdue e he).mp hw), Bool.not_false, eq_comm,
        decide_eq_true_eq]
      omega
  refine ⟨⟨?_, hitems, ?_⟩, ?_, ?_, le_rfl⟩
  · rw [hpqueue]
    rcases hqueue with ⟨hsame, hnone⟩ | hsmall
    · rw [hsame]
      refine h.ordered_reset hok apart.1 (fun e he => ?_) huntil' hover'
      by_contra hle
      have hwakes := (hdue e he).mpr (by omega)
      have hnot : shouldWakeupNow (threadsAt cpu s t e.1) (t % 2 ^ 64) = false :=
        hnone e.1 (h.mem_items he)
      rw [hnot] at hwakes
      cases hwakes
    · exact .of_small hsmall
  · have hroom := h.queue.room
    have hle := List.length_filter_le (fun e : Sleeper => decide (t < e.2)) live
    rw [List.length_map] at hroom ⊢
    omega
  · intro e he
    obtain ⟨he, hlt⟩ := List.mem_filter.mp he
    exact hencodes e he (by simpa using hlt)
  · rintro - e he hzero
    obtain ⟨he, hlt⟩ := List.mem_filter.mp he
    exact ((hencodes e he (by simpa using hlt)).overflow_zero hzero).2

end Steps

theorem WakeRun.inv {env : SchedEnv} {cpu last now : Nat} {s : Sched} {live : List Sleeper}
    (run : WakeRun env cpu (fun s last live event => event.Ok env cpu s last live) s last now live) :
    SleepInv cpu s last now live := by
  induction run with
  | @start s t empty =>
      refine ⟨⟨.of_small (by omega), ?_, by simp⟩, by simp, by simp, le_rfl⟩
      rw [items_eq_nil empty]
      exact List.Perm.refl _
  | sleep run later awake home duration room isOk returns ih =>
      exact ih.sleep later awake home duration room isOk returns
  | interrupt run later apart isOk returns ih => exact ih.interrupt later apart isOk returns

/-- Asleep are exactly the threads whose deadline no interrupt has reached, and the pops of
the next interrupt return. -/
theorem wakeRun_exact {env : SchedEnv} {cpu last now : Nat} {s : Sched} {live : List Sleeper}
    (run : WakeRun env cpu (fun s last live event => event.Ok env cpu s last live) s last now live) :
    (s.sleepPqueue cpu).items.Perm (live.map Prod.fst) ∧
      ∀ t, InterruptOk cpu s last live t → (∃ e ∈ live, e.2 ≤ t) →
        ∃ q, Returns (fun fuel => (s.sleepPqueue cpu).pop fuel (threadsAt cpu s t))
          (q, (s.sleepPqueue cpu).heap 0) := by
  have hinv := run.inv
  refine ⟨hinv.queue.items, ?_⟩
  rintro t hok ⟨e, he, hle⟩
  have hsize := hinv.queue.size_eq
  rw [List.length_map] at hsize
  have hpos := List.length_pos_of_mem he
  have hfew := hok.few.resolve_right fun hnone => absurd (hnone e he) (by omega)
  obtain ⟨q, hret, -⟩ := ThreadPqueue.pop_small (q := s.sleepPqueue cpu) (by omega) (by omega)
    (threadsAt cpu s t)
  exact ⟨q, hret⟩

section Examples

theorem schedulerSleepThread_steady (env : SchedEnv) (s : Sched) (th timeNs timerVal : Nat) :
    Steady fun fuel => schedulerSleepThread env fuel s th timeNs timerVal := by
  refine (schedulerDequeueThread_steady _ th).bind fun s => ?_
  dsimp only
  split
  · exact Steady.const _
  · exact (push_steady _ _ _).map _

section Steps

variable {env : SchedEnv} {cpu last now : Nat} {s s' : Sched} {live : List Sleeper}
  {ok : Sched → Nat → List Sleeper → WakeEvent → Prop}

theorem WakeRun.sleepStep {th timeNs : Nat} (fuel t timerVal deadline : Nat)
    (run : WakeRun env cpu ok s last now live) (later : now ≤ t)
    (awake : th ∉ live.map Prod.fst) (home : (s.cpuTrees (s.thread th).tree).cpuNum = cpu)
    (duration : timeNs < 2 ^ 64) (room : live.length + 1 < 2 ^ 64)
    (isOk : ok s last live (.sleep th timeNs t)) (hval : t % 2 ^ 64 = timerVal)
    (hdeadline : t + timeNs / env.timerResNs = deadline)
    (step : schedulerSleepThread env fuel s th timeNs timerVal = some s') :
    WakeRun env cpu ok s' last t ((th, deadline) :: live) := by
  subst hval hdeadline
  exact .sleep run later awake home duration room isOk
    ((schedulerSleepThread_steady _ _ _ _ _).returns fuel step)

theorem WakeRun.interruptStep {thr : Option Nat} (fuel t timerVal : Nat)
    (run : WakeRun env cpu ok s last now live) (later : now ≤ t)
    (apart : last < t ∧ t < last + 2 ^ 64) (isOk : ok s last live (.interrupt t))
    (hval : t % 2 ^ 64 = timerVal) (left : List Sleeper)
    (hleft : live.filter (fun e => t < e.2) = left)
    (step : schedulerAdvanceThreadQueue env fuel s cpu timerVal = some (s', thr)) :
    WakeRun env cpu ok s' t t left := by
  subst hval hleft
  exact .interrupt run later apart isOk
    ((schedulerAdvanceThreadQueue_steady _ _ _ _).returns fuel step)

end Steps

/-- One CPU with the thread 1 in its tree. -/
def oneQueued : Option Sched := schedulerQueueThread oneCpu 8 (schedulerInit oneCpu blankSched) 1

/-- The threads 1 and 2 go to sleep a hundred ticks before the wrap, and interrupts come before the
wrap and at the deadline of thread 1 behind it. -/
theorem overWrap_runs :
    (oneQueued.bind fun s => (schedulerQueueThread oneCpu 8 s 2).bind fun s₀ =>
      (schedulerSleepThread oneCpu 8 s₀ 1 200 (2 ^ 64 - 100)).bind fun s₁ =>
      (schedulerSleepThread oneCpu 8 s₁ 2 1000 (2 ^ 64 - 90)).bind fun s₂ =>
      (schedulerAdvanceThreadQueue oneCpu 8 s₂ 0 (2 ^ 64 - 50)).bind fun r₃ =>
      (schedulerAdvanceThreadQueue oneCpu 8 r₃.1 0 100).map fun r₄ =>
        decide ((s₀.sleepPqueue 0).size = 0 ∧ (s₀.cpuTrees (s₀.thread 1).tree).cpuNum = 0 ∧
          (s₁.cpuTrees (s₁.thread 2).tree).cpuNum = 0 ∧ s₂.timerPrevVal 0 = 0 ∧
          r₃.1.timerPrevVal 0 = 2 ^ 64 - 50 ∧ (r₄.1.thread 2).sleepOverflow = 0)) = some true := by
  decide +kernel

/-- The first interrupt wakes nobody, the second one thread 1; thread 2 is left for a third one. -/
theorem wakeRun_exact_overWrap :
    ∃ s, WakeRun oneCpu 0 (fun s last live event => event.Ok oneCpu 0 s last live) s
        (2 ^ 64 + 100) (2 ^ 64 + 100) [(2, 2 ^ 64 + 910)] ∧
      (s.sleepPqueue 0).items.Perm [2] ∧
      ∃ q, Returns (fun fuel => (s.sleepPqueue 0).pop fuel (threadsAt 0 s (2 ^ 64 + 910)))
        (q, (s.sleepPqueue 0).heap 0) := by
  obtain ⟨s, -, hbind⟩ := Option.bind_eq_some_iff.mp overWrap_runs
  obtain ⟨s₀, -, hbind⟩ := Option.bind_eq_some_iff.mp hbind
  obtain ⟨s₁, hsleep₁, hbind⟩ := Option.bind_eq_some_iff.mp hbind
  obtain ⟨s₂, hsleep₂, hbind⟩ := Option.bind_eq_some_iff.mp hbind
  obtain ⟨⟨s₃, thr₃⟩, hadvance₃, hmap⟩ := Option.bind_eq_some_iff.mp hbind
  obtain ⟨⟨s₄, thr₄⟩, hadvance₄, hfacts⟩ := Option.map_eq_some_iff.mp hmap
  obtain ⟨hempty, hhome₁, hhome₂, hprev₂, hprev₃, hover⟩ := of_decide_eq_true hfacts
  have hrun₀ : WakeRun oneCpu 0 (fun s last live event => event.Ok oneCpu 0 s last live) s₀
      (2 ^ 64 - 100) (2 ^ 64 - 100) [] := .start _ hempty
  have hrun₁ := hrun₀.sleepStep 8 (2 ^ 64 - 100) (2 ^ 64 - 100) (2 ^ 64 + 100) le_rfl (by simp)
    hhome₁ (by decide) (by decide) (.inl rfl) (by decide) (by decide) hsleep₁
  have hrun₂ := hrun₁.sleepStep 8 (2 ^ 64 - 90) (2 ^ 64 - 90) (2 ^ 64 + 910) (by decide)
    (by decide) hhome₂ (by decide) (by decide) (.inl (by decide)) (by decide) (by decide) hsleep₂
  have hrun₃ := hrun₂.interruptStep 8 (2 ^ 64 - 50) (2 ^ 64 - 50) (by decide) (by decide)
    ⟨.inl (by rw [hprev₂]; decide), by decide, .inl (by decide)⟩ (by decide)
    [(2, 2 ^ 64 + 910), (1, 2 ^ 64 + 100)] (by decide) hadvance₃
  have hrun₄ := hrun₃.interruptStep 8 (2 ^ 64 + 100) 100 (by decide) (by decide)
    ⟨.inl (by rw [hprev₃]; decide), by decide, .inl (by decide)⟩ (by decide)
    [(2, 2 ^ 64 + 910)] (by decide) hadvance₄
  obtain ⟨hitems, hpops⟩ := wakeRun_exact hrun₄
  refine ⟨s₄, hrun₄, hitems, hpops (2 ^ 64 + 910) ⟨.inr ?_, by decide, .inl (by decide)⟩
    ⟨(2, 2 ^ 64 + 910), by simp, le_rfl⟩⟩
  rintro e he
  obtain rfl := List.mem_singleton.mp he
  rw [Overflowed, show (s₄.thread 2).sleepOverflow = 0 from hover]
  decide

theorem oneQueued_late :
    (oneQueued.bind fun s => (schedulerSleepThread oneCpu 8 s 1 (2 ^ 64 - 110) 100).bind fun s' =>
      (schedulerAdvanceThreadQueue oneCpu 8 s' 0 5).map fun r =>
        ((s.sleepPqueue 0).size, (s.cpuTrees (s.thread 1).tree).cpuNum,
          (r.1.sleepPqueue 0).size)) = some (0, 0, 1) := by
  decide +kernel

/-- The deadline is ten ticks before the wrap, the interrupt five ticks behind it. -/
theorem wakeRun_missed :
    ¬ ∀ (env : SchedEnv) (cpu last now : Nat) (s : Sched) (live : List Sleeper),
      WakeRun env cpu (fun _ _ _ _ => True) s last now live →
        (s.sleepPqueue cpu).items.Perm (live.map Prod.fst) := by
  intro hall
  obtain ⟨s, -, hbind⟩ := Option.bind_eq_some_iff.mp oneQueued_late
  obtain ⟨s', hsleep, hmap⟩ := Option.bind_eq_some_iff.mp hbind
  obtain ⟨⟨s'', thr⟩, hadvance, hfacts⟩ := Option.map_eq_some_iff.mp hmap
  obtain ⟨hempty, hrest⟩ := Prod.mk.inj hfacts
  obtain ⟨hhome, hsize⟩ := Prod.mk.inj hrest
  have hsleeps : Returns (fun fuel => schedulerSleepThread oneCpu fuel s 1 (2 ^ 64 - 110)
      (100 % 2 ^ 64)) s' := (schedulerSleepThread_steady _ _ _ _ _).returns 8 hsleep
  have hinterrupts : Returns (fun fuel => schedulerAdvanceThreadQueue oneCpu fuel s' 0
      ((2 ^ 64 + 5) % 2 ^ 64)) (s'', thr) :=
    (schedulerAdvanceThreadQueue_steady _ _ _ _).returns 8 hadvance
  have hrun : WakeRun oneCpu 0 (fun _ _ _ _ => True) s' 100 100 [(1, 100 + (2 ^ 64 - 110) / 1)] :=
    .sleep (.start 100 hempty) le_rfl (by simp) hhome (by decide) (by decide) trivial hsleeps
  have hitems := hall _ _ _ _ _ _
    (.interrupt (t := 2 ^ 64 + 5) hrun (by decide) (by decide) trivial hinterrupts)
  have hlen := hitems.length_eq
  simp only [ThreadPqueue.items, prefixOf, List.length_map, List.length_range] at hlen
  rw [show (s''.sleepPqueue 0).size = 1 from hsize] at hlen
  exact absurd hlen (by decide)

end Examples

end UntitledOs.Mtask
