import Mathlib.Tactic.IntervalCases
import UntitledOs.Mtask.Balancing

/-!
# Handles over whole runs

The CPU list may be in any order, or broken, as long as its pointers stay among
the nodes of the CPUs: threads then still are where their fields say, until a
deletion goes wrong, a switch frees another node than it deletes, or a sleeping
thread is woken.
-/

namespace UntitledOs.Mtask

open UntitledOs.Lib UntitledOs.RbTree

variable {env : SchedEnv} {s s' : Sched} {live asleep nodes : List Nat} {v : Option Nat}
  {th n c a l prev fuel : Nat}

section ListNodes

/-- A pointer of the list is null or to one of its nodes. -/
def Among (nodes : List Nat) (v : Option Nat) : Prop := ∀ a, v = some a → a ∈ nodes

/-- All pointers of the list are to nodes of the `n` CPUs. -/
structure ListNodes (n : Nat) (s : Sched) (nodes : List Nat) : Prop where
  tree : ∀ a ∈ nodes, (s.lnode a).tree < n
  next : ∀ a ∈ nodes, Among nodes (s.nextOf a)
  prev : ∀ a ∈ nodes, Among nodes (s.prevOf a)
  head : Among nodes s.cpuTreeList
  ptr : ∀ i < n, (s.cpuTrees i).listPtr ∈ nodes

namespace ListNodes

theorem congr (h : ListNodes n s nodes) (hlist : SameList s s') : ListNodes n s' nodes := by
  refine ⟨fun a ha => ?_, fun a ha => ?_, fun a ha => ?_, ?_, fun i hi => ?_⟩
  · rw [hlist.lnode]
    exact h.tree a ha
  · rw [Sched.nextOf, hlist.lnode]
    exact h.next a ha
  · rw [Sched.prevOf, hlist.lnode]
    exact h.prev a ha
  · rw [hlist.head]
    exact h.head
  · rw [hlist.listPtr]
    exact h.ptr i hi

theorem setListNext (h : ListNodes n s nodes) (hv : Among nodes v) (a : Nat) :
    ListNodes n (s.setListNext a v) nodes := by
  refine ⟨fun b hb => ?_, fun b hb => ?_, fun b hb => ?_, h.head, h.ptr⟩
  · rw [((SameTrees.refl s).setListNext a v).owner]
    exact h.tree b hb
  · rw [Sched.nextOf_setListNext]
    split
    · exact hv
    · exact h.next b hb
  · rw [Sched.prevOf_setListNext]
    exact h.prev b hb

theorem setListPrev (h : ListNodes n s nodes) (hv : Among nodes v) (a : Nat) :
    ListNodes n (s.setListPrev a v) nodes := by
  refine ⟨fun b hb => ?_, fun b hb => ?_, fun b hb => ?_, h.head, h.ptr⟩
  · rw [((SameTrees.refl s).setListPrev a v).owner]
    exact h.tree b hb
  · rw [Sched.nextOf_setListPrev]
    exact h.next b hb
  · rw [Sched.prevOf_setListPrev]
    split
    · exact hv
    · exact h.prev b hb

theorem setHead (h : ListNodes n s nodes) (hv : Among nodes v) :
    ListNodes n { s with cpuTreeList := v } nodes :=
  ⟨h.tree, h.next, h.prev, hv, h.ptr⟩

theorem among (ha : a ∈ nodes) : Among nodes (some a) := by
  rintro b ⟨⟩
  exact ha

theorem among_none : Among nodes none := by
  rintro b ⟨⟩

/-- The loop of `cpu_tree_list_move_smallest` ends at nodes of the list. -/
theorem moveSmallestLoop {head : Nat} {cur : Option Nat} {r : Option Nat × Option Nat}
    (h : ListNodes n s nodes) (hprev : Among nodes v) (hcur : Among nodes cur)
    (hloop : moveSmallestLoop s head fuel v cur = some r) : Among nodes r.1 ∧ Among nodes r.2 := by
  induction fuel generalizing v cur with
  | zero => cases hloop
  | succ fuel ih =>
      cases cur with
      | none =>
          obtain rfl := Option.some.inj hloop
          exact ⟨hprev, hcur⟩
      | some cur =>
          rw [Mtask.moveSmallestLoop] at hloop
          split at hloop
          · exact ih hcur (h.next cur (hcur cur rfl)) hloop
          · obtain rfl := Option.some.inj hloop
            exact ⟨hprev, hcur⟩

theorem moveSmallestBody {head : Nat} (h : ListNodes n s nodes) (hhead : head ∈ nodes)
    (hbody : moveSmallestBody fuel s head = some s') : ListNodes n s' nodes := by
  have hnext := h.next head hhead
  rw [Sched.nextOf] at hnext
  unfold Mtask.moveSmallestBody at hbody
  cases hcur : (s.lnode head).next with
  | none =>
      simp only [hcur, Option.some.injEq] at hbody
      exact hbody ▸ h
  | some cur =>
      rw [hcur] at hnext
      simp only [hcur] at hbody
      obtain ⟨⟨prev, last⟩, hloop, hbody⟩ := Option.bind_eq_some_iff.mp hbody
      have hcurMem : cur ∈ nodes := hnext cur rfl
      obtain ⟨hprev, hlast⟩ := h.moveSmallestLoop (h.prev cur hcurMem) hnext hloop
      cases last with
      | none =>
          obtain ⟨p, hp, rfl⟩ := Option.map_eq_some_iff.mp hbody
          exact (((h.setListNext (among hhead) p).setListNext among_none head).setListPrev hprev
            head).setHead hnext
      | some last =>
          have hlastMem : last ∈ nodes := hlast last rfl
          simp only at hbody
          split at hbody
          · obtain ⟨p, hp, hbody⟩ := Option.bind_eq_some_iff.mp hbody
            obtain ⟨q, hq, rfl⟩ := Option.map_eq_some_iff.mp hbody
            obtain rfl := Option.some.inj hq
            have h₁ := (h.setListNext (among hhead) p).setListNext (among hlastMem) head
            have h₂ := h₁.setListPrev (h₁.prev last hlastMem) head
            exact ((h₂.setListPrev (among hhead) last).setListPrev among_none _).setHead hnext
          · cases hbody
            exact h

/-- The loop of `cpu_tree_list_move_left` ends at a node of the list. -/
theorem moveLeftLoop {cnt : Nat} {r : Option Nat} (h : ListNodes n s nodes) (hv : Among nodes v)
    (hloop : moveLeftLoop s cnt fuel v = some r) : Among nodes r := by
  induction fuel generalizing v with
  | zero => cases hloop
  | succ fuel ih =>
      cases v with
      | none =>
          obtain rfl := Option.some.inj hloop
          exact hv
      | some cur =>
          rw [Mtask.moveLeftLoop] at hloop
          split at hloop
          · exact ih (h.prev cur (hv cur rfl)) hloop
          · obtain rfl := Option.some.inj hloop
            exact hv

theorem unlinkLnode (h : ListNodes n s nodes) (hl : l ∈ nodes) (prev : Nat) :
    ListNodes n (unlinkLnode s l prev) nodes := by
  have h₁ := h.setListNext (h.next l hl) prev
  unfold Mtask.unlinkLnode
  dsimp only
  split
  · exact h₁
  · exact h₁.setListPrev (h₁.prev l hl) _

theorem moveLeftBody (h : ListNodes n s nodes) (hc : c < n)
    (hbody : moveLeftBody fuel s c = some s') : ListNodes n s' nodes := by
  have hl := h.ptr c hc
  have hprevs := h.prev _ hl
  rw [Sched.prevOf] at hprevs
  unfold Mtask.moveLeftBody at hbody
  cases hprev : (s.lnode (s.cpuTrees c).listPtr).prev with
  | none =>
      simp only [hprev, Option.some.injEq] at hbody
      exact hbody ▸ h
  | some prev =>
      rw [hprev] at hprevs
      simp only [hprev] at hbody
      have h₁ := h.unlinkLnode hl prev
      obtain ⟨cur, hloop, hbody⟩ := Option.bind_eq_some_iff.mp hbody
      have hcur := h.moveLeftLoop hprevs hloop
      cases cur with
      | none =>
          obtain ⟨first, hfirst, rfl⟩ := Option.map_eq_some_iff.mp hbody
          exact (((h₁.setListNext h₁.head _).setListPrev among_none _).setListPrev (among hl)
            first).setHead (among hl)
      | some cur =>
          have hcurMem : cur ∈ nodes := hcur cur rfl
          simp only at hbody
          split at hbody
          · obtain rfl := Option.some.inj hbody
            have h₂ := (h₁.setListNext (h₁.next cur hcurMem) (s.cpuTrees c).listPtr).setListPrev
              (among hcurMem) (s.cpuTrees c).listPtr
            split
            · exact h₂.setListNext (among hl) cur
            · exact (h₂.setListPrev (among hl) _).setListNext (among hl) cur
          · cases hbody
            exact h

end ListNodes

theorem Linked.listNodes {cells : List Nat} (h : Linked n s cells) : ListNodes n s cells := by
  refine ⟨fun a ha => (h.tree ha).1, fun a ha x hx => ?_, fun a ha x hx => ?_, fun x hx => ?_,
    fun i hi => h.mem hi⟩
  · obtain ⟨left, right, rfl⟩ := List.append_of_mem ha
    rw [Segment.next_of_append h.links, Option.or_none] at hx
    simp [List.mem_of_mem_head? hx]
  · obtain ⟨left, right, rfl⟩ := List.append_of_mem ha
    rw [Segment.prev_of_append h.links, Option.or_none] at hx
    simp [List.mem_of_getLast? hx]
  · rw [h.head] at hx
    exact List.mem_of_mem_head? hx

end ListNodes

/-- `THREAD_FLAG_SLEEPING` -/
def threadFlagSleeping : Nat := 1

/-- The `flags` of the threads: `scheduler_sleep_thread` sets one, nothing clears it. -/
def LoadEvent.flagsAfter (flags : Nat → Nat) : LoadEvent → Nat → Nat
  | sleep th _ _ => Function.update flags th (flags th ||| threadFlagSleeping)
  | _ => flags

def IsSleeping (flags : Nat → Nat) (th : Nat) : Prop := flags th &&& threadFlagSleeping ≠ 0

/-- Runs from `scheduler_init`, with no thread flagged, of steps that are `ok`. -/
inductive HandleRun (env : SchedEnv) (ok : Sched → LoadEvent → Prop) :
    LoadState → (Nat → Nat) → Prop
  | init (s : Sched) (blocks : ListBlocks env s) (flags : Nat → Nat)
      (clear : ∀ th, ¬IsSleeping flags th) :
      HandleRun env ok ⟨schedulerInit env s, [], [], .idle⟩ flags
  | step {x y : LoadState} {e : LoadEvent} {flags : Nat → Nat} (run : HandleRun env ok x flags)
      (block : e.FreshNode env x.sched) (isOk : ok x.sched e) (step : LoadStep env x e y) :
      HandleRun env ok y (e.flagsAfter flags)

/-- Deletions are safe, a switch frees the node it deletes, and nobody is woken. -/
def LoadEvent.Keeps (s : Sched) : LoadEvent → Prop
  | queue _ => True
  | dequeue th => RemoveSafe s th
  | sleep th _ _ => RemoveSafe s th
  | reset _ => True
  | wake _ _ => False
  | enter _ _ => True
  | give c => ∀ root, (s.cpuTrees c).root = some root → RemoveSafe s (s.node root).item
  | leave c _ passed _ => (s.cpuTrees c).timeSlice ≤ passed → SwitchClean s c

/--
A queued thread is on one node, its `hndl`, of one tree, its `tree`; the counts
are those of the nodes; the flagged threads are those in the sleep queues.
-/
def Bookkept (n : Nat) (s : Sched) (live : List Nat) (flags : Nat → Nat) : Prop :=
  (∃ cells : Nat → List Nat,
    (∀ i < n, HoldsCells (s.tree i) (cells i) ∧ (s.cpuTrees i).threadCnt = (cells i).length) ∧
    ∀ th ∈ live, (s.thread th).tree < n ∧ (s.thread th).hndl ∈ cells (s.thread th).tree ∧
      ∀ i < n, ∀ a ∈ cells i, (s.node a).item = th ↔
        i = (s.thread th).tree ∧ a = (s.thread th).hndl) ∧
  ∀ th, IsSleeping flags th ↔ ∃ i < n, th ∈ (s.sleepPqueue i).items

/-- The CPU that gives jobs away is one of `n`. -/
def Phase.Valid (n : Nat) : Phase → Prop
  | idle => True
  | giving c _ => c < n

structure HandleInv (env : SchedEnv) (x : LoadState) (flags : Nat → Nat) : Prop where
  placed : Placed env x.sched x.live x.asleep
  nodes : ∃ nodes, ListNodes env.coreNum x.sched nodes
  flags : ∀ th, IsSleeping flags th ↔ th ∈ x.asleep
  valid : x.phase.Valid env.coreNum

section Steps

theorem isSleeping_update (flags : Nat → Nat) (th x : Nat) :
    IsSleeping (Function.update flags th (flags th ||| threadFlagSleeping)) x ↔
      x = th ∨ IsSleeping flags x := by
  unfold IsSleeping
  by_cases hx : x = th
  · subst hx
    have hbit : (flags x ||| 1) &&& 1 = 1 := by
      rw [Nat.and_or_distrib_right]
      have hle : flags x &&& 1 ≤ 1 := Nat.and_le_right
      interval_cases h : flags x &&& 1 <;> rfl
    simp [threadFlagSleeping, hbit]
  · simp [hx]

theorem ListNodes.head_lt (h : ListNodes n s nodes) (head : Nat) (hhead : s.cpuTreeList = some head) :
    (s.lnode head).tree < n := h.tree head (h.head head hhead)

theorem ListNodes.queue (h : ListNodes n s nodes)
    (hqueue : schedulerQueueThread env fuel s th = some s') : ListNodes n s' nodes := by
  obtain ⟨head, s₁, s₂, core, hhead, hjoined, hbody, rfl⟩ := schedulerQueueThread_parts hqueue
  exact ((h.congr hjoined.list).moveSmallestBody (h.head head hhead) hbody).congr
    (startCore_frame env s₂ core).1

theorem ListNodes.remove {s₁ s₂ : Sched} (h : ListNodes n s nodes) (hc : c < n)
    (hrem : threadTreeRemove fuel s th = some s₁) (hmove : cpuTreeListMoveLeft fuel s₁ c = some s₂) :
    ListNodes n s₂ nodes := by
  obtain ⟨s₃, hlock, hmove⟩ := Option.bind_eq_some_iff.mp hmove
  obtain ⟨s₄, hbody, rfl⟩ := Option.map_eq_some_iff.mp hmove
  have hlist := (threadTreeRemove_parts hrem).list.trans (lockList_frame hlock).1
  exact ((h.congr hlist).moveLeftBody hc hbody).congr ⟨rfl, rfl, fun _ => rfl⟩

theorem ListNodes.dequeue (h : ListNodes n s nodes) (hc : (s.thread th).tree < n)
    (hd : schedulerDequeueThread fuel s th = some s') : ListNodes n s' nodes := by
  obtain ⟨s₁, s₂, hleft, hbody, rfl⟩ := schedulerDequeueThread_parts hd
  exact ((h.congr hleft.list).moveLeftBody hc hbody).congr ⟨rfl, rfl, fun _ => rfl⟩

theorem ListNodes.sleep {timeNs timerVal : Nat} (h : ListNodes n s nodes)
    (hc : (s.thread th).tree < n)
    (hsleep : schedulerSleepThread env fuel s th timeNs timerVal = some s') :
    ListNodes n s' nodes := by
  obtain ⟨s₂, hd, hsleep⟩ := Option.bind_eq_some_iff.mp hsleep
  dsimp only at hsleep
  split at hsleep
  · cases hsleep
  obtain ⟨q, -, rfl⟩ := Option.map_eq_some_iff.mp hsleep
  have hset := SameLoad.setThread s th (setSleep env s th timeNs timerVal) rfl rfl
  have hnodes := (h.congr hset.list).dequeue (by rw [hset.trees.tree]; exact hc) hd
  exact hnodes.congr ⟨rfl, rfl, fun _ => rfl⟩

theorem HandleInv.give {flags : Nat → Nat} {k : Nat} (block : (LoadEvent.give c).FreshNode env s)
    (h : HandleInv env ⟨s, live, asleep, .giving c (k + 1)⟩ flags)
    (hsafe : LoadEvent.Keeps s (.give c)) (hgive : giveJobs env fuel c 1 s = some s') :
    HandleInv env ⟨s', live, asleep, .giving c k⟩ flags := by
  have hplaced : Placed env s live asleep := h.placed
  obtain ⟨-, ⟨nodes, hnodes⟩, hflags, hcn⟩ := h
  obtain ⟨root, s₁, s₂, s₃, hroot, hrem, hmove, hqueue, hgive⟩ := giveJobs_parts hgive
  obtain rfl : s₃ = s' := Option.some.inj hgive
  obtain ⟨hmem, htree⟩ := hplaced.root_item hcn hroot
  have hmove' : cpuTreeListMoveLeft fuel s₁ (s.thread (s.node root).item).tree = some s₂ := by
    rw [htree]
    exact hmove
  obtain ⟨hremoved, -⟩ := hplaced.remove hmem (hsafe root hroot) hrem (.refl s₁) hmove'
  have hnodes₂ := hnodes.remove hcn hrem hmove
  have hperm := List.perm_cons_erase hmem
  have hlen := hperm.length_eq
  rw [List.length_cons] at hlen
  have hroom := hplaced.room
  have hqueued := hremoved.queue (block.after_move hroot hrem hmove) hplaced.queued.not_mem_erase (fun ha => hplaced.apart _ ha hmem)
    (by omega) hnodes₂.head_lt hqueue
  exact ⟨hqueued.perm hperm, ⟨nodes, hnodes₂.queue hqueue⟩, hflags, hcn⟩

end Steps

theorem LoadStep.handles {x y : LoadState} {e : LoadEvent} {flags : Nat → Nat}
    (step : LoadStep env x e y) (block : e.FreshNode env x.sched) (isOk : e.Keeps x.sched)
    (h : HandleInv env x flags) : HandleInv env y (e.flagsAfter flags) := by
  obtain ⟨hplaced, ⟨nodes, hnodes⟩, hflags, hvalid⟩ := h
  cases step with
  | queue fresh awake room returns =>
      obtain ⟨fuel, hfuel⟩ := returns
      exact ⟨hplaced.queue block fresh awake room hnodes.head_lt (hfuel fuel le_rfl),
        ⟨nodes, hnodes.queue (hfuel fuel le_rfl)⟩, hflags, trivial⟩
  | dequeue queued returns =>
      obtain ⟨fuel, hfuel⟩ := returns
      exact ⟨(hplaced.dequeue queued isOk (hfuel fuel le_rfl)).1,
        ⟨nodes, hnodes.dequeue (hplaced.tree _ queued) (hfuel fuel le_rfl)⟩, hflags, trivial⟩
  | @sleep s s' live asleep th timeNs timerVal queued returns =>
      obtain ⟨fuel, hfuel⟩ := returns
      refine ⟨hplaced.sleep queued isOk (hfuel fuel le_rfl),
        ⟨nodes, hnodes.sleep (hplaced.tree _ queued) (hfuel fuel le_rfl)⟩, fun x => ?_, trivial⟩
      rw [LoadEvent.flagsAfter, isSleeping_update, hflags, List.mem_cons]
  | reset s live asleep c =>
      have hsame := SameLoad.resetOverflow s c
      exact ⟨hplaced.congr hsame, ⟨nodes, hnodes.congr hsame.list⟩, hflags, trivial⟩
  | wake cpu sleeper due returns => exact isOk.elim
  | enter cpu lock amount =>
      have hsame := SameLoad.lockTree lock
      exact ⟨hplaced.congr hsame, ⟨nodes, hnodes.congr hsame.list⟩, hflags, cpu⟩
  | give returns =>
      obtain ⟨fuel, hfuel⟩ := returns
      exact HandleInv.give block ⟨hplaced, ⟨nodes, hnodes⟩, hflags, hvalid⟩ isOk (hfuel fuel le_rfl)
  | leave gave returns =>
      obtain ⟨fuel, hfuel⟩ := returns
      have hend := hfuel fuel le_rfl
      exact ⟨hplaced.leave hvalid isOk hend, ⟨nodes, hnodes.congr (endAdvance_frame hend).1⟩, hflags,
        trivial⟩

theorem HandleRun.inv {x : LoadState} {flags : Nat → Nat}
    (run : HandleRun env LoadEvent.Keeps x flags) : HandleInv env x flags := by
  induction run with
  | init s blocks flags clear =>
      have hinit := loadInv_init s blocks
      obtain ⟨cells, hl, -⟩ := hinit.list.sorted
      exact ⟨hinit.placed, ⟨cells, hl.listNodes⟩, fun th => by simp [clear th], trivial⟩
  | step _ block isOk step ih => exact step.handles block isOk ih

/-- The books are right after every run whose steps keep them so. -/
theorem handleRun_bookkept {x : LoadState} {flags : Nat → Nat}
    (run : HandleRun env LoadEvent.Keeps x flags) :
    Bookkept env.coreNum x.sched x.live flags := by
  obtain ⟨hplaced, -, hflags, -⟩ := run.inv
  obtain ⟨cells, htrees⟩ := hplaced.trees
  refine ⟨⟨cells, fun i hi => ⟨htrees.holds i hi, ?_⟩, fun th hth => ?_⟩, fun th => ?_⟩
  · have hlen := (htrees.threads i hi).length_eq
    rw [List.length_map] at hlen
    rw [hplaced.cnt i hi, hlen, List.countP_eq_length_filter]
  · have hcn := hplaced.tree th hth
    obtain ⟨hmem, hitem⟩ := htrees.handle hth hcn
    refine ⟨hcn, hmem, fun i hi a ha => ⟨fun heq => ?_, ?_⟩⟩
    · have htree := (htrees.item_mem hi ha).2
      have hhndl := htrees.hndl i hi a ha
      have hhndl' : (x.sched.thread (x.sched.node a).item).hndl = a := hhndl
      rw [heq] at htree hhndl'
      exact ⟨htree.symm, hhndl'.symm⟩
    · rintro ⟨-, rfl⟩
      exact hitem
  · rw [hflags]
    constructor
    · intro hmem
      have hhome := hplaced.home th hmem
      exact ⟨_, hhome, (hplaced.items _ hhome).mem_iff.mpr (by simpa using hmem)⟩
    · rintro ⟨i, hi, hmem⟩
      exact (List.mem_filter.mp ((hplaced.items i hi).mem_iff.mp hmem)).1

section Examples

/-- `LoadEvent.Keeps`, read off the trees. -/
def keepsCheck (fuel : Nat) (s : Sched) : LoadEvent → Bool
  | .dequeue th => removeSafeCheck fuel s th
  | .sleep th _ _ => removeSafeCheck fuel s th
  | .wake _ _ => false
  | .give c => ((s.cpuTrees c).root).all fun root => removeSafeCheck fuel s (s.node root).item
  | .leave c _ passed _ => !decide ((s.cpuTrees c).timeSlice ≤ passed) || switchCleanCheck fuel s c
  | _ => true

theorem keeps_of_check {e : LoadEvent} (h : keepsCheck fuel s e = true) : e.Keeps s := by
  cases e with
  | dequeue th => exact removeSafe_of_check h
  | sleep th timeNs timerVal => exact removeSafe_of_check h
  | wake c timerVal => cases h
  | give c =>
      intro root hroot
      simp only [keepsCheck, hroot, Option.all_some] at h
      exact removeSafe_of_check h
  | leave c timerVal passed last =>
      intro hslice
      simp only [keepsCheck, hslice, decide_true, Bool.not_true, Bool.false_or] at h
      exact switchClean_of_check h
  | queue th => trivial
  | reset c => trivial
  | enter c timerVal => trivial

theorem handleRun_of_steps {ok : Sched → LoadEvent → Prop} {check : Nat → Sched → LoadEvent → Bool}
    {flags : Nat → Nat} (hok : ∀ s e, check fuel s e = true → ok s e) (events : List LoadEvent)
    {x y : LoadState} (run : HandleRun env ok x flags)
    (hy : events.foldlM (checkedStep env check fuel) x = some y) :
    HandleRun env ok y (events.foldl (fun flags e => e.flagsAfter flags) flags) := by
  induction events generalizing x flags with
  | nil =>
      obtain rfl : x = y := Option.some.inj hy
      exact run
  | cons e events ih =>
      rw [List.foldlM_cons] at hy
      obtain ⟨x₁, hstep, hy⟩ := Option.bind_eq_some_iff.mp hy
      obtain ⟨block, isOk, step⟩ := checkedStep_sound hstep
      exact ih (run.step block (hok _ _ isOk) step) hy

/-- One CPU, and a `kmalloc` that gives the node of thread 2 out again. -/
def oneReusing : SchedEnv := ⟨fun k => if k = 4 then 102 else 100 + k, 1, 1, fun _ => true⟩

theorem oneReusing_blocks : ListBlocks oneReusing blankSched :=
  fun i hi j hj _ => by
    have hi : i < 1 := hi
    have hj : j < 1 := hj
    omega

/-- Three threads are queued, the timer switches, one thread goes and another one comes for it, and
one is put to sleep. -/
def cleanEvents : List LoadEvent :=
  [.queue 1, .queue 2, .queue 3, .enter 0 50000000, .leave 0 50000000 50000000 0, .dequeue 2,
    .queue 4, .sleep 3 100 50000100]

theorem cleanEvents_run :
    (cleanEvents.foldlM (checkedStep oneReusing keepsCheck 20)
        ⟨schedulerInit oneReusing blankSched, [], [], .idle⟩).map
      (fun x => decide (x.live = [4, 1] ∧ x.asleep = [3] ∧ x.phase = .idle ∧
        (x.sched.thread 4).hndl = 102)) = some true := by decide +kernel

theorem handleRun_bookkept_cleanEvents : ∃ s,
    HandleRun oneReusing LoadEvent.Keeps ⟨s, [4, 1], [3], .idle⟩
        (Function.update (fun _ => 0) 3 threadFlagSleeping) ∧
      (s.thread 4).hndl = 102 ∧
      Bookkept 1 s [4, 1] (Function.update (fun _ => 0) 3 threadFlagSleeping) := by
  obtain ⟨⟨s, live, asleep, phase⟩, hevents, hfacts⟩ := Option.map_eq_some_iff.mp cleanEvents_run
  obtain ⟨rfl, rfl, rfl, hhndl⟩ := of_decide_eq_true hfacts
  have hrun : HandleRun oneReusing LoadEvent.Keeps ⟨s, [4, 1], [3], .idle⟩
      (Function.update (fun _ => 0) 3 threadFlagSleeping) :=
    handleRun_of_steps (fun _ _ => keeps_of_check) cleanEvents
      (.init blankSched oneReusing_blocks (fun _ => 0) fun _ => by simp [IsSleeping]) hevents
  exact ⟨s, hrun, hhndl, handleRun_bookkept hrun⟩

/-- Two threads are queued on a single CPU, and the timer switches to the first one. -/
def switchAtRoot : List LoadEvent :=
  [.queue 1, .queue 2, .enter 0 50000000, .leave 0 50000000 50000000 0]

theorem switchAtRoot_handle :
    (switchAtRoot.foldlM (checkedStep oneReusing (fun _ _ _ => true) 8)
        ⟨schedulerInit oneReusing blankSched, [], [], .idle⟩).map
      (fun x => decide (x.live = [2, 1] ∧ x.asleep = [] ∧ x.phase = .idle ∧
        (x.sched.node (x.sched.thread 1).hndl).item = 2)) = some true := by decide +kernel

/-- After this switch the handle of thread 1 is the node of thread 2. -/
theorem handleRun_swapped : ∃ s,
    HandleRun oneReusing (fun _ _ => True) ⟨s, [2, 1], [], .idle⟩ (fun _ => 0) ∧
      (s.node (s.thread 1).hndl).item = 2 ∧ ¬Bookkept 1 s [2, 1] fun _ => 0 := by
  obtain ⟨⟨s, live, asleep, phase⟩, hevents, hfacts⟩ := Option.map_eq_some_iff.mp switchAtRoot_handle
  obtain ⟨rfl, rfl, rfl, hitem⟩ := of_decide_eq_true hfacts
  have hrun : HandleRun oneReusing (fun _ _ => True) ⟨s, [2, 1], [], .idle⟩ (fun _ => 0) :=
    handleRun_of_steps (fun _ _ _ => trivial) switchAtRoot
      (.init blankSched oneReusing_blocks (fun _ => 0) fun _ => by simp [IsSleeping]) hevents
  refine ⟨s, hrun, hitem, ?_⟩
  rintro ⟨⟨cells, -, hth⟩, -⟩
  obtain ⟨hcn, hmem, honly⟩ := hth 1 (by simp)
  have hone := (honly _ hcn _ hmem).mpr ⟨rfl, rfl⟩
  have htwo : (s.node (s.thread 1).hndl).item = 2 := hitem
  rw [htwo] at hone
  cases hone

end Examples

end UntitledOs.Mtask
