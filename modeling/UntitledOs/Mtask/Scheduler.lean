import UntitledOs.RbTree.Delete
import UntitledOs.Mtask.Thread

/-!
# The scheduler

`mtask/scheduler.c` over the thread trees of all CPUs.  The HPET counter and the
number of the running CPU are arguments of the calls that read them.  Blocks
come from `kmalloc`, a function of how many were handed out before, which may
give a block again once it was freed; of what is printed to the UART only the
walk over the list is left.

`none` is a call that does not return: it follows a null pointer, divides by
zero, takes a lock that is held, or a loop takes more than `fuel` rounds.
-/

namespace UntitledOs.Mtask

open UntitledOs.Lib UntitledOs.RbTree

/-- `scheduler_latency`, in milliseconds. -/
def schedulerLatency : Nat := 48

/-- `min_granularity`, which is `MTASK_SWITCH_TIMER_TIME` -/
def minGranularity : Nat := 10

def defaultWeight : Nat := 1024

/-- `task_give_delay`, in nanoseconds. -/
def taskGiveDelay : Nat := 1000000 * 500

/-- `task_give_thres`, in percents of the task count. -/
def taskGiveThres : Nat := 15

def taskGiveThresMin : Nat := 1

/-- What the scheduler finds around it. -/
structure SchedEnv where
  /-- the block that the `k`-th call gets -/
  kmalloc : Nat → Nat
  coreNum : Nat
  timerResNs : Nat
  /-- `core_info[i].flags & MTASK_CORE_FLAG_BSP` -/
  isBsp : Nat → Bool

structure ThreadTree where
  root : Option Nat
  threadCnt : Nat
  timeSlice : Nat
  cpuNum : Nat
  lastGiveTime : Nat
  listPtr : Nat
  lock : Bool
  deriving DecidableEq, Repr

/-- `cpu_tree_lnode`; the tree is an index into `cpu_trees`. -/
structure CpuTreeLnode where
  tree : Nat
  next : Option Nat
  prev : Option Nat
  deriving DecidableEq, Repr

structure Sched where
  thread : Threads
  /-- `thread_tree_node`s, whose item is `thr` -/
  node : Nat → TreeNode Nat
  cpuTrees : Nat → ThreadTree
  lnode : Nat → CpuTreeLnode
  cpuTreeList : Option Nat
  cpuTreeListLock : Bool
  sleepPqueue : Nat → ThreadPqueue
  prevThreads : Nat → Option Nat
  timerPrevVal : Nat → Nat
  /-- whether `core_info[i].jmp_loc` was set by `ap_jump` -/
  jmpLoc : Nat → Bool
  /-- how many blocks `kmalloc` has handed out -/
  kmallocs : Nat

namespace Sched

def setThread (s : Sched) (th : Nat) (t : Thread) : Sched :=
  { s with thread := Function.update s.thread th t }

def setTree (s : Sched) (cpu : Nat) (t : ThreadTree) : Sched :=
  { s with cpuTrees := Function.update s.cpuTrees cpu t }

def setLnode (s : Sched) (a : Nat) (l : CpuTreeLnode) : Sched :=
  { s with lnode := Function.update s.lnode a l }

def setNode (s : Sched) (a : Nat) (n : TreeNode Nat) : Sched :=
  { s with node := Function.update s.node a n }

def setSleepPqueue (s : Sched) (cpu : Nat) (q : ThreadPqueue) : Sched :=
  { s with sleepPqueue := Function.update s.sleepPqueue cpu q }

def setPrevThread (s : Sched) (cpu : Nat) (th : Option Nat) : Sched :=
  { s with prevThreads := Function.update s.prevThreads cpu th }

def setListNext (s : Sched) (a : Nat) (v : Option Nat) : Sched :=
  s.setLnode a { s.lnode a with next := v }

def setListPrev (s : Sched) (a : Nat) (v : Option Nat) : Sched :=
  s.setLnode a { s.lnode a with prev := v }

/-- `thread_cnt` of the tree on a list node. -/
def cntOf (s : Sched) (a : Nat) : Nat := (s.cpuTrees (s.lnode a).tree).threadCnt

/-- `spinlock_lock(&tree->lock)` -/
def lockTree (s : Sched) (cpu : Nat) : Option Sched :=
  if (s.cpuTrees cpu).lock then none
  else some (s.setTree cpu { s.cpuTrees cpu with lock := true })

/-- `spinlock_unlock(&tree->lock)` -/
def unlockTree (s : Sched) (cpu : Nat) : Sched :=
  s.setTree cpu { s.cpuTrees cpu with lock := false }

/-- `spinlock_lock(&cpu_tree_list_lock)` -/
def lockList (s : Sched) : Option Sched :=
  if s.cpuTreeListLock then none else some { s with cpuTreeListLock := true }

/-- `spinlock_unlock(&cpu_tree_list_lock)` -/
def unlockList (s : Sched) : Sched := { s with cpuTreeListLock := false }

/-- The tree of one CPU as the tree code sees it. -/
def tree (s : Sched) (cpu : Nat) : Tree Nat Threads :=
  ⟨s.node, (s.cpuTrees cpu).root, s.thread⟩

def putTree (s : Sched) (cpu : Nat) (t : Tree Nat Threads) : Sched :=
  { s.setTree cpu { s.cpuTrees cpu with root := t.root } with node := t.node, thread := t.ext }

end Sched

/-- `n->thr->vruntime < root->thr->vruntime`, and `thr->hndl = n`. -/
def threadTreeKind : TreeKind Nat Threads where
  less ths a b := (ths a).vruntime < (ths b).vruntime
  moved th n ths := Function.update ths th { ths th with hndl := n }
  stored := id

/-- `thread_tree_insert` -/
def threadTreeInsert (fuel : Nat) (s : Sched) (cpu n : Nat) : Option Sched :=
  ((s.tree cpu).insert threadTreeKind fuel n).map (s.putTree cpu)

/-- `thread_tree_delete` -/
def threadTreeDelete (fuel : Nat) (s : Sched) (cpu n : Nat) : Option (Sched × Nat) :=
  ((s.tree cpu).delete threadTreeKind fuel n).map fun r => (s.putTree cpu r.1, r.2)

/-- The loop of `print_cpu_tree_list`: on a list with a cycle it does not end. -/
def printCpuTreeListLoop (s : Sched) : Nat → Option Nat → Option Unit
  | 0, _ => none
  | _ + 1, none => some ()
  | fuel + 1, some cur => printCpuTreeListLoop s fuel (s.lnode cur).next

/-- `print_cpu_tree_list` -/
def printCpuTreeList (fuel : Nat) (s : Sched) : Option Sched :=
  (printCpuTreeListLoop s fuel s.cpuTreeList).map fun _ => s

/-- The list pointer of `new_lnode` goes in front of `cpu_tree_list`. -/
def schedulerInitCpu (env : SchedEnv) (s : Sched) (i : Nat) : Sched :=
  let lnode := env.kmalloc s.kmallocs
  let t : ThreadTree :=
    { s.cpuTrees i with threadCnt := 0, timeSlice := 0, root := none, cpuNum := i,
                        lock := false, listPtr := lnode }
  let s := { s.setTree i t with kmallocs := s.kmallocs + 1 }
  let s := s.setLnode lnode ⟨i, s.cpuTreeList, none⟩
  let s := match s.cpuTreeList with
    | none => s
    | some head => s.setListPrev head (some lnode)
  { s.setSleepPqueue i ThreadPqueue.init with cpuTreeList := some lnode }

/-- `scheduler_init`, over whatever the memory held before. -/
def schedulerInit (env : SchedEnv) (s : Sched) : Sched :=
  let s := (List.range env.coreNum).foldl (schedulerInitCpu env) { s with cpuTreeList := none }
  let s := { s with cpuTreeListLock := false }
  (List.range env.coreNum).foldl (fun s i => s.setPrevThread i none) s

/-- `sync_timers` -/
def syncTimers (env : SchedEnv) (timerVal : Nat) (s : Sched) : Sched :=
  let delay := max (taskGiveDelay / env.coreNum) (schedulerLatency * 10)
  (List.range env.coreNum).foldl
    (fun s i =>
      { s.setTree i { s.cpuTrees i with lastGiveTime := sub64 timerVal (u64 (delay * (i + 1))) } with
        timerPrevVal := Function.update s.timerPrevVal i timerVal }) s

/-- The loop of `cpu_tree_list_move_smallest`: the final `prev` and `cur`. -/
def moveSmallestLoop (s : Sched) (head : Nat) : Nat → Option Nat → Option Nat →
    Option (Option Nat × Option Nat)
  | 0, _, _ => none
  | _ + 1, prev, none => some (prev, none)
  | fuel + 1, prev, some cur =>
      if s.cntOf head > s.cntOf cur then
        moveSmallestLoop s head fuel (some cur) (s.lnode cur).next
      else some (prev, some cur)

/-- The body of `cpu_tree_list_move_smallest` between lock and unlock. -/
def moveSmallestBody (fuel : Nat) (s : Sched) (head : Nat) : Option Sched :=
  let nextHead := (s.lnode head).next
  match (s.lnode head).next with
  | none => some s
  | some cur =>
      (moveSmallestLoop s head fuel (s.lnode cur).prev (some cur)).bind fun
        | (prev, none) =>
            prev.map fun p =>
              let s := ((s.setListNext p (some head)).setListNext head none).setListPrev head prev
              { s with cpuTreeList := nextHead }
        | (_, some cur) =>
            if (s.lnode cur).prev ≠ some head then
              (s.lnode cur).prev.bind fun p =>
                let s := (s.setListNext p (some head)).setListNext head (some cur)
                let s := s.setListPrev head (s.lnode cur).prev
                let s := s.setListPrev cur (some head)
                nextHead.map fun h => { s.setListPrev h none with cpuTreeList := nextHead }
            else some s

/-- `cpu_tree_list_move_smallest` -/
def cpuTreeListMoveSmallest (fuel : Nat) (s : Sched) : Option Sched :=
  s.lockList.bind fun s => s.cpuTreeList.bind fun head =>
    (moveSmallestBody fuel s head).map Sched.unlockList

/-- The loop of `cpu_tree_list_move_left`. -/
def moveLeftLoop (s : Sched) (cnt : Nat) : Nat → Option Nat → Option (Option Nat)
  | 0, _ => none
  | _ + 1, none => some none
  | fuel + 1, some cur =>
      if cnt < s.cntOf cur then moveLeftLoop s cnt fuel (s.lnode cur).prev
      else some (some cur)

/-- `tree->list_ptr` is taken out from between its neighbours, `prev` being one. -/
def unlinkLnode (s : Sched) (l prev : Nat) : Sched :=
  let s := s.setListNext prev (s.lnode l).next
  match (s.lnode l).next with
  | none => s
  | some next => s.setListPrev next (s.lnode l).prev

/-- The body of `cpu_tree_list_move_left` between lock and unlock. -/
def moveLeftBody (fuel : Nat) (s : Sched) (cpu : Nat) : Option Sched :=
  let l := (s.cpuTrees cpu).listPtr
  match (s.lnode l).prev with
  | none => some s
  | some prev =>
      (moveLeftLoop s (s.cpuTrees cpu).threadCnt fuel (some prev)).bind fun
        | none =>
            let s := unlinkLnode s l prev
            let s := (s.setListNext l s.cpuTreeList).setListPrev l none
            s.cpuTreeList.map fun head =>
              { s.setListPrev head (some l) with cpuTreeList := some l }
        | some cur =>
            if (s.lnode cur).prev ≠ s.cpuTreeList then
              let s := unlinkLnode s l prev
              let s := (s.setListNext l (s.lnode cur).next).setListPrev l (some cur)
              let s := match (s.lnode cur).next with
                | none => s
                | some next => s.setListPrev next (some l)
              some (s.setListNext cur (some l))
            else some s

/-- `cpu_tree_list_move_left` -/
def cpuTreeListMoveLeft (fuel : Nat) (s : Sched) (cpu : Nat) : Option Sched :=
  s.lockList.bind fun s => (moveLeftBody fuel s cpu).map Sched.unlockList

/-- `get_min_vruntime` -/
def getMinVruntime (fuel : Nat) (s : Sched) (cpu : Nat) : Option Nat :=
  match (s.cpuTrees cpu).root with
  | none => some 0
  | some root =>
      ((s.tree cpu).leftmost fuel root).map fun n => (s.thread ((s.tree cpu).item n)).vruntime

/-- The time slice for a tree of `cnt` threads, in nanoseconds. -/
def timeSliceFor (cnt : Nat) : Nat := max (schedulerLatency / cnt) minGranularity * 1000000

/-- The assignments of `thread_tree_add`, up to the insertion of the new node. -/
def setUpNode (env : SchedEnv) (s : Sched) (cpu th minVruntime : Nat) : Sched :=
  let s := s.setThread th { s.thread th with vruntime := minVruntime }
  let cnt := (s.cpuTrees cpu).threadCnt + 1
  let s := s.setTree cpu { s.cpuTrees cpu with threadCnt := cnt, timeSlice := timeSliceFor cnt }
  let n := env.kmalloc s.kmallocs
  let s := { s.setNode n { s.node n with item := th } with kmallocs := s.kmallocs + 1 }
  s.setThread th { s.thread th with hndl := n, tree := cpu }

/-- `thread_tree_add`, whose first part is `get_min_vruntime` written out. -/
def threadTreeAdd (env : SchedEnv) (fuel : Nat) (s : Sched) (cpu th : Nat) : Option Sched :=
  (getMinVruntime fuel s cpu).bind fun minVruntime =>
    threadTreeInsert fuel (setUpNode env s cpu th minVruntime) cpu (env.kmalloc s.kmallocs)

/-- `thread_tree_remove` -/
def threadTreeRemove (fuel : Nat) (s : Sched) (th : Nat) : Option Sched :=
  let cpu := (s.thread th).tree
  let cnt := sub64 (s.cpuTrees cpu).threadCnt 1
  let s := s.setTree cpu { s.cpuTrees cpu with threadCnt := cnt, timeSlice := timeSliceFor cnt }
  (threadTreeDelete fuel s cpu (s.thread th).hndl).map Prod.fst

/-- `ap_jump(core_i, endless_loop)`, if the core waits for its first job. -/
def startCore (env : SchedEnv) (s : Sched) (core : Nat) : Sched :=
  if env.isBsp core || s.jmpLoc core then s
  else if core < env.coreNum then { s with jmpLoc := Function.update s.jmpLoc core true }
  else s

/-- `scheduler_queue_thread` -/
def schedulerQueueThread (env : SchedEnv) (fuel : Nat) (s : Sched) (th : Nat) : Option Sched :=
  s.cpuTreeList.bind fun head =>
    let cpu := (s.lnode head).tree
    (s.lockTree cpu).bind fun s =>
    (getMinVruntime fuel s cpu).bind fun v =>
    (threadTreeAdd env fuel (s.setThread th { s.thread th with vruntime := v }) cpu th).bind fun s =>
    (cpuTreeListMoveSmallest fuel (s.unlockTree cpu)).bind fun s =>
      printCpuTreeList fuel (startCore env s (s.cpuTrees cpu).cpuNum)

/-- `scheduler_dequeue_thread` -/
def schedulerDequeueThread (fuel : Nat) (s : Sched) (th : Nat) : Option Sched :=
  (s.lockTree (s.thread th).tree).bind fun s =>
  (threadTreeRemove fuel s th).bind fun s =>
  (cpuTreeListMoveLeft fuel (s.unlockTree (s.thread th).tree) (s.thread th).tree).bind
    (printCpuTreeList fuel)

/-- `scheduler_sleep_thread`; the flag it sets is read nowhere. -/
def schedulerSleepThread (env : SchedEnv) (fuel : Nat) (s : Sched) (th timeNs timerVal : Nat) :
    Option Sched :=
  let ticks := timeNs / env.timerResNs
  let s := s.setThread th
    { s.thread th with
        sleepOverflow := if sub64 (2 ^ 64 - 1) ticks < timerVal then 1 else 0
        sleepUntil := u64 (timerVal + ticks) }
  (schedulerDequeueThread fuel s th).bind fun s =>
    let cpu := (s.cpuTrees (s.thread th).tree).cpuNum
    if (s.sleepPqueue cpu).lock then none
    else ((s.sleepPqueue cpu).push fuel s.thread th).map fun q => s.setSleepPqueue cpu q

/-- The wake-up loop of `scheduler_advance_thread_queue`. -/
def wakeSleepers (env : SchedEnv) (lapicId timerVal : Nat) : Nat → Sched → Option Sched
  | 0, _ => none
  | fuel + 1, s =>
      let q := s.sleepPqueue lapicId
      if q.size = 0 then some s
      else if !shouldWakeupNow (s.thread (q.heap 0)) timerVal then some s
      else
        (q.pop fuel s.thread).bind fun (q', th) =>
          (schedulerQueueThread env fuel (s.setSleepPqueue lapicId q') th).bind
            (wakeSleepers env lapicId timerVal fuel)

/-- The loop that gives `amt` jobs away, the root of the tree each time. -/
def giveJobs (env : SchedEnv) (fuel lapicId : Nat) : Nat → Sched → Option Sched
  | 0, s => some s
  | amt + 1, s =>
      (s.cpuTrees lapicId).root.bind fun root =>
        let th := (s.tree lapicId).item root
        (threadTreeRemove fuel s th).bind fun s =>
        (cpuTreeListMoveLeft fuel s lapicId).bind fun s =>
        (schedulerQueueThread env fuel s th).bind (giveJobs env fuel lapicId amt)

/-- The ticks from `last` to `timerVal`, over a wrap of the counter as the source counts them. -/
def timeSince (last timerVal : Nat) : Nat :=
  if last > timerVal then 2 ^ 64 - 1 - last + timerVal else timerVal - last

/-- The give-away step of `scheduler_advance_thread_queue`. -/
def giveAway (env : SchedEnv) (fuel lapicId timerVal : Nat) (s : Sched) : Option Sched :=
  if timeSince (s.cpuTrees lapicId).lastGiveTime timerVal ≥ taskGiveDelay then
    s.cpuTreeList.bind fun head =>
      let cnt := (s.cpuTrees lapicId).threadCnt
      let diff := sub64 cnt (s.cntOf head)
      let thres := max (u64 (cnt * taskGiveThres) / 100) taskGiveThresMin
      (if diff ≥ thres then giveJobs env fuel lapicId (diff / 2) s else some s).map fun s =>
        s.setTree lapicId { s.cpuTrees lapicId with lastGiveTime := timerVal }
  else some s

/-- `time_passed * timer_res_ns * default_weight / weight`, in 64 bits. -/
def vruntimeStep (env : SchedEnv) (timePassed weight : Nat) : Nat :=
  u64 (u64 (timePassed * env.timerResNs) * defaultWeight) / weight

/-- The `vruntime` of `th` grows by the time that passed. -/
def chargeThread (env : SchedEnv) (timePassed : Nat) (s : Sched) (th : Nat) : Sched :=
  let t := s.thread th
  s.setThread th { t with vruntime := u64 (t.vruntime + vruntimeStep env timePassed t.weight) }

/-- The end of a switch to the thread of `rootAddr`. -/
def finishSwitch (s : Sched) (lapicId rootAddr : Nat) : Sched × Option Nat :=
  let s := s.unlockTree lapicId
  let thr := (s.node rootAddr).item
  (s.setPrevThread lapicId (some thr), some thr)

/-- The switch itself: the leftmost thread is charged and put back in. -/
def switchThread (env : SchedEnv) (fuel lapicId timePassed : Nat) (s : Sched) :
    Option (Sched × Option Nat) :=
  match (s.cpuTrees lapicId).root with
  | none => some (s.unlockTree lapicId, none)
  | some root =>
      ((s.tree lapicId).leftmost fuel root).bind fun n =>
        let th := (s.node n).item
        if (s.thread th).weight = 0 then none
        else
          let rootCpy := s.node n
          (threadTreeDelete fuel (chargeThread env timePassed s th) lapicId n).bind fun (s, rootAddr) =>
            (threadTreeInsert fuel (s.setNode rootAddr rootCpy) lapicId rootAddr).map fun s =>
              finishSwitch s lapicId rootAddr

/-- `scheduler_advance_thread_queue` -/
def schedulerAdvanceThreadQueue (env : SchedEnv) (fuel : Nat) (s : Sched)
    (lapicId timerVal : Nat) : Option (Sched × Option Nat) :=
  let passed := timeSince (s.timerPrevVal lapicId) timerVal
  let ths := if s.timerPrevVal lapicId > timerVal then
      (s.sleepPqueue lapicId).resetOverflow s.thread
    else s.thread
  (wakeSleepers env lapicId timerVal fuel { s with thread := ths }).bind fun s =>
  (s.lockTree lapicId).bind fun s =>
  (giveAway env fuel lapicId timerVal s).bind fun s =>
    if passed < (s.cpuTrees lapicId).timeSlice then
      some ((s.setPrevThread lapicId none).unlockTree lapicId, none)
    else
      switchThread env fuel lapicId passed
        { s with timerPrevVal := Function.update s.timerPrevVal lapicId timerVal }

section Fuel

variable (env : SchedEnv) (s : Sched) (cpu th : Nat)

theorem threadTreeInsert_steady (n : Nat) : Steady fun fuel => threadTreeInsert fuel s cpu n :=
  (Tree.insert_steady _ _ _).map _

theorem threadTreeDelete_steady (n : Nat) : Steady fun fuel => threadTreeDelete fuel s cpu n :=
  (Tree.delete_steady _ _ _).map _

theorem getMinVruntime_steady : Steady fun fuel => getMinVruntime fuel s cpu := by
  unfold getMinVruntime
  cases (s.cpuTrees cpu).root with
  | none => exact Steady.const _
  | some root => exact (Tree.leftmost_steady _ _).map _

theorem threadTreeAdd_steady : Steady fun fuel => threadTreeAdd env fuel s cpu th :=
  (getMinVruntime_steady s cpu).bind fun _ => threadTreeInsert_steady _ _ _

theorem threadTreeRemove_steady : Steady fun fuel => threadTreeRemove fuel s th :=
  (threadTreeDelete_steady _ _ _).map _

theorem moveSmallestLoop_steady (head : Nat) (prev cur : Option Nat) :
    Steady fun fuel => moveSmallestLoop s head fuel prev cur := by
  intro fuel
  induction fuel generalizing prev cur with
  | zero => exact Below.none _
  | succ fuel ih =>
      cases cur with
      | none => exact Below.refl _
      | some cur =>
          dsimp only
          unfold moveSmallestLoop
          split
          · exact ih _ _
          · exact Below.refl _

theorem moveSmallestBody_steady (head : Nat) : Steady fun fuel => moveSmallestBody fuel s head := by
  unfold moveSmallestBody
  cases (s.lnode head).next with
  | none => exact Steady.const _
  | some cur => exact (moveSmallestLoop_steady s head _ _).bind fun _ => Steady.const _

theorem cpuTreeListMoveSmallest_steady : Steady fun fuel => cpuTreeListMoveSmallest fuel s :=
  (Steady.const _).bind fun s => (Steady.const _).bind fun head =>
    (moveSmallestBody_steady s head).map _

theorem moveLeftLoop_steady (cnt : Nat) (cur : Option Nat) :
    Steady fun fuel => moveLeftLoop s cnt fuel cur := by
  intro fuel
  induction fuel generalizing cur with
  | zero => exact Below.none _
  | succ fuel ih =>
      cases cur with
      | none => exact Below.refl _
      | some cur =>
          dsimp only
          unfold moveLeftLoop
          split
          · exact ih _
          · exact Below.refl _

theorem moveLeftBody_steady : Steady fun fuel => moveLeftBody fuel s cpu := by
  unfold moveLeftBody
  dsimp only
  cases (s.lnode (s.cpuTrees cpu).listPtr).prev with
  | none => exact Steady.const _
  | some prev => exact (moveLeftLoop_steady s _ _).bind fun _ => Steady.const _

theorem cpuTreeListMoveLeft_steady : Steady fun fuel => cpuTreeListMoveLeft fuel s cpu :=
  (Steady.const _).bind fun s => (moveLeftBody_steady s cpu).map _

theorem printCpuTreeList_steady : Steady fun fuel => printCpuTreeList fuel s := by
  suffices h : ∀ cur, Steady fun fuel => printCpuTreeListLoop s fuel cur from (h _).map _
  intro cur fuel
  induction fuel generalizing cur with
  | zero => exact Below.none _
  | succ fuel ih =>
      cases cur with
      | none => exact Below.refl _
      | some cur => exact ih _

theorem printCpuTreeList_eq {s s' : Sched} {fuel : Nat} (h : printCpuTreeList fuel s = some s') :
    s' = s := by
  obtain ⟨-, -, rfl⟩ := Option.map_eq_some_iff.mp h
  rfl

theorem schedulerQueueThread_steady : Steady fun fuel => schedulerQueueThread env fuel s th :=
  (Steady.const _).bind fun _ => (Steady.const _).bind fun _ =>
    (getMinVruntime_steady _ _).bind fun _ => (threadTreeAdd_steady _ _ _ _).bind fun _ =>
      (cpuTreeListMoveSmallest_steady _).bind fun _ => printCpuTreeList_steady _

theorem schedulerDequeueThread_steady : Steady fun fuel => schedulerDequeueThread fuel s th :=
  (Steady.const _).bind fun _ => (threadTreeRemove_steady _ _).bind fun _ =>
    (cpuTreeListMoveLeft_steady _ _).bind fun _ => printCpuTreeList_steady _

theorem wakeSleepers_steady (timerVal : Nat) :
    Steady fun fuel => wakeSleepers env cpu timerVal fuel s := by
  intro fuel
  induction fuel generalizing s with
  | zero => exact Below.none _
  | succ fuel ih =>
      dsimp only
      unfold wakeSleepers
      dsimp only
      split
      · exact Below.refl _
      split
      · exact Below.refl _
      · exact (ThreadPqueue.pop_steady _ _ fuel).bind fun r =>
          (schedulerQueueThread_steady env _ _ fuel).bind fun s => ih s

theorem giveJobs_steady (amt : Nat) : Steady fun fuel => giveJobs env fuel cpu amt s := by
  induction amt generalizing s with
  | zero => exact Steady.const _
  | succ amt ih =>
      exact (Steady.const _).bind fun _ => (threadTreeRemove_steady _ _).bind fun _ =>
        (cpuTreeListMoveLeft_steady _ _).bind fun _ =>
          (schedulerQueueThread_steady _ _ _).bind fun s => ih s

theorem giveAway_steady (timerVal : Nat) : Steady fun fuel => giveAway env fuel cpu timerVal s := by
  unfold giveAway
  split
  · refine (Steady.const _).bind fun head => ?_
    dsimp only
    split
    · exact (giveJobs_steady _ _ _ _).map _
    · exact Steady.const _
  · exact Steady.const _

theorem switchThread_steady (passed : Nat) : Steady fun fuel => switchThread env fuel cpu passed s := by
  unfold switchThread
  cases (s.cpuTrees cpu).root with
  | none => exact Steady.const _
  | some root =>
      refine (Tree.leftmost_steady _ _).bind fun n => ?_
      dsimp only
      split
      · exact Steady.const _
      · exact (threadTreeDelete_steady _ _ _).bind fun r =>
          (threadTreeInsert_steady _ _ _).map _

theorem schedulerAdvanceThreadQueue_steady (timerVal : Nat) :
    Steady fun fuel => schedulerAdvanceThreadQueue env fuel s cpu timerVal := by
  refine (wakeSleepers_steady env _ _ _).bind fun s => (Steady.const _).bind fun s =>
    (giveAway_steady env s _ _).bind fun s => ?_
  split
  · exact Steady.const _
  · exact switchThread_steady _ _ _ _

end Fuel

end UntitledOs.Mtask
