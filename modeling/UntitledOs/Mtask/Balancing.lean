import Mathlib.Algebra.BigOperators.Group.Finset.Piecewise
import UntitledOs.Mtask.LoadSteps

/-!
# Giving jobs away

As long as the steps are safe, every thread is in one tree, the head of the list
has the fewest threads, and a CPU that gives jobs away has one to give and another
CPU to give it to.
-/

namespace UntitledOs.Mtask

open UntitledOs.Lib UntitledOs.RbTree

variable {env : SchedEnv} {s s' : Sched} {live asleep : List Nat} {cells : Nat → List Nat}
  {th n c i j k fuel timerVal : Nat}

/-- Every thread is where it should be. -/
structure LoadInv (env : SchedEnv) (s : Sched) (live asleep : List Nat) : Prop where
  list : CpuListInv env.coreNum s live
  trees : ∃ cells, TreesHold env.coreNum s live cells
  items : ∀ i < env.coreNum, (s.sleepPqueue i).items.Perm
    (asleep.filter fun x => (s.thread x).tree = i)
  home : ∀ x ∈ asleep, (s.thread x).tree < env.coreNum
  nodup : asleep.Nodup
  apart : ∀ x ∈ asleep, x ∉ live
  room : live.length + asleep.length < 2 ^ 64
  cpuNum : ∀ i < env.coreNum, (s.cpuTrees i).cpuNum = i

/-- Every thread is in the tree or the queue where it should be, whatever the list looks like. -/
structure Placed (env : SchedEnv) (s : Sched) (live asleep : List Nat) : Prop where
  trees : ∃ cells, TreesHold env.coreNum s live cells
  cnt : ∀ i < env.coreNum, (s.cpuTrees i).threadCnt = live.countP fun x => (s.thread x).tree = i
  tree : ∀ x ∈ live, (s.thread x).tree < env.coreNum
  queued : live.Nodup
  items : ∀ i < env.coreNum, (s.sleepPqueue i).items.Perm
    (asleep.filter fun x => (s.thread x).tree = i)
  home : ∀ x ∈ asleep, (s.thread x).tree < env.coreNum
  nodup : asleep.Nodup
  apart : ∀ x ∈ asleep, x ∉ live
  room : live.length + asleep.length < 2 ^ 64
  cpuNum : ∀ i < env.coreNum, (s.cpuTrees i).cpuNum = i

theorem LoadInv.placed (h : LoadInv env s live asleep) : Placed env s live asleep :=
  ⟨h.trees, h.list.cnt, h.list.tree, h.list.nodup, h.items, h.home, h.nodup, h.apart, h.room, h.cpuNum⟩

theorem Placed.loadInv (h : Placed env s live asleep) (hlist : CpuListInv env.coreNum s live) :
    LoadInv env s live asleep :=
  ⟨hlist, h.trees, h.items, h.home, h.nodup, h.apart, h.room, h.cpuNum⟩

/-- A CPU with jobs to give has two threads for each more than some other CPU. -/
def Phase.Right (n : Nat) (s : Sched) : Phase → Prop
  | idle => True
  | giving c k => c < n ∧ (k = 0 ∨ ∃ i < n, i ≠ c ∧
      (s.cpuTrees i).threadCnt + 2 * k ≤ (s.cpuTrees c).threadCnt)

/-- `s'` is `s` apart from locks, times and nodes freed. -/
structure SameLoad (s s' : Sched) : Prop where
  list : SameList s s'
  cnt : ∀ i, (s'.cpuTrees i).threadCnt = (s.cpuTrees i).threadCnt
  trees : KeepsTrees s s'
  pqueue : s'.sleepPqueue = s.sleepPqueue
  cpuNum : ∀ i, (s'.cpuTrees i).cpuNum = (s.cpuTrees i).cpuNum

namespace SameLoad

theorem trans {s₁ s₂ s₃ : Sched} (h : SameLoad s₁ s₂) (h' : SameLoad s₂ s₃) : SameLoad s₁ s₃ :=
  ⟨h.list.trans h'.list, fun i => (h'.cnt i).trans (h.cnt i), h.trees.trans h'.trees,
    h'.pqueue.trans h.pqueue, fun i => (h'.cpuNum i).trans (h.cpuNum i)⟩

theorem refl (s : Sched) : SameLoad s s := ⟨.refl s, fun _ => rfl, .refl s, rfl, fun _ => rfl⟩

theorem lockTree (h : s.lockTree c = some s') : SameLoad s s' := by
  obtain ⟨hlist, hcnt, -⟩ := lockTree_frame h
  exact ⟨hlist, hcnt, .lockTree h, (KeepsSleepers.lockTree h).pqueue, (KeepsSleepers.lockTree h).cpuNum⟩

theorem unlockTree (s : Sched) (c : Nat) : SameLoad s (s.unlockTree c) := by
  obtain ⟨hlist, hcnt⟩ := unlockTree_frame s c
  exact ⟨hlist, hcnt, .unlockTree s c, rfl, (KeepsSleepers.unlockTree s c).cpuNum⟩

theorem lockList (h : s.lockList = some s') : SameLoad s s' := by
  obtain ⟨hlist, hcpu, -⟩ := lockList_frame h
  exact ⟨hlist, fun i => by rw [hcpu], .lockList h, (KeepsSleepers.lockList h).pqueue,
    (KeepsSleepers.lockList h).cpuNum⟩

theorem setThread (s : Sched) (th : Nat) (t : Thread) (htree : t.tree = (s.thread th).tree)
    (hhndl : t.hndl = (s.thread th).hndl) : SameLoad s (s.setThread th t) :=
  ⟨⟨rfl, rfl, fun _ => rfl⟩, fun _ => rfl, .setThread s th t htree hhndl, rfl, fun _ => rfl⟩

/-- The thread lists change in fields that are not their place. -/
theorem setThreads (s : Sched) (ths : Threads) (htree : ∀ x, (ths x).tree = (s.thread x).tree)
    (hhndl : ∀ x, (ths x).hndl = (s.thread x).hndl) : SameLoad s { s with thread := ths } :=
  ⟨⟨rfl, rfl, fun _ => rfl⟩, fun _ => rfl, ⟨rfl, fun _ => rfl, htree, hhndl, rfl⟩, rfl, fun _ => rfl⟩

theorem setLastGiveTime (s : Sched) (c last : Nat) :
    SameLoad s (s.setTree c { s.cpuTrees c with lastGiveTime := last }) := by
  refine ⟨⟨rfl, rfl, fun i => ?_⟩, fun i => ?_, .setTree s c _ rfl, rfl, fun i => ?_⟩ <;>
    by_cases hi : i = c <;> simp [Sched.setTree, hi]

theorem setPrevThread (s : Sched) (c : Nat) (thr : Option Nat) : SameLoad s (s.setPrevThread c thr) :=
  ⟨⟨rfl, rfl, fun _ => rfl⟩, fun _ => rfl, ⟨rfl, fun _ => rfl, fun _ => rfl, fun _ => rfl, rfl⟩, rfl,
    fun _ => rfl⟩

theorem setTimerPrevVal (s : Sched) (v : Nat → Nat) : SameLoad s { s with timerPrevVal := v } :=
  ⟨⟨rfl, rfl, fun _ => rfl⟩, fun _ => rfl, ⟨rfl, fun _ => rfl, fun _ => rfl, fun _ => rfl, rfl⟩, rfl,
    fun _ => rfl⟩

theorem resetOverflow (s : Sched) (c : Nat) :
    SameLoad s { s with thread := (s.sleepPqueue c).resetOverflow s.thread } := by
  refine .setThreads s _ (fun x => ?_) fun x => ?_ <;>
    rw [resetOverflow_apply] <;> split <;> rfl

end SameLoad

theorem leftmost_setExt (t : Tree Nat Threads) (ths : Threads) (a : Nat) :
    (t.setExt ths).leftmost fuel a = t.leftmost fuel a := by
  induction fuel generalizing a with
  | zero => rfl
  | succ fuel ih =>
      rw [Tree.leftmost, Tree.leftmost, Tree.child_setExt]
      cases t.child .left a with
      | none => rfl
      | some l => exact ih l

theorem deleteSafeAny_setExt {t : Tree Nat Threads} {ths : Threads} {a : Nat} :
    DeleteSafeAny threadTreeKind (t.setExt ths) a ↔ DeleteSafeAny threadTreeKind t a := by
  unfold DeleteSafeAny
  simp only [Tree.child_setExt, leftmost_setExt]
  rfl

theorem SameLoad.tree_eq (h : SameLoad s s') (c : Nat) :
    s'.tree c = (s.tree c).setExt s'.thread := by
  rw [Sched.tree, h.trees.node, h.trees.root]
  rfl

theorem SameLoad.removeSafe (h : SameLoad s s') (hsafe : RemoveSafe s th) : RemoveSafe s' th := by
  rw [RemoveSafe, h.trees.tree, h.trees.hndl, h.tree_eq, deleteSafeAny_setExt]
  exact hsafe

theorem SameLoad.dequeueSafe (h : SameLoad s s') (hsafe : DequeueSafe n s th) :
    DequeueSafe n s' th := by
  have hprev : s'.prevOf = s.prevOf := funext fun a => by
    rw [Sched.prevOf, h.list.lnode, Sched.prevOf]
  simpa only [DequeueSafe, h.trees.tree, h.cnt, h.list.listPtr, hprev,
    h.list.cntOf h.cnt] using hsafe

theorem CpuListInv.congr (h : CpuListInv n s live) (hlist : SameList s s')
    (hcnt : ∀ i, (s'.cpuTrees i).threadCnt = (s.cpuTrees i).threadCnt)
    (htree : ∀ x, (s'.thread x).tree = (s.thread x).tree) : CpuListInv n s' live := by
  refine ⟨(hlist.listSorted_iff hcnt).mpr h.sorted, fun i hi => ?_, fun x hx => ?_, h.nodup, h.room⟩
  · rw [hcnt, h.cnt i hi]
    simp only [htree]
  · rw [htree]
    exact h.tree x hx

theorem CpuListInv.perm {live' : List Nat} (h : CpuListInv n s live) (hperm : live'.Perm live) :
    CpuListInv n s live' :=
  ⟨h.sorted, fun i hi => (h.cnt i hi).trans (hperm.countP_eq _).symm,
    fun x hx => h.tree x (hperm.mem_iff.mp hx), hperm.nodup_iff.mpr h.nodup,
    hperm.length_eq ▸ h.room⟩

theorem TreesHold.perm {live' : List Nat} (h : TreesHold n s live cells)
    (hperm : live'.Perm live) : TreesHold n s live' cells :=
  ⟨h.holds, fun i hi => (h.threads i hi).trans (hperm.filter _).symm, h.hndl⟩

theorem CpuListInv.head_least {head : Nat} (h : CpuListInv n s live)
    (hhead : s.cpuTreeList = some head) :
    (s.lnode head).tree < n ∧ ∀ i < n, s.cntOf head ≤ (s.cpuTrees i).threadCnt := by
  obtain ⟨nodes, hl, hsorted⟩ := h.sorted
  obtain ⟨rest, rfl⟩ := List.head?_eq_some_iff.mp (hl.head.symm.trans hhead)
  refine ⟨(hl.tree (by simp)).1, fun i hi => ?_⟩
  rw [← hl.cntOf hi]
  rcases List.mem_cons.mp (hl.mem hi) with hih | hir
  · rw [hih]
  · exact (List.pairwise_cons.mp hsorted).1 _ hir

theorem schedulerQueueThread_cnt (h : schedulerQueueThread env fuel s th = some s') :
    ∃ head, s.cpuTreeList = some head ∧ ∀ i, (s'.cpuTrees i).threadCnt =
      (s.cpuTrees i).threadCnt + if i = (s.lnode head).tree then 1 else 0 := by
  obtain ⟨head, s₁, s₂, core, hhead, hjoined, hbody, rfl⟩ := schedulerQueueThread_parts h
  refine ⟨head, hhead, fun i => ?_⟩
  rw [(startCore_frame env s₂ core).2.1, (moveSmallestBody_onlyList hbody).cpuTrees, hjoined.cnt]

/-- What `scheduler_sleep_thread` writes into the thread. -/
def setSleep (env : SchedEnv) (s : Sched) (th timeNs timerVal : Nat) : Thread :=
  { s.thread th with
    sleepOverflow := if sub64 (2 ^ 64 - 1) (timeNs / env.timerResNs) < timerVal then 1 else 0
    sleepUntil := u64 (timerVal + timeNs / env.timerResNs) }

namespace Placed

theorem congr (h : Placed env s live asleep) (hsame : SameLoad s s') :
    Placed env s' live asleep := by
  obtain ⟨cells, htrees⟩ := h.trees
  have htree := hsame.trees.tree
  refine ⟨⟨cells, htrees.congr hsame.trees⟩, fun i hi => ?_, fun x hx => ?_, h.queued, fun i hi => ?_,
    fun x hx => ?_, h.nodup, h.apart, h.room, fun i hi => ?_⟩
  · rw [hsame.cnt, h.cnt i hi]
    simp only [htree]
  · rw [htree]
    exact h.tree x hx
  · rw [hsame.pqueue]
    simpa only [htree] using h.items i hi
  · rw [htree]
    exact h.home x hx
  · rw [hsame.cpuNum, h.cpuNum i hi]

theorem perm {live' : List Nat} (h : Placed env s live asleep) (hperm : live'.Perm live) :
    Placed env s live' asleep := by
  obtain ⟨cells, htrees⟩ := h.trees
  exact ⟨⟨cells, htrees.perm hperm⟩, fun i hi => (h.cnt i hi).trans (hperm.countP_eq _).symm,
    fun x hx => h.tree x (hperm.mem_iff.mp hx), hperm.nodup_iff.mpr h.queued, h.items, h.home, h.nodup,
    fun x hx hmem => h.apart x hx (hperm.mem_iff.mp hmem), hperm.length_eq ▸ h.room, h.cpuNum⟩

/-- `scheduler_queue_thread` brings a thread to the CPU at the head of the list. -/
theorem queue (h : Placed env s live asleep) (block : FreshBlock env env.coreNum s)
    (fresh : th ∉ live) (awake : th ∉ asleep) (room : live.length + asleep.length + 1 < 2 ^ 64)
    (hn : ∀ head, s.cpuTreeList = some head → (s.lnode head).tree < env.coreNum)
    (hqueue : schedulerQueueThread env fuel s th = some s') :
    Placed env s' (th :: live) asleep := by
  have hkeep := schedulerQueueThread_keeps hqueue
  obtain ⟨head₀, hhead₀, hcnt⟩ := schedulerQueueThread_cnt hqueue
  obtain ⟨cells, htrees⟩ := h.trees
  obtain ⟨head, hhead, hqueue⟩ := Option.bind_eq_some_iff.mp hqueue
  obtain rfl := Option.some.inj (hhead₀.symm.trans hhead)
  obtain ⟨s₁, hlock, hqueue⟩ := Option.bind_eq_some_iff.mp hqueue
  obtain ⟨v, -, hqueue⟩ := Option.bind_eq_some_iff.mp hqueue
  obtain ⟨s₂, hadd, hqueue⟩ := Option.bind_eq_some_iff.mp hqueue
  obtain ⟨s₃, hmove, hprint⟩ := Option.bind_eq_some_iff.mp hqueue
  obtain rfl := printCpuTreeList_eq hprint
  obtain ⟨s₄, hlocked, hmove⟩ := Option.bind_eq_some_iff.mp hmove
  obtain ⟨head', -, hmove⟩ := Option.bind_eq_some_iff.mp hmove
  obtain ⟨s₅, hbody, rfl⟩ := Option.map_eq_some_iff.mp hmove
  have hbefore := (KeepsTrees.lockTree hlock).trans
    (.setThread s₁ th { s₁.thread th with vruntime := v } rfl rfl)
  have hafter := ((KeepsTrees.unlockTree s₂ _).trans (.lockList hlocked)).trans
    ((KeepsTrees.relinked (moveSmallestBody_relinked hbody)).trans
      ((KeepsTrees.unlockList s₅).trans (.startCore env s₅.unlockList
        (s₅.unlockList.cpuTrees (s.lnode head₀).tree).cpuNum)))
  obtain ⟨cells', htrees'⟩ := (htrees.congr hbefore).add (block.congr hbefore) fresh (hn head₀ hhead₀) hadd
  have htree : ∀ x, ((startCore env s₅.unlockList
      (s₅.unlockList.cpuTrees (s.lnode head₀).tree).cpuNum).thread x).tree =
        if x = th then (s.lnode head₀).tree else (s.thread x).tree := by
    intro x
    obtain ⟨w, -, hadd⟩ := Option.bind_eq_some_iff.mp hadd
    rw [hafter.tree, (threadTreeInsert_frame hadd).2.2, (setUpNode_frame env _ _ th w).2.2]
    split
    · rfl
    · exact hbefore.tree x
  have hsleep : ∀ x ∈ asleep, x ≠ th := by
    rintro x hx rfl
    exact awake hx
  have hlive : ∀ x ∈ live, x ≠ th := by
    rintro x hx rfl
    exact fresh hx
  refine ⟨⟨cells', htrees'.congr hafter⟩, fun i hi => ?_, fun x hx => ?_,
    List.nodup_cons.mpr ⟨fresh, h.queued⟩, fun i hi => ?_, fun x hx => ?_,
    h.nodup, fun x hx hmem => ?_, by simpa [Nat.add_right_comm] using room, fun i hi => ?_⟩
  · rw [hcnt, h.cnt i hi, List.countP_cons, htree, if_pos rfl]
    congr 1
    · refine List.countP_congr fun x hx => ?_
      rw [htree, if_neg (hlive x hx)]
    · by_cases hic : i = (s.lnode head₀).tree <;> simp [hic, eq_comm]
  · rw [htree]
    split
    · exact hn head₀ hhead₀
    · next hne => exact h.tree x ((List.mem_cons.mp hx).resolve_left hne)
  · rw [hkeep.pqueue]
    refine (h.items i hi).trans (.of_eq (List.filter_congr fun x hx => ?_))
    rw [htree, if_neg (hsleep x hx)]
  · rw [htree, if_neg (hsleep x hx)]
    exact h.home x hx
  · rcases List.mem_cons.mp hmem with rfl | hmem
    · exact awake hx
    · exact h.apart x hx hmem
  · rw [hkeep.cpuNum, h.cpuNum i hi]

theorem cnt_lt (h : Placed env s live asleep) (hi : i < env.coreNum) :
    (s.cpuTrees i).threadCnt < 2 ^ 64 := by
  rw [h.cnt i hi]
  exact List.countP_le_length.trans_lt ((Nat.le_add_right _ _).trans_lt h.room)

/-- A thread leaves its tree, and the node of the CPU moves in the list. -/
theorem remove {s₁ s₂ s₃ : Sched} (h : Placed env s live asleep) (hth : th ∈ live)
    (hsafe : RemoveSafe s th) (hrem : threadTreeRemove fuel s th = some s₁) (hsame : SameLoad s₁ s₂)
    (hmove : cpuTreeListMoveLeft fuel s₂ (s.thread th).tree = some s₃) :
    Placed env s₃ (live.erase th) asleep ∧
      (∀ i, (s₃.cpuTrees i).threadCnt = if i = (s.thread th).tree then
        (s.cpuTrees (s.thread th).tree).threadCnt - 1 else (s.cpuTrees i).threadCnt) ∧
      ∀ x, (s₃.thread x).tree = (s.thread x).tree := by
  obtain ⟨cells, htrees⟩ := h.trees
  have hcn := h.tree th hth
  obtain ⟨cells', htrees'⟩ := htrees.remove hth hcn hsafe hrem
  have hleft := threadTreeRemove_parts hrem
  have hkeep := threadTreeRemove_keeps hrem
  obtain ⟨s₄, hlocked, hmove⟩ := Option.bind_eq_some_iff.mp hmove
  obtain ⟨s₅, hbody, rfl⟩ := Option.map_eq_some_iff.mp hmove
  have hlock := hsame.trans (.lockList hlocked)
  have honly := moveLeftBody_onlyList hbody
  have htree : ∀ x, (s₅.thread x).tree = (s.thread x).tree := fun x => by
    rw [honly.thread, hlock.trees.tree, hleft.tree]
  have hpqueue : s₅.sleepPqueue = s.sleepPqueue := by
    rw [honly.pqueue, hlock.pqueue, hkeep.pqueue]
  have hpos : 0 < (s.cpuTrees (s.thread th).tree).threadCnt := by
    rw [h.cnt _ hcn]
    exact List.countP_pos_iff.mpr ⟨th, hth, by simp⟩
  have hcnt : ∀ i, (s₅.cpuTrees i).threadCnt = if i = (s.thread th).tree then
      (s.cpuTrees (s.thread th).tree).threadCnt - 1 else (s.cpuTrees i).threadCnt := fun i => by
    rw [honly.cpuTrees, hlock.cnt, hleft.cnt, sub64_of_le hpos (h.cnt_lt hcn)]
  refine ⟨⟨⟨cells', htrees'.congr ?_⟩, fun i hi => ?_, fun x hx => ?_, h.queued.erase th,
    fun i hi => ?_, fun x hx => ?_, h.nodup,
    fun x hx hmem => h.apart x hx (List.mem_of_mem_erase hmem), ?_, fun i hi => ?_⟩, hcnt, htree⟩
  · exact hlock.trees.trans ((KeepsTrees.relinked (moveLeftBody_relinked hbody)).trans (.unlockList s₅))
  · show (s₅.cpuTrees i).threadCnt = (live.erase th).countP fun x => (s₅.thread x).tree = i
    have hcount := (List.perm_cons_erase hth).countP_eq fun x => decide ((s.thread x).tree = i)
    rw [← h.cnt i hi, List.countP_cons] at hcount
    rw [hcnt]
    simp only [htree]
    by_cases hic : i = (s.thread th).tree
    · subst hic
      simp only [decide_true, if_true] at hcount ⊢
      omega
    · rw [if_neg hic]
      simpa [Ne.symm hic] using hcount
  · show (s₅.thread x).tree < _
    rw [htree]
    exact h.tree x (List.mem_of_mem_erase hx)
  · show (s₅.sleepPqueue i).items.Perm (asleep.filter fun x => (s₅.thread x).tree = i)
    rw [hpqueue]
    simpa only [htree] using h.items i hi
  · show (s₅.thread x).tree < _
    rw [htree]
    exact h.home x hx
  · have hlen := @List.length_erase_le _ _ th live
    have := h.room
    omega
  · show (s₅.cpuTrees i).cpuNum = i
    rw [honly.cpuTrees, hlock.cpuNum, hkeep.cpuNum, h.cpuNum i hi]

/-- `scheduler_dequeue_thread` of a queued thread. -/
theorem dequeue (h : Placed env s live asleep) (hth : th ∈ live) (hsafe : RemoveSafe s th)
    (hd : schedulerDequeueThread fuel s th = some s') :
    Placed env s' (live.erase th) asleep ∧ ∀ x, (s'.thread x).tree = (s.thread x).tree := by
  obtain ⟨s₁, hlock, hd⟩ := Option.bind_eq_some_iff.mp hd
  obtain ⟨s₂, hrem, hd⟩ := Option.bind_eq_some_iff.mp hd
  obtain ⟨s₃, hd, hprint⟩ := Option.bind_eq_some_iff.mp hd
  obtain rfl := printCpuTreeList_eq hprint
  have hsame := SameLoad.lockTree hlock
  have hc : (s₂.thread th).tree = (s₁.thread th).tree := (threadTreeRemove_parts hrem).tree th
  rw [hc] at hd
  obtain ⟨hinv, -, htree'⟩ := (h.congr hsame).remove hth (hsame.removeSafe hsafe) hrem
    (.unlockTree _ _) hd
  exact ⟨hinv, fun x => (htree' x).trans (hsame.trees.tree x)⟩

theorem setSleepPqueue {q : ThreadPqueue} {asleep' : List Nat} (h : Placed env s live asleep)
    (hq : q.items.Perm (asleep'.filter fun x => (s.thread x).tree = c))
    (hothers : ∀ i, i ≠ c → (asleep'.filter fun x => (s.thread x).tree = i).Perm
      (asleep.filter fun x => (s.thread x).tree = i))
    (home : ∀ x ∈ asleep', (s.thread x).tree < env.coreNum) (nodup : asleep'.Nodup)
    (apart : ∀ x ∈ asleep', x ∉ live) (room : live.length + asleep'.length < 2 ^ 64) :
    Placed env (s.setSleepPqueue c q) live asleep' := by
  obtain ⟨cells, htrees⟩ := h.trees
  refine ⟨⟨cells, htrees.congr ⟨rfl, fun _ => rfl, fun _ => rfl, fun _ => rfl, rfl⟩⟩, h.cnt, h.tree,
    h.queued, fun i hi => ?_, home, nodup, apart, room, h.cpuNum⟩
  by_cases hic : i = c
  · subst hic
    show (Function.update s.sleepPqueue i q i).items.Perm _
    rw [Function.update_self]
    exact hq
  · show (Function.update s.sleepPqueue c q i).items.Perm _
    rw [Function.update_of_ne hic]
    exact (h.items i hi).trans (hothers i hic).symm

theorem size_lt (h : Placed env s live asleep) (hi : i < env.coreNum) :
    (s.sleepPqueue i).size < 2 ^ 64 ∧ (s.sleepPqueue i).size ≤ asleep.length := by
  have hlen := (h.items i hi).length_eq
  rw [ThreadPqueue.items, prefixOf, List.length_map, List.length_range] at hlen
  have hle := @List.length_filter_le _ (fun x => decide ((s.thread x).tree = i)) asleep
  have := h.room
  omega

/-- The root of a sleep queue is a sleeping thread of that CPU. -/
theorem sleeper (h : Placed env s live asleep) (hcn : c < env.coreNum)
    (hsize : (s.sleepPqueue c).size ≠ 0) : (s.sleepPqueue c).heap 0 ∈ asleep ∧
      (s.thread ((s.sleepPqueue c).heap 0)).tree = c := by
  obtain ⟨hmem, hc⟩ := List.mem_filter.mp
    ((h.items c hcn).mem_iff.mp (heap_mem_items (Nat.pos_of_ne_zero hsize)))
  exact ⟨hmem, of_decide_eq_true hc⟩

theorem wake (h : Placed env s live asleep) (block : FreshBlock env env.coreNum s)
    (hcn : c < env.coreNum) (hsize : (s.sleepPqueue c).size ≠ 0)
    (hn : ∀ head, s.cpuTreeList = some head → (s.lnode head).tree < env.coreNum)
    (hwake : wakeOne env fuel s c = some s') :
    Placed env s' ((s.sleepPqueue c).heap 0 :: live)
      (asleep.erase ((s.sleepPqueue c).heap 0)) := by
  obtain ⟨⟨q', th⟩, hpop, hqueue⟩ := Option.bind_eq_some_iff.mp hwake
  obtain ⟨hth, hitems⟩ := ThreadPqueue.pop_items (Nat.pos_of_ne_zero hsize) (h.size_lt hcn).1 hpop
  have hperm := hitems.trans (h.items c hcn)
  have hmem := h.sleeper hcn hsize
  rw [← hth] at hmem
  have herase := List.perm_cons_erase hmem.1
  have hlen := herase.length_eq
  rw [List.length_cons] at hlen
  have hroom := h.room
  have hpopped : Placed env (s.setSleepPqueue c q') live (asleep.erase th) := by
    refine h.setSleepPqueue ?_ ?_ (fun x hx => h.home x (List.mem_of_mem_erase hx)) (h.nodup.erase th)
      (fun x hx => h.apart x (List.mem_of_mem_erase hx)) (by omega)
    · have hfilter := herase.filter fun x => decide ((s.thread x).tree = c)
      rw [List.filter_cons_of_pos (by simp [hmem.2])] at hfilter
      exact (hperm.trans hfilter).cons_inv
    · intro i hic
      have hfilter := herase.filter fun x => decide ((s.thread x).tree = i)
      rw [List.filter_cons_of_neg (by simp [hmem.2, Ne.symm hic])] at hfilter
      exact hfilter.symm
  rw [← hth]
  exact hpopped.queue (block.congr ⟨rfl, fun _ => rfl, fun _ => rfl, fun _ => rfl, rfl⟩)
    (h.apart th hmem.1) (h.nodup.not_mem_erase) (by omega) hn hqueue

/-- `scheduler_sleep_thread` of a queued thread. -/
theorem sleep {timeNs : Nat} (h : Placed env s live asleep) (hth : th ∈ live)
    (hsafe : RemoveSafe s th)
    (hsleep : schedulerSleepThread env fuel s th timeNs timerVal = some s') :
    Placed env s' (live.erase th) (th :: asleep) := by
  obtain ⟨s₂, hd, hsleep⟩ := Option.bind_eq_some_iff.mp hsleep
  have hsame := SameLoad.setThread s th (setSleep env s th timeNs timerVal) rfl rfl
  obtain ⟨hinv, htree⟩ := (h.congr hsame).dequeue hth (hsame.removeSafe hsafe) hd
  have hcn := h.tree th hth
  have hc : (s₂.thread th).tree = (s.thread th).tree := (htree th).trans (hsame.trees.tree th)
  have hcpu : (s₂.cpuTrees (s₂.thread th).tree).cpuNum = (s₂.thread th).tree :=
    hinv.cpuNum _ (by rw [hc]; exact hcn)
  have hlen := (List.perm_cons_erase hth).length_eq
  rw [List.length_cons] at hlen
  have hroom := h.room
  have hsize := (hinv.size_lt (show (s₂.thread th).tree < env.coreNum by rw [hc]; exact hcn)).2
  have hfresh : th ∉ asleep := fun hmem => h.apart th hmem hth
  simp only [hcpu] at hsleep
  split at hsleep
  · cases hsleep
  obtain ⟨q, hpush, rfl⟩ := Option.map_eq_some_iff.mp hsleep
  have hitems := ThreadPqueue.push_items (by omega) hpush
  refine hinv.setSleepPqueue ?_ ?_ ?_ (List.nodup_cons.mpr ⟨hfresh, hinv.nodup⟩) ?_
    (by rw [List.length_cons]; omega)
  · rw [List.filter_cons_of_pos (by simp)]
    exact hitems.trans ((hinv.items _ (by rw [hc]; exact hcn)).cons th)
  · intro i hic
    rw [List.filter_cons_of_neg (by simp [Ne.symm hic])]
  · intro x hx
    rcases List.mem_cons.mp hx with rfl | hx
    · rw [hc]
      exact hcn
    · exact hinv.home x hx
  · intro x hx
    rcases List.mem_cons.mp hx with rfl | hx
    · exact h.queued.not_mem_erase
    · exact hinv.apart x hx

end Placed

namespace LoadInv

theorem congr (h : LoadInv env s live asleep) (hsame : SameLoad s s') :
    LoadInv env s' live asleep :=
  (h.placed.congr hsame).loadInv (h.list.congr hsame.list hsame.cnt hsame.trees.tree)

theorem perm {live' : List Nat} (h : LoadInv env s live asleep) (hperm : live'.Perm live) :
    LoadInv env s live' asleep :=
  (h.placed.perm hperm).loadInv (h.list.perm hperm)

theorem head_lt (h : LoadInv env s live asleep) (head : Nat) (hhead : s.cpuTreeList = some head) :
    (s.lnode head).tree < env.coreNum := (h.list.head_least hhead).1

theorem queue (h : LoadInv env s live asleep) (block : FreshBlock env env.coreNum s)
    (fresh : th ∉ live) (awake : th ∉ asleep) (room : live.length + asleep.length + 1 < 2 ^ 64)
    (hsafe : QueueSafe env.coreNum s) (hqueue : schedulerQueueThread env fuel s th = some s') :
    LoadInv env s' (th :: live) asleep := by
  have hret : CpuReturns env s (.queue th) s' :=
    (schedulerQueueThread_steady env s th).returns _ hqueue
  obtain ⟨hiff, hlist⟩ := queue_step h.list fresh (by omega) hret
  exact (h.placed.queue block fresh awake room h.head_lt hqueue).loadInv (hlist (hiff.mpr hsafe))

theorem remove {s₁ s₂ s₃ : Sched} (h : LoadInv env s live asleep) (hth : th ∈ live)
    (hdequeue : DequeueSafe env.coreNum s th) (hsafe : RemoveSafe s th)
    (hrem : threadTreeRemove fuel s th = some s₁) (hsame : SameLoad s₁ s₂)
    (hmove : cpuTreeListMoveLeft fuel s₂ (s.thread th).tree = some s₃) :
    LoadInv env s₃ (live.erase th) asleep := by
  obtain ⟨hplaced, -⟩ := h.placed.remove hth hsafe hrem hsame hmove
  have hleft := threadTreeRemove_parts hrem
  obtain ⟨s₄, hlocked, hmove⟩ := Option.bind_eq_some_iff.mp hmove
  obtain ⟨s₅, hbody, rfl⟩ := Option.map_eq_some_iff.mp hmove
  have hlock := hsame.trans (.lockList hlocked)
  obtain ⟨hiff, hlist⟩ := left_step h.list hth
    ⟨hleft.list.trans hlock.list, fun i => (hlock.cnt i).trans (hleft.cnt i),
      fun x => (hlock.trees.tree x).trans (hleft.tree x)⟩ hbody
  exact hplaced.loadInv (hlist (hiff.mpr hdequeue))

theorem dequeue (h : LoadInv env s live asleep) (hth : th ∈ live)
    (hdequeue : DequeueSafe env.coreNum s th) (hsafe : RemoveSafe s th)
    (hd : schedulerDequeueThread fuel s th = some s') : LoadInv env s' (live.erase th) asleep := by
  have hret : CpuReturns env s (.dequeue th) s' := (schedulerDequeueThread_steady s th).returns _ hd
  obtain ⟨hiff, hlist⟩ := dequeue_step h.list hth hret
  exact (h.placed.dequeue hth hsafe hd).1.loadInv (hlist (hiff.mpr hdequeue))

theorem wake (h : LoadInv env s live asleep) (block : FreshBlock env env.coreNum s)
    (hcn : c < env.coreNum) (hsize : (s.sleepPqueue c).size ≠ 0)
    (hsafe : QueueSafe env.coreNum s) (hwake : wakeOne env fuel s c = some s') :
    LoadInv env s' ((s.sleepPqueue c).heap 0 :: live)
      (asleep.erase ((s.sleepPqueue c).heap 0)) := by
  refine (h.placed.wake block hcn hsize h.head_lt hwake).loadInv ?_
  obtain ⟨hasleep, -⟩ := h.placed.sleeper hcn hsize
  obtain ⟨⟨q', th⟩, hpop, hqueue⟩ := Option.bind_eq_some_iff.mp hwake
  obtain ⟨rfl, -⟩ := ThreadPqueue.pop_items (Nat.pos_of_ne_zero hsize) (h.placed.size_lt hcn).1 hpop
  have hret : CpuReturns env (s.setSleepPqueue c q') (.queue ((s.sleepPqueue c).heap 0)) s' :=
    (schedulerQueueThread_steady env _ _).returns _ hqueue
  have hpos := List.length_pos_of_mem hasleep
  have hroom := h.room
  have hpopped : CpuListInv env.coreNum (s.setSleepPqueue c q') live :=
    h.list.congr ⟨rfl, rfl, fun _ => rfl⟩ (fun _ => rfl) fun _ => rfl
  obtain ⟨hiff, hlist⟩ := queue_step hpopped (h.apart _ hasleep) (by omega) hret
  exact hlist (hiff.mpr hsafe)

theorem sleep {timeNs : Nat} (h : LoadInv env s live asleep) (hth : th ∈ live)
    (hdequeue : DequeueSafe env.coreNum s th) (hsafe : RemoveSafe s th)
    (hsleep : schedulerSleepThread env fuel s th timeNs timerVal = some s') :
    LoadInv env s' (live.erase th) (th :: asleep) := by
  refine (h.placed.sleep hth hsafe hsleep).loadInv ?_
  obtain ⟨s₂, hd, hsleep⟩ := Option.bind_eq_some_iff.mp hsleep
  dsimp only at hsleep
  split at hsleep
  · cases hsleep
  obtain ⟨q, -, rfl⟩ := Option.map_eq_some_iff.mp hsleep
  have hsame := SameLoad.setThread s th (setSleep env s th timeNs timerVal) rfl rfl
  have hinv := (h.congr hsame).dequeue hth (hsame.dequeueSafe hdequeue) (hsame.removeSafe hsafe) hd
  exact hinv.list.congr ⟨rfl, rfl, fun _ => rfl⟩ (fun _ => rfl) fun _ => rfl

end LoadInv

section Interrupt

theorem switchThread_frame {passed : Nat} {r : Sched × Option Nat}
    (h : switchThread env fuel c passed s = some r) :
    SameList s r.1 ∧ (∀ i, (r.1.cpuTrees i).threadCnt = (s.cpuTrees i).threadCnt) ∧
      ∀ x, (r.1.thread x).tree = (s.thread x).tree := by
  unfold switchThread at h
  cases hroot : (s.cpuTrees c).root with
  | none =>
      simp only [hroot, Option.some.injEq] at h
      subst h
      have hsame := SameLoad.unlockTree s c
      exact ⟨hsame.list, hsame.cnt, hsame.trees.tree⟩
  | some root =>
      simp only [hroot] at h
      obtain ⟨a, -, h⟩ := Option.bind_eq_some_iff.mp h
      split at h
      · cases h
      obtain ⟨⟨s₁, rootAddr⟩, hdel, h⟩ := Option.bind_eq_some_iff.mp h
      obtain ⟨s₂, hins, rfl⟩ := Option.map_eq_some_iff.mp h
      have hcharge : SameLoad s (chargeThread env passed s (s.node a).item) :=
        .setThread s _ _ rfl rfl
      obtain ⟨hlist₁, hcnt₁, htree₁⟩ := threadTreeDelete_frame hdel
      obtain ⟨hlist₂, hcnt₂, hthread₂⟩ := threadTreeInsert_frame hins
      have hend := SameLoad.unlockTree s₂ c
      have hset : SameList s₁ (s₁.setNode rootAddr (s.node a)) := ⟨rfl, rfl, fun _ => rfl⟩
      have hfinish : SameList (s₂.unlockTree c) (finishSwitch s₂ c rootAddr).1 :=
        ⟨rfl, rfl, fun _ => rfl⟩
      refine ⟨(((hcharge.list.trans hlist₁).trans hset).trans hlist₂).trans (hend.list.trans hfinish),
        fun i => ?_, fun x => ?_⟩
      · exact ((hend.cnt i).trans (hcnt₂ i)).trans ((hcnt₁ i).trans (hcharge.cnt i))
      · refine ((hend.trees.tree x).trans (congrArg (fun ths => (ths x).tree) hthread₂)).trans ?_
        exact (htree₁ x).trans (hcharge.trees.tree x)

theorem endAdvance_frame {passed last : Nat} {r : Sched × Option Nat}
    (h : endAdvance env fuel s c timerVal passed last = some r) :
    SameList s r.1 ∧ (∀ i, (r.1.cpuTrees i).threadCnt = (s.cpuTrees i).threadCnt) ∧
      (∀ x, (r.1.thread x).tree = (s.thread x).tree) ∧ r.1.sleepPqueue = s.sleepPqueue ∧
      ∀ i, (r.1.cpuTrees i).cpuNum = (s.cpuTrees i).cpuNum := by
  unfold endAdvance at h
  have hgave := SameLoad.setLastGiveTime s c last
  set s₁ := s.setTree c { s.cpuTrees c with lastGiveTime := last }
  dsimp only at h
  split at h
  · obtain rfl := Option.some.inj h
    have hend := (hgave.trans (.setPrevThread s₁ c none)).trans (.unlockTree _ c)
    exact ⟨hend.list, hend.cnt, hend.trees.tree, hend.pqueue, hend.cpuNum⟩
  · have hsame := hgave.trans (.setTimerPrevVal s₁ (Function.update s₁.timerPrevVal c timerVal))
    obtain ⟨hlist, hcnt, htree⟩ := switchThread_frame h
    have hkeep := switchThread_keeps h
    exact ⟨hsame.list.trans hlist, fun i => (hcnt i).trans (hsame.cnt i),
      fun x => (htree x).trans (hsame.trees.tree x), hkeep.pqueue.trans hsame.pqueue,
      fun i => (hkeep.cpuNum i).trans (hsame.cpuNum i)⟩

/-- The end of an interrupt moves no thread to another tree or node. -/
theorem TreesHold.leave {passed last : Nat} {r : Sched × Option Nat}
    (h : TreesHold n s live cells) (hcn : c < n)
    (hclean : (s.cpuTrees c).timeSlice ≤ passed → SwitchClean s c)
    (hend : endAdvance env fuel s c timerVal passed last = some r) :
    ∃ cells', TreesHold n r.1 live cells' := by
  unfold endAdvance at hend
  have hgave := SameLoad.setLastGiveTime s c last
  set s₁ := s.setTree c { s.cpuTrees c with lastGiveTime := last } with hs₁
  have hslice : (s₁.cpuTrees c).timeSlice = (s.cpuTrees c).timeSlice := by
    simp [hs₁, Sched.setTree]
  dsimp only at hend
  split at hend
  · obtain rfl := Option.some.inj hend
    have hsame := (hgave.trans (.setPrevThread s₁ c none)).trans (.unlockTree _ c)
    exact ⟨cells, h.congr hsame.trees⟩
  · rename_i hover
    have hsame := hgave.trans (.setTimerPrevVal s₁ (Function.update s₁.timerPrevVal c timerVal))
    refine (h.congr hsame.trees).switch hcn ?_ hend
    rw [SwitchClean, hsame.tree_eq, hsame.trees.root]
    exact hclean (by rw [← hslice]; exact not_lt.mp hover)

theorem Placed.leave {passed last : Nat} {r : Sched × Option Nat} (h : Placed env s live asleep)
    (hcn : c < env.coreNum) (hclean : (s.cpuTrees c).timeSlice ≤ passed → SwitchClean s c)
    (hend : endAdvance env fuel s c timerVal passed last = some r) :
    Placed env r.1 live asleep := by
  obtain ⟨cells, htrees⟩ := h.trees
  obtain ⟨-, hcnt, htree, hpqueue, hnum⟩ := endAdvance_frame hend
  refine ⟨htrees.leave hcn hclean hend, fun i hi => ?_, fun x hx => ?_, h.queued, fun i hi => ?_,
    fun x hx => ?_, h.nodup, h.apart, h.room, fun i hi => ?_⟩
  · rw [hcnt, h.cnt i hi]
    simp only [htree]
  · rw [htree]
    exact h.tree x hx
  · rw [hpqueue]
    simpa only [htree] using h.items i hi
  · rw [htree]
    exact h.home x hx
  · rw [hnum, h.cpuNum i hi]

theorem LoadInv.leave {passed last : Nat} {r : Sched × Option Nat} (h : LoadInv env s live asleep)
    (hcn : c < env.coreNum) (hclean : (s.cpuTrees c).timeSlice ≤ passed → SwitchClean s c)
    (hend : endAdvance env fuel s c timerVal passed last = some r) :
    LoadInv env r.1 live asleep := by
  obtain ⟨hlist, hcnt, htree, -⟩ := endAdvance_frame hend
  exact (h.placed.leave hcn hclean hend).loadInv (h.list.congr hlist hcnt htree)

theorem sub64_self (a : Nat) : sub64 a a = 0 := by
  simp [sub64, u64]

/-- A CPU that is to give jobs away has two threads for each more than the head of the list. -/
theorem LoadInv.amount (h : LoadInv env s live asleep) (hcn : c < env.coreNum)
    (hamt : giveAmt s c timerVal = some k) : (Phase.giving c k).Right env.coreNum s := by
  refine ⟨hcn, ?_⟩
  unfold giveAmt at hamt
  split at hamt
  · obtain ⟨head, hhead, hamt⟩ := Option.map_eq_some_iff.mp hamt
    obtain ⟨hn, hleast⟩ := h.list.head_least hhead
    have hle := hleast c hcn
    have hlt : (s.cpuTrees c).threadCnt < 2 ^ 64 := by
      rw [h.list.cnt c hcn]
      exact List.countP_le_length.trans_lt h.list.room
    dsimp only at hamt
    split at hamt
    · by_cases hself : (s.lnode head).tree = c
      · rw [Sched.cntOf, hself, sub64_self] at hamt
        exact .inl hamt.symm
      · refine .inr ⟨_, hn, hself, ?_⟩
        rw [sub64_of_le hle hlt] at hamt
        rw [Sched.cntOf] at hle hamt
        omega
    · exact .inl hamt.symm
  · exact .inl (Option.some.inj hamt).symm

theorem Placed.root_item {root : Nat} (h : Placed env s live asleep) (hcn : c < env.coreNum)
    (hroot : (s.cpuTrees c).root = some root) :
    (s.node root).item ∈ live ∧ (s.thread (s.node root).item).tree = c := by
  obtain ⟨cells, htrees⟩ := h.trees
  exact htrees.item_mem hcn ((htrees.holds c hcn).root_mem hroot)

/-- With more threads than another CPU after the removal, CPU `c` is not the head of the list. -/
theorem LoadInv.removed {root : Nat} {s₁ s₂ : Sched} (h : LoadInv env s live asleep)
    (hright : (Phase.giving c (k + 1)).Right env.coreNum s)
    (hsafe : LoadEvent.Safe env.coreNum s (.give c)) (hroot : (s.cpuTrees c).root = some root)
    (hrem : threadTreeRemove fuel s (s.node root).item = some s₁)
    (hmove : cpuTreeListMoveLeft fuel s₁ c = some s₂) :
    LoadInv env s₂ (live.erase (s.node root).item) asleep ∧
      ∃ i < env.coreNum, i ≠ c ∧
        (s₂.cpuTrees i).threadCnt + (2 * k + 1) ≤ (s₂.cpuTrees c).threadCnt := by
  obtain ⟨hcn, hk⟩ := hright
  obtain ⟨i, hi, hic, hcnt⟩ := hk.resolve_left (Nat.succ_ne_zero k)
  obtain ⟨hmem, htree⟩ := h.placed.root_item hcn hroot
  obtain ⟨hdequeue, hremove⟩ := hsafe root hroot
  have hmove' : cpuTreeListMoveLeft fuel s₁ (s.thread (s.node root).item).tree = some s₂ := by
    rw [htree]
    exact hmove
  obtain ⟨-, hcnts, -⟩ := h.placed.remove hmem hremove hrem (.refl s₁) hmove'
  refine ⟨h.remove hmem hdequeue hremove hrem (.refl s₁) hmove', i, hi, hic, ?_⟩
  rw [hcnts, hcnts, htree, if_neg hic, if_pos rfl]
  omega

theorem LoadEvent.FreshNode.after_move {root : Nat} {s₁ s₂ : Sched}
    (block : (LoadEvent.give c).FreshNode env s) (hroot : (s.cpuTrees c).root = some root)
    (hrem : threadTreeRemove fuel s (s.node root).item = some s₁)
    (hmove : cpuTreeListMoveLeft fuel s₁ c = some s₂) : FreshBlock env env.coreNum s₂ := by
  have hfresh := block root s₁ hroot ((threadTreeRemove_steady _ _).returns _ hrem)
  obtain ⟨s₃, hlocked, hmove⟩ := Option.bind_eq_some_iff.mp hmove
  obtain ⟨s₄, hbody, rfl⟩ := Option.map_eq_some_iff.mp hmove
  exact hfresh.congr (((KeepsTrees.lockList hlocked).trans
    (.relinked (moveLeftBody_relinked hbody))).trans (.unlockList s₄))

theorem LoadInv.head_ne {head : Nat} (h : LoadInv env s live asleep) (hi : i < env.coreNum)
    (hcnt : (s.cpuTrees i).threadCnt + (2 * k + 1) ≤ (s.cpuTrees c).threadCnt)
    (hhead : s.cpuTreeList = some head) : (s.lnode head).tree ≠ c := by
  rintro rfl
  have hle := (h.list.head_least hhead).2 i hi
  rw [Sched.cntOf] at hle
  omega

/-- One job is given away: the same threads are queued, and the next job can be given. -/
theorem LoadInv.give (h : LoadInv env s live asleep)
    (hright : (Phase.giving c (k + 1)).Right env.coreNum s)
    (block : (LoadEvent.give c).FreshNode env s)
    (hsafe : LoadEvent.Safe env.coreNum s (.give c))
    (hgive : giveJobs env fuel c 1 s = some s') :
    LoadInv env s' live asleep ∧ (Phase.giving c k).Right env.coreNum s' := by
  obtain ⟨root, s₁, s₂, s₃, hroot, hrem, hmove, hqueue, hgive⟩ := giveJobs_parts hgive
  obtain rfl : s₃ = s' := Option.some.inj hgive
  obtain ⟨hmem, -⟩ := h.placed.root_item hright.1 hroot
  obtain ⟨hinv, i, hi, hic, hcnt⟩ := h.removed hright hsafe hroot hrem hmove
  have hperm := List.perm_cons_erase hmem
  have hlen := hperm.length_eq
  rw [List.length_cons] at hlen
  have hroom := h.room
  have hblock := block.after_move hroot hrem hmove
  have hqueued := hinv.queue hblock h.list.nodup.not_mem_erase (fun ha => h.apart _ ha hmem) (by omega)
    (.inr ⟨i, hi, c, hright.1, by omega⟩) hqueue
  refine ⟨hqueued.perm hperm, hright.1, .inr ⟨i, hi, hic, ?_⟩⟩
  obtain ⟨head, hhead, hcnts⟩ := schedulerQueueThread_cnt hqueue
  have hne : c ≠ (s₂.lnode head).tree := (hinv.head_ne hi hcnt hhead).symm
  rw [hcnts, hcnts, if_neg hne]
  split <;> omega

end Interrupt

section Init

/-- CPU `n` is set up, the others stay. -/
theorem schedulerInitCpu_frame (s : Sched) (n : Nat) :
    ((schedulerInitCpu env s n).cpuTrees n).root = none ∧
      ((schedulerInitCpu env s n).cpuTrees n).cpuNum = n ∧
      (schedulerInitCpu env s n).sleepPqueue n = .init ∧
      ∀ i, i ≠ n → (schedulerInitCpu env s n).cpuTrees i = s.cpuTrees i ∧
        (schedulerInitCpu env s n).sleepPqueue i = s.sleepPqueue i := by
  unfold schedulerInitCpu
  cases hlist : s.cpuTreeList with
  | none =>
      refine ⟨?_, ?_, ?_, fun i hi => ⟨?_, ?_⟩⟩ <;>
        simp_all [Sched.setSleepPqueue, Sched.setLnode, Sched.setTree]
  | some head =>
      refine ⟨?_, ?_, ?_, fun i hi => ⟨?_, ?_⟩⟩ <;>
        simp_all [Sched.setSleepPqueue, Sched.setListPrev, Sched.setLnode, Sched.setTree]

/-- What `scheduler_init` leaves in the trees and sleep queues of the first `n` CPUs. -/
theorem schedulerInitCpu_blank (s : Sched) (n : Nat) : ∀ i < n,
    (((List.range n).foldl (schedulerInitCpu env) s).cpuTrees i).root = none ∧
      (((List.range n).foldl (schedulerInitCpu env) s).cpuTrees i).cpuNum = i ∧
      ((List.range n).foldl (schedulerInitCpu env) s).sleepPqueue i = .init := by
  induction n with
  | zero => exact fun i hi => absurd hi (Nat.not_lt_zero i)
  | succ n ih =>
      intro i hi
      rw [List.range_succ, List.foldl_append, List.foldl_cons, List.foldl_nil]
      obtain ⟨hroot, hnum, hqueue, hothers⟩ := @schedulerInitCpu_frame env
        ((List.range n).foldl (schedulerInitCpu env) s) n
      rcases Nat.lt_succ_iff_lt_or_eq.mp hi with hi | rfl
      · obtain ⟨htree, hsame⟩ := hothers i hi.ne
        rw [htree, hsame]
        exact ih i hi
      · exact ⟨hroot, hnum, hqueue⟩

theorem loadInv_init (s : Sched) (blocks : ListBlocks env s) :
    LoadInv env (schedulerInit env s) [] [] := by
  have hprev : ∀ (t : Sched) (is : List Nat),
      (is.foldl (fun s i => s.setPrevThread i none) t).cpuTrees = t.cpuTrees ∧
        (is.foldl (fun s i => s.setPrevThread i none) t).sleepPqueue = t.sleepPqueue := by
    intro t is
    induction is generalizing t with
    | nil => exact ⟨rfl, rfl⟩
    | cons i is ih => exact ih (t.setPrevThread i none)
  have hblank := @schedulerInitCpu_blank env { s with cpuTreeList := none } env.coreNum
  obtain ⟨htrees, hqueues⟩ := hprev { (List.range env.coreNum).foldl (schedulerInitCpu env)
    { s with cpuTreeList := none } with cpuTreeListLock := false } (List.range env.coreNum)
  have hinit : ∀ i < env.coreNum, ((schedulerInit env s).cpuTrees i).root = none ∧
      ((schedulerInit env s).cpuTrees i).cpuNum = i ∧
      (schedulerInit env s).sleepPqueue i = .init := by
    intro i hi
    unfold schedulerInit
    rw [htrees, hqueues]
    exact hblank i hi
  refine ⟨cpuListInv_init s blocks, ⟨fun _ => [], ?_⟩, fun i hi => ?_,
    by simp, by simp, by simp, by simp, fun i hi => (hinit i hi).2.1⟩
  · refine ⟨fun i hi => ⟨.nil, rfl, ?_⟩, by simp, by simp [Handles]⟩
    exact ⟨(hinit i hi).1, trivial, by simp⟩
  · rw [(hinit i hi).2.2]
    simp [ThreadPqueue.items, prefixOf, ThreadPqueue.init]

end Init

/-- A safe step keeps everything as it should be, between calls and while jobs are given. -/
theorem LoadStep.inv {x y : LoadState} {e : LoadEvent} (step : LoadStep env x e y)
    (block : e.FreshNode env x.sched) (isOk : e.Safe env.coreNum x.sched)
    (h : LoadInv env x.sched x.live x.asleep ∧ x.phase.Right env.coreNum x.sched) :
    LoadInv env y.sched y.live y.asleep ∧ y.phase.Right env.coreNum y.sched := by
  cases step with
  | queue fresh awake room returns =>
      obtain ⟨fuel, hfuel⟩ := returns
      exact ⟨h.1.queue block fresh awake room isOk (hfuel fuel le_rfl), trivial⟩
  | dequeue queued returns =>
      obtain ⟨fuel, hfuel⟩ := returns
      exact ⟨h.1.dequeue queued isOk.1 isOk.2 (hfuel fuel le_rfl), trivial⟩
  | sleep queued returns =>
      obtain ⟨fuel, hfuel⟩ := returns
      exact ⟨h.1.sleep queued isOk.1 isOk.2 (hfuel fuel le_rfl), trivial⟩
  | reset s live asleep c => exact ⟨h.1.congr (.resetOverflow s c), trivial⟩
  | wake cpu sleeper due returns =>
      obtain ⟨fuel, hfuel⟩ := returns
      exact ⟨h.1.wake block cpu sleeper isOk (hfuel fuel le_rfl), trivial⟩
  | enter cpu lock amount =>
      have hinv := h.1.congr (.lockTree lock)
      exact ⟨hinv, hinv.amount cpu amount⟩
  | give returns =>
      obtain ⟨fuel, hfuel⟩ := returns
      exact h.1.give h.2 block isOk (hfuel fuel le_rfl)
  | leave gave returns =>
      obtain ⟨fuel, hfuel⟩ := returns
      exact ⟨h.1.leave h.2.1 isOk (hfuel fuel le_rfl), trivial⟩

theorem LoadRun.inv {x : LoadState}
    (run : LoadRun env (LoadInv env) (LoadEvent.Safe env.coreNum) x) :
    LoadInv env x.sched x.live x.asleep ∧ x.phase.Right env.coreNum x.sched := by
  induction run with
  | init s blocks => exact ⟨loadInv_init s blocks, trivial⟩
  | resume isRight => exact ⟨isRight, trivial⟩
  | step _ block isOk step ih => exact step.inv block isOk ih

/-- Each of the threads `live` is on one node of one of `n` trees, and no other thread is on a node. -/
def EachOnce (n : Nat) (s : Sched) (live : List Nat) : Prop :=
  ∃ cells : Nat → List Nat, (∀ i < n, HoldsCells (s.tree i) (cells i)) ∧
    (∀ th, th ∈ live ↔ ∃ i < n, ∃ a ∈ cells i, (s.node a).item = th) ∧
    ∀ i < n, ∀ j < n, ∀ a ∈ cells i, ∀ b ∈ cells j,
      (s.node a).item = (s.node b).item → i = j ∧ a = b

/-- Whichever CPU gets the next job of CPU `c`, it is another one. -/
def GivesToOther (s : Sched) (c : Nat) : Prop :=
  ∀ root s₁ s₂ head, (s.cpuTrees c).root = some root →
    Returns (fun fuel => threadTreeRemove fuel s (s.node root).item) s₁ →
    Returns (fun fuel => cpuTreeListMoveLeft fuel s₁ c) s₂ →
    s₂.cpuTreeList = some head → (s₂.lnode head).tree ≠ c

theorem TreesHold.eachOnce (h : TreesHold n s live cells)
    (htree : ∀ x ∈ live, (s.thread x).tree < n) : EachOnce n s live := by
  refine ⟨cells, h.holds, fun th => ⟨fun hth => ?_, ?_⟩, fun i hi j hj a ha b hb hab => ?_⟩
  · obtain ⟨hmem, hitem⟩ := h.handle hth (htree th hth)
    exact ⟨_, htree th hth, _, hmem, hitem⟩
  · rintro ⟨i, hi, a, ha, rfl⟩
    exact (h.item_mem hi ha).1
  · have htrees := (h.item_mem hi ha).2
    rw [hab, (h.item_mem hj hb).2] at htrees
    subst htrees
    exact ⟨rfl, (h.hndl j hj).inj ha hb hab⟩

theorem sum_countP (f : Nat → Nat) (hf : ∀ x ∈ live, f x < n) :
    ∑ i ∈ Finset.range n, live.countP (fun x => f x = i) = live.length := by
  induction live with
  | nil => simp
  | cons x live ih =>
      simp only [List.countP_cons, Finset.sum_add_distrib, List.length_cons]
      rw [ih fun y hy => hf y (List.mem_cons_of_mem x hy)]
      simp [hf x (List.mem_cons_self ..)]

theorem LoadInv.root_ne_none (h : LoadInv env s live asleep)
    (hright : (Phase.giving c (k + 1)).Right env.coreNum s) : (s.cpuTrees c).root ≠ none := by
  obtain ⟨hcn, hk⟩ := hright
  obtain ⟨i, -, -, hcnt⟩ := hk.resolve_left (Nat.succ_ne_zero k)
  have hpos : 0 < (s.cpuTrees c).threadCnt := by omega
  rw [h.list.cnt c hcn] at hpos
  obtain ⟨x, hx, hxc⟩ := List.countP_pos_iff.mp hpos
  obtain ⟨cells, htrees⟩ := h.trees
  have htree : (s.thread x).tree = c := of_decide_eq_true hxc
  obtain ⟨hmem, -⟩ := htrees.handle hx (by rw [htree]; exact hcn)
  rw [htree] at hmem
  intro hnone
  rw [(htrees.holds c hcn).root_eq_none.mp hnone] at hmem
  cases hmem

/--
In every safe run no CPU has fewer threads than the head of the list; a CPU that
has a job to give has a thread and gives it, if that is safe, to another CPU;
the counts add up to the queued threads, which giving leaves the same; and each
of these is in one tree.
-/
theorem loadRun_balanced {phase : Phase}
    (run : LoadRun env (LoadInv env) (LoadEvent.Safe env.coreNum) ⟨s, live, asleep, phase⟩) :
    (∀ head, s.cpuTreeList = some head →
      ∀ c < env.coreNum, s.cntOf head ≤ (s.cpuTrees c).threadCnt) ∧
    (∀ c k, phase = .giving c (k + 1) → (s.cpuTrees c).root ≠ none ∧
      (LoadEvent.Safe env.coreNum s (.give c) → GivesToOther s c)) ∧
    ∑ c ∈ Finset.range env.coreNum, (s.cpuTrees c).threadCnt = live.length ∧
    live.Nodup ∧ EachOnce env.coreNum s live := by
  obtain ⟨hinv, hphase⟩ := run.inv
  obtain ⟨cells, htrees⟩ := hinv.trees
  refine ⟨fun head hhead => (hinv.list.head_least hhead).2, ?_, ?_, hinv.list.nodup,
    htrees.eachOnce hinv.list.tree⟩
  · rintro c k rfl
    refine ⟨hinv.root_ne_none hphase, fun hsafe root s₁ s₂ head hroot hrem hmove hhead => ?_⟩
    obtain ⟨fuel, hfuel⟩ := hrem
    obtain ⟨fuel', hfuel'⟩ := hmove
    have hmove' := hfuel' (max fuel fuel') (le_max_right _ _)
    have hrem' := hfuel (max fuel fuel') (le_max_left _ _)
    obtain ⟨hinv₂, i, hi, -, hcnt⟩ := hinv.removed hphase hsafe hroot hrem' hmove'
    exact hinv₂.head_ne hi hcnt hhead
  · rw [← sum_countP (fun x => (s.thread x).tree) hinv.list.tree]
    exact Finset.sum_congr rfl fun i hi => hinv.list.cnt i (Finset.mem_range.mp hi)

section Examples

/-- `LoadInv` with nobody asleep, read off the list and the trees. -/
theorem loadInv_of_cells {nodes : List Nat} (hlist : Linked env.coreNum s nodes ∧
      nodes.Pairwise (fun a b => s.cntOf a ≤ s.cntOf b) ∧
      (∀ i < env.coreNum, (s.cpuTrees i).threadCnt = live.countP fun x => (s.thread x).tree = i) ∧
      (∀ x ∈ live, (s.thread x).tree < env.coreNum) ∧ live.Nodup ∧ live.length < 2 ^ 64)
    (htrees : ∀ i < env.coreNum, (s.tree i).readCells fuel = some (cells i) ∧
      ((cells i).map (s.tree i).item).Perm (live.filter fun x => (s.thread x).tree = i) ∧
      ∀ a ∈ cells i, (s.thread (s.node a).item).hndl = a)
    (hcpus : ∀ i < env.coreNum, (s.sleepPqueue i).size = 0 ∧ (s.cpuTrees i).cpuNum = i) :
    LoadInv env s live [] := by
  refine ⟨cpuListInv_of_cells hlist, ⟨cells, fun i hi => .of_readCells (htrees i hi).1,
    fun i hi => (htrees i hi).2.1, fun i hi => (htrees i hi).2.2⟩, fun i hi => ?_, by simp, by simp,
    by simp, hlist.2.2.2.2.2, fun i hi => (hcpus i hi).2⟩
  rw [items_eq_nil (hcpus i hi).1]
  simp

/-- Two CPUs, and a `kmalloc` that gives the node of thread 4 out again. -/
def reusing : SchedEnv := ⟨fun k => if k = 7 then 105 else 100 + k, 2, 1, fun _ => true⟩

/-- CPU 0 has four threads, and CPU 1 has none and stands first in the list. -/
def fourOnFirst : Option Sched :=
  [1, 2, 3, 4].foldlM (fun s th => threadTreeAdd reusing 20 s 0 th) (schedulerInit reusing blankSched)

def fourOnFirstCells (i : Nat) : List Nat := if i = 0 then [102, 103, 104, 105] else []

theorem fourOnFirst_right : fourOnFirst.map (fun s => decide ((Linked 2 s [101, 100] ∧
      [101, 100].Pairwise (fun a b => s.cntOf a ≤ s.cntOf b) ∧
      (∀ i < 2, (s.cpuTrees i).threadCnt = [4, 3, 2, 1].countP fun x => (s.thread x).tree = i) ∧
      (∀ x ∈ [4, 3, 2, 1], (s.thread x).tree < 2) ∧ [4, 3, 2, 1].Nodup ∧
      [4, 3, 2, 1].length < 2 ^ 64) ∧
    (∀ i < 2, (s.tree i).readCells 20 = some (fourOnFirstCells i) ∧
      ((fourOnFirstCells i).map (s.tree i).item).Perm
        ([4, 3, 2, 1].filter fun x => (s.thread x).tree = i) ∧
      ∀ a ∈ fourOnFirstCells i, (s.thread (s.node a).item).hndl = a) ∧
    ∀ i < 2, (s.sleepPqueue i).size = 0 ∧ (s.cpuTrees i).cpuNum = i)) = some true := by
  decide +kernel

/-- A thread comes to CPU 1 and thread 4 goes; then CPU 0 is to give one job away. -/
def untilGiving : List LoadEvent := [.queue 5, .dequeue 4, .enter 0 500000000]

def untilGiven : List LoadEvent := [.give 0, .leave 0 500000000 0 500000000]

theorem oneGiven_runs :
    ((fourOnFirst.bind fun s => untilGiving.foldlM (checkedStep reusing (loadSafeCheck 2) 20)
        ⟨s, [4, 3, 2, 1], [], .idle⟩).bind fun x =>
      (untilGiven.foldlM (checkedStep reusing (loadSafeCheck 2) 20) x).map fun y =>
        decide (x.live = [5, 3, 2, 1] ∧ x.asleep = [] ∧ x.phase = .giving 0 1 ∧
          loadSafeCheck 2 20 x.sched (.give 0) = true ∧
          y.live = [5, 3, 2, 1] ∧ y.asleep = [] ∧ y.phase = .idle ∧
          (y.sched.cpuTrees 0).threadCnt = 2 ∧ (y.sched.cpuTrees 1).threadCnt = 2)) =
      some true := by
  decide +kernel

/-- CPU 0 has three threads and CPU 1 has one, before and after a job was given away. -/
theorem loadRun_balanced_oneGiven : ∃ s s',
    LoadRun reusing (LoadInv reusing) (LoadEvent.Safe 2) ⟨s, [5, 3, 2, 1], [], .giving 0 1⟩ ∧
      (s.cpuTrees 0).root ≠ none ∧ GivesToOther s 0 ∧
    LoadRun reusing (LoadInv reusing) (LoadEvent.Safe 2) ⟨s', [5, 3, 2, 1], [], .idle⟩ ∧
      (s'.cpuTrees 0).threadCnt = 2 ∧ (s'.cpuTrees 1).threadCnt = 2 ∧
      ∑ c ∈ Finset.range 2, (s'.cpuTrees c).threadCnt = 4 ∧ EachOnce 2 s' [5, 3, 2, 1] := by
  obtain ⟨s₀, hs₀, hright⟩ := Option.map_eq_some_iff.mp fourOnFirst_right
  obtain ⟨hlist, htrees, hcpus⟩ := of_decide_eq_true hright
  have hstart : LoadRun reusing (LoadInv reusing) (LoadEvent.Safe 2) ⟨s₀, [4, 3, 2, 1], [], .idle⟩ :=
    .resume (loadInv_of_cells hlist htrees hcpus)
  obtain ⟨x, hx, hruns⟩ := Option.bind_eq_some_iff.mp oneGiven_runs
  obtain ⟨y, hy, hfacts⟩ := Option.map_eq_some_iff.mp hruns
  rw [hs₀, Option.bind_some] at hx
  have hrun := loadRun_of_steps (fun _ _ => loadSafe_of_check) untilGiving hstart hx
  have hrun' := loadRun_of_steps (fun _ _ => loadSafe_of_check) untilGiven hrun hy
  obtain ⟨s, live, asleep, phase⟩ := x
  obtain ⟨s', live', asleep', phase'⟩ := y
  obtain ⟨rfl, rfl, rfl, hsafe, rfl, rfl, rfl, hcnt₀, hcnt₁⟩ := of_decide_eq_true hfacts
  obtain ⟨-, hgive, -⟩ := loadRun_balanced hrun
  obtain ⟨hroot, hother⟩ := hgive 0 0 rfl
  obtain ⟨-, -, hsum, -, honce⟩ := loadRun_balanced hrun'
  exact ⟨s, s', hrun, hroot, hother (loadSafe_of_check hsafe), hrun', hcnt₀, hcnt₁, hsum, honce⟩

/-- After these calls CPU 1 has fewer threads than the head of the list. -/
def unevenCalls : List LoadEvent := [.queue 1, .queue 2, .dequeue 1, .enter 1 500000000]

theorem unevenCalls_amount :
    (unevenCalls.foldlM (checkedStep twoCpus (fun _ _ _ => true) 8)
        ⟨schedulerInit twoCpus blankSched, [], [], .idle⟩).map
      (fun x => decide (x.live = [2] ∧ x.asleep = [] ∧ x.phase = .giving 1 (2 ^ 63 - 1) ∧
        x.sched.cpuTreeList.map x.sched.cntOf = some 1 ∧ (x.sched.cpuTrees 1).threadCnt = 0 ∧
        (x.sched.cpuTrees 1).root = none)) = some true := by decide +kernel

/-- Three calls on two CPUs, and the interrupt of CPU 1, which has no thread, is to give away
`2 ^ 63 - 1` jobs. -/
theorem loadRun_wraps :
    ∃ s live k head, LoadRun twoCpus (fun _ _ _ => False) (fun _ _ => True) ⟨s, live, [], .giving 1 k⟩ ∧
      s.cpuTreeList = some head ∧ (s.cpuTrees 1).threadCnt < s.cntOf head ∧ k = 2 ^ 63 - 1 ∧
      (s.cpuTrees 1).root = none := by
  obtain ⟨⟨s, live, asleep, phase⟩, hcalls, hfacts⟩ := Option.map_eq_some_iff.mp unevenCalls_amount
  obtain ⟨rfl, rfl, rfl, hhead, hnone, hroot⟩ := of_decide_eq_true hfacts
  obtain ⟨head, hhead, hone⟩ := Option.map_eq_some_iff.mp hhead
  have hrun : LoadRun twoCpus (fun _ _ _ => False) (fun _ _ => True) _ :=
    loadRun_of_steps (fun _ _ _ => trivial) unevenCalls (.init blankSched twoCpus_blocks) hcalls
  have hless : (s.cpuTrees 1).threadCnt < s.cntOf head := by
    rw [show (s.cpuTrees 1).threadCnt = 0 from hnone, show s.cntOf head = 1 from hone]
    exact Nat.one_pos
  exact ⟨s, _, _, head, hrun, hhead, hless, rfl, hroot⟩

end Examples

end UntitledOs.Mtask
