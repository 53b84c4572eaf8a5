import UntitledOs.Mtask.CpuLoad
import UntitledOs.Mtask.SleepQueue

/-!
# What the scheduler leaves alone

Queuing, dequeuing, giving away and switching threads do not touch the sleep
queues, the wake-up times of the threads or the numbers of the CPUs.
-/

namespace UntitledOs.Mtask

open UntitledOs.Lib UntitledOs.RbTree

variable {env : SchedEnv} {s s' s'' : Sched} {th a n c cpu head fuel : Nat}

/-- `s'` is `s` as far as sleeping threads are concerned. -/
structure KeepsSleepers (s s' : Sched) : Prop where
  pqueue : s'.sleepPqueue = s.sleepPqueue
  sleepUntil : ∀ a, (s'.thread a).sleepUntil = (s.thread a).sleepUntil
  sleepOverflow : ∀ a, (s'.thread a).sleepOverflow = (s.thread a).sleepOverflow
  cpuNum : ∀ c, (s'.cpuTrees c).cpuNum = (s.cpuTrees c).cpuNum

namespace KeepsSleepers

theorem refl (s : Sched) : KeepsSleepers s s := ⟨rfl, fun _ => rfl, fun _ => rfl, fun _ => rfl⟩

theorem trans (h : KeepsSleepers s s') (h' : KeepsSleepers s' s'') : KeepsSleepers s s'' :=
  ⟨h'.pqueue.trans h.pqueue, fun a => (h'.sleepUntil a).trans (h.sleepUntil a),
    fun a => (h'.sleepOverflow a).trans (h.sleepOverflow a),
    fun c => (h'.cpuNum c).trans (h.cpuNum c)⟩

theorem setTree (s : Sched) (c : Nat) (t : ThreadTree) (hnum : t.cpuNum = (s.cpuTrees c).cpuNum) :
    KeepsSleepers s (s.setTree c t) := by
  refine ⟨rfl, fun _ => rfl, fun _ => rfl, fun x => ?_⟩
  by_cases hx : x = c
  · subst hx
    simpa [Sched.setTree] using hnum
  · simp [Sched.setTree, hx]

theorem setThread (s : Sched) (th : Nat) (t : Thread)
    (huntil : t.sleepUntil = (s.thread th).sleepUntil)
    (hover : t.sleepOverflow = (s.thread th).sleepOverflow) :
    KeepsSleepers s (s.setThread th t) := by
  refine ⟨rfl, fun x => ?_, fun x => ?_, fun _ => rfl⟩
  · by_cases hx : x = th
    · subst hx
      simpa [Sched.setThread] using huntil
    · simp [Sched.setThread, hx]
  · by_cases hx : x = th
    · subst hx
      simpa [Sched.setThread] using hover
    · simp [Sched.setThread, hx]

theorem of_eq (hpqueue : s'.sleepPqueue = s.sleepPqueue) (hthread : s'.thread = s.thread)
    (htrees : s'.cpuTrees = s.cpuTrees) : KeepsSleepers s s' :=
  ⟨hpqueue, fun a => by rw [hthread], fun a => by rw [hthread], fun c => by rw [htrees]⟩

theorem lockTree (h : s.lockTree c = some s') : KeepsSleepers s s' := by
  unfold Sched.lockTree at h
  split at h
  · cases h
  · cases h
    exact .setTree s c _ rfl

theorem unlockTree (s : Sched) (c : Nat) : KeepsSleepers s (s.unlockTree c) := .setTree s c _ rfl

theorem lockList (h : s.lockList = some s') : KeepsSleepers s s' := by
  unfold Sched.lockList at h
  split at h
  · cases h
  · cases h
    exact .of_eq rfl rfl rfl

theorem putTree (s : Sched) (c : Nat) {t : Tree Nat Threads}
    (huntil : ∀ a, (t.ext a).sleepUntil = (s.thread a).sleepUntil)
    (hover : ∀ a, (t.ext a).sleepOverflow = (s.thread a).sleepOverflow) :
    KeepsSleepers s (s.putTree c t) :=
  ⟨rfl, huntil, hover, (setTree s c { s.cpuTrees c with root := t.root } rfl).cpuNum⟩

theorem threadTreeInsert (h : threadTreeInsert fuel s c n = some s') : KeepsSleepers s s' := by
  obtain ⟨t, ht, rfl⟩ := Option.map_eq_some_iff.mp h
  have hext := (Tree.sameData_insert ht).ext
  exact putTree s c (fun a => by rw [hext]; rfl) fun a => by rw [hext]; rfl

theorem threadTreeDelete {r : Sched × Nat} (h : threadTreeDelete fuel s c n = some r) :
    KeepsSleepers s r.1 := by
  obtain ⟨t, ht, rfl⟩ := Option.map_eq_some_iff.mp h
  have hkeep := Tree.ext_delete (P := fun ths : Threads => ∀ a,
      (ths a).sleepUntil = (s.thread a).sleepUntil ∧
        (ths a).sleepOverflow = (s.thread a).sleepOverflow) ?_ ht fun _ => ⟨rfl, rfl⟩
  · exact putTree s c (fun a => (hkeep a).1) fun a => (hkeep a).2
  · intro th n ths hths a
    by_cases ha : a = th
    · simpa [threadTreeKind, ha] using hths th
    · simpa [threadTreeKind, ha] using hths a

theorem setUpNode (env : SchedEnv) (s : Sched) (c th v : Nat) :
    KeepsSleepers s (setUpNode env s c th v) := by
  refine ⟨rfl, fun x => ?_, fun x => ?_, fun x => ?_⟩
  · by_cases hx : x = th <;>
      simp [Mtask.setUpNode, Sched.setThread, Sched.setNode, Sched.setTree, hx]
  · by_cases hx : x = th <;>
      simp [Mtask.setUpNode, Sched.setThread, Sched.setNode, Sched.setTree, hx]
  · by_cases hx : x = c <;>
      simp [Mtask.setUpNode, Sched.setThread, Sched.setNode, Sched.setTree, hx]

end KeepsSleepers

/-- The list is relinked; sleep queues, threads and trees stay. -/
structure OnlyList (s s' : Sched) : Prop where
  pqueue : s'.sleepPqueue = s.sleepPqueue
  thread : s'.thread = s.thread
  cpuTrees : s'.cpuTrees = s.cpuTrees

theorem OnlyList.keepsSleepers (h : OnlyList s s') : KeepsSleepers s s' :=
  .of_eq h.pqueue h.thread h.cpuTrees

/-- Nothing but the links of the list is written. -/
def Relinked (s s' : Sched) : Prop :=
  ∃ lnode head, s' = { s with lnode := lnode, cpuTreeList := head }

namespace Relinked

theorem refl (s : Sched) : Relinked s s := ⟨_, _, rfl⟩

theorem setListNext (h : Relinked s s') (a : Nat) (v : Option Nat) :
    Relinked s (s'.setListNext a v) := by
  obtain ⟨lnode, head, rfl⟩ := h
  exact ⟨_, _, rfl⟩

theorem setListPrev (h : Relinked s s') (a : Nat) (v : Option Nat) :
    Relinked s (s'.setListPrev a v) := by
  obtain ⟨lnode, head, rfl⟩ := h
  exact ⟨_, _, rfl⟩

theorem setHead (h : Relinked s s') (v : Option Nat) :
    Relinked s { s' with cpuTreeList := v } := by
  obtain ⟨lnode, head, rfl⟩ := h
  exact ⟨_, _, rfl⟩

theorem onlyList (h : Relinked s s') : OnlyList s s' := by
  obtain ⟨lnode, head, rfl⟩ := h
  exact ⟨rfl, rfl, rfl⟩

end Relinked

theorem moveSmallestBody_relinked (h : moveSmallestBody fuel s head = some s') :
    Relinked s s' := by
  unfold moveSmallestBody at h
  cases hnext : (s.lnode head).next with
  | none =>
      simp only [hnext, Option.some.injEq] at h
      exact h ▸ .refl s
  | some cur =>
      simp only [hnext] at h
      obtain ⟨⟨prev, last⟩, -, h⟩ := Option.bind_eq_some_iff.mp h
      cases last with
      | none =>
          obtain ⟨p, -, rfl⟩ := Option.map_eq_some_iff.mp h
          exact ((((Relinked.refl s).setListNext _ _).setListNext _ _).setListPrev _ _).setHead _
      | some last =>
          simp only at h
          split at h
          · obtain ⟨p, -, h⟩ := Option.bind_eq_some_iff.mp h
            obtain ⟨q, -, rfl⟩ := Option.map_eq_some_iff.mp h
            have hnexts := ((Relinked.refl s).setListNext p (some head)).setListNext head (some last)
            exact (((hnexts.setListPrev _ _).setListPrev _ _).setListPrev _ _).setHead _
          · cases h
            exact .refl s

theorem unlinkLnode_relinked (s : Sched) (l prev : Nat) : Relinked s (unlinkLnode s l prev) := by
  have hnext := (Relinked.refl s).setListNext prev (s.lnode l).next
  unfold unlinkLnode
  dsimp only
  split
  · exact hnext
  · exact hnext.setListPrev _ _

theorem moveLeftBody_relinked (h : moveLeftBody fuel s c = some s') : Relinked s s' := by
  unfold moveLeftBody at h
  cases hprev : (s.lnode (s.cpuTrees c).listPtr).prev with
  | none =>
      simp only [hprev, Option.some.injEq] at h
      exact h ▸ .refl s
  | some prev =>
      simp only [hprev] at h
      have hunlink := unlinkLnode_relinked s (s.cpuTrees c).listPtr prev
      obtain ⟨cur, -, h⟩ := Option.bind_eq_some_iff.mp h
      cases cur with
      | none =>
          obtain ⟨first, -, rfl⟩ := Option.map_eq_some_iff.mp h
          exact (((hunlink.setListNext _ _).setListPrev _ _).setListPrev _ _).setHead _
      | some cur =>
          simp only at h
          split at h
          · cases h
            split
            · exact ((hunlink.setListNext _ _).setListPrev _ _).setListNext _ _
            · exact (((hunlink.setListNext _ _).setListPrev _ _).setListPrev _ _).setListNext _ _
          · cases h
            exact .refl s

theorem moveSmallestBody_onlyList (h : moveSmallestBody fuel s head = some s') : OnlyList s s' :=
  (moveSmallestBody_relinked h).onlyList

theorem moveLeftBody_onlyList (h : moveLeftBody fuel s c = some s') : OnlyList s s' :=
  (moveLeftBody_relinked h).onlyList

theorem cpuTreeListMoveSmallest_keeps (h : cpuTreeListMoveSmallest fuel s = some s') :
    KeepsSleepers s s' := by
  obtain ⟨s₁, hlock, h⟩ := Option.bind_eq_some_iff.mp h
  obtain ⟨head, -, h⟩ := Option.bind_eq_some_iff.mp h
  obtain ⟨s₂, hbody, rfl⟩ := Option.map_eq_some_iff.mp h
  exact ((KeepsSleepers.lockList hlock).trans (moveSmallestBody_onlyList hbody).keepsSleepers).trans
    (.of_eq rfl rfl rfl)

theorem cpuTreeListMoveLeft_keeps (h : cpuTreeListMoveLeft fuel s c = some s') :
    KeepsSleepers s s' := by
  obtain ⟨s₁, hlock, h⟩ := Option.bind_eq_some_iff.mp h
  obtain ⟨s₂, hbody, rfl⟩ := Option.map_eq_some_iff.mp h
  exact ((KeepsSleepers.lockList hlock).trans (moveLeftBody_onlyList hbody).keepsSleepers).trans
    (.of_eq rfl rfl rfl)

theorem startCore_keeps (env : SchedEnv) (s : Sched) (core : Nat) :
    KeepsSleepers s (startCore env s core) := by
  unfold startCore
  split
  · exact .refl s
  · split <;> exact .of_eq rfl rfl rfl

theorem schedulerQueueThread_keeps (h : schedulerQueueThread env fuel s th = some s') :
    KeepsSleepers s s' := by
  obtain ⟨head, -, h⟩ := Option.bind_eq_some_iff.mp h
  obtain ⟨s₁, hlock, h⟩ := Option.bind_eq_some_iff.mp h
  obtain ⟨v, -, h⟩ := Option.bind_eq_some_iff.mp h
  obtain ⟨s₂, hadd, h⟩ := Option.bind_eq_some_iff.mp h
  obtain ⟨s₃, hmove, hprint⟩ := Option.bind_eq_some_iff.mp h
  obtain rfl := printCpuTreeList_eq hprint
  obtain ⟨w, -, hadd⟩ := Option.bind_eq_some_iff.mp hadd
  have hset := KeepsSleepers.setThread s₁ th { s₁.thread th with vruntime := v } rfl rfl
  have hadded := (KeepsSleepers.setUpNode env _ _ th w).trans (KeepsSleepers.threadTreeInsert hadd)
  have hmoved := (KeepsSleepers.unlockTree s₂ _).trans (cpuTreeListMoveSmallest_keeps hmove)
  exact (((KeepsSleepers.lockTree hlock).trans hset).trans hadded).trans
    (hmoved.trans (startCore_keeps env s₃ _))

theorem threadTreeRemove_keeps (h : threadTreeRemove fuel s th = some s') : KeepsSleepers s s' := by
  obtain ⟨r, hdel, rfl⟩ := Option.map_eq_some_iff.mp h
  refine KeepsSleepers.trans ?_ (KeepsSleepers.threadTreeDelete hdel)
  exact .setTree s (s.thread th).tree _ rfl

theorem schedulerDequeueThread_keeps (h : schedulerDequeueThread fuel s th = some s') :
    KeepsSleepers s s' ∧ ∀ a, (s'.thread a).tree = (s.thread a).tree := by
  constructor
  · obtain ⟨s₁, hlock, h⟩ := Option.bind_eq_some_iff.mp h
    obtain ⟨s₂, hremove, h⟩ := Option.bind_eq_some_iff.mp h
    obtain ⟨s₃, hmove, hprint⟩ := Option.bind_eq_some_iff.mp h
    obtain rfl := printCpuTreeList_eq hprint
    exact ((KeepsSleepers.lockTree hlock).trans (threadTreeRemove_keeps hremove)).trans
      ((KeepsSleepers.unlockTree s₂ _).trans (cpuTreeListMoveLeft_keeps hmove))
  · obtain ⟨s₁, s₂, hleft, hbody, rfl⟩ := schedulerDequeueThread_parts h
    intro a
    refine Eq.trans ?_ (hleft.tree a)
    show (s₂.thread a).tree = _
    rw [(moveLeftBody_onlyList hbody).thread]

/-- A job is given away: the thread at the root goes to the CPU at the head of the list. -/
theorem giveJobs_parts {amt : Nat} (h : giveJobs env fuel cpu (amt + 1) s = some s') :
    ∃ root s₁ s₂ s₃, (s.cpuTrees cpu).root = some root ∧
      threadTreeRemove fuel s (s.node root).item = some s₁ ∧
      cpuTreeListMoveLeft fuel s₁ cpu = some s₂ ∧
      schedulerQueueThread env fuel s₂ (s.node root).item = some s₃ ∧
      giveJobs env fuel cpu amt s₃ = some s' := by
  obtain ⟨root, hroot, h⟩ := Option.bind_eq_some_iff.mp h
  obtain ⟨s₁, hremove, h⟩ := Option.bind_eq_some_iff.mp h
  obtain ⟨s₂, hmove, h⟩ := Option.bind_eq_some_iff.mp h
  obtain ⟨s₃, hqueue, h⟩ := Option.bind_eq_some_iff.mp h
  exact ⟨root, s₁, s₂, s₃, hroot, hremove, hmove, hqueue, h⟩

theorem giveJobs_keeps {amt : Nat} (h : giveJobs env fuel cpu amt s = some s') :
    KeepsSleepers s s' := by
  induction amt generalizing s with
  | zero =>
      cases h
      exact .refl _
  | succ amt ih =>
      obtain ⟨root, s₁, s₂, s₃, -, hremove, hmove, hqueue, h⟩ := giveJobs_parts h
      exact (((threadTreeRemove_keeps hremove).trans (cpuTreeListMoveLeft_keeps hmove)).trans
        (schedulerQueueThread_keeps hqueue)).trans (ih h)

theorem giveAway_keeps {timerVal : Nat} (h : giveAway env fuel cpu timerVal s = some s') :
    KeepsSleepers s s' := by
  unfold giveAway at h
  split at h
  · obtain ⟨head, -, h⟩ := Option.bind_eq_some_iff.mp h
    obtain ⟨s₁, hgive, rfl⟩ := Option.map_eq_some_iff.mp h
    have hset := KeepsSleepers.setTree s₁ cpu { s₁.cpuTrees cpu with lastGiveTime := timerVal } rfl
    split at hgive
    · exact (giveJobs_keeps hgive).trans hset
    · cases hgive
      exact hset
  · cases h
    exact .refl s

theorem chargeThread_keeps (env : SchedEnv) (passed : Nat) (s : Sched) (th : Nat) :
    KeepsSleepers s (chargeThread env passed s th) := .setThread s th _ rfl rfl

theorem switchThread_keeps {passed : Nat} {r : Sched × Option Nat}
    (h : switchThread env fuel cpu passed s = some r) : KeepsSleepers s r.1 := by
  unfold switchThread at h
  cases hroot : (s.cpuTrees cpu).root with
  | none =>
      simp only [hroot, Option.some.injEq] at h
      subst h
      exact .unlockTree s cpu
  | some root =>
      simp only [hroot] at h
      obtain ⟨n, -, h⟩ := Option.bind_eq_some_iff.mp h
      split at h
      · cases h
      · obtain ⟨⟨s₁, rootAddr⟩, hdel, h⟩ := Option.bind_eq_some_iff.mp h
        obtain ⟨s₂, hins, rfl⟩ := Option.map_eq_some_iff.mp h
        have hput : KeepsSleepers s₁ (s₁.setNode rootAddr (s.node n)) := .of_eq rfl rfl rfl
        have hcharged := (chargeThread_keeps env passed s _).trans (KeepsSleepers.threadTreeDelete hdel)
        exact ((hcharged.trans hput).trans (KeepsSleepers.threadTreeInsert hins)).trans
          ((KeepsSleepers.unlockTree s₂ cpu).trans (.of_eq rfl rfl rfl))

end UntitledOs.Mtask
