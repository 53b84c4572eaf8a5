import UntitledOs.Mtask.Scheduler

/-!
# The run queue of a single CPU

Threads are added to the tree of CPU 0 and the timer switches between them.  A
switch deletes the leftmost thread and puts it back in; as long as the deletions
are safe, the queue stays sorted and keeps its threads.
-/

namespace UntitledOs.Mtask

open UntitledOs.Lib UntitledOs.RbTree

variable {env : SchedEnv} {s s' : Sched} {ths : List Nat} {cpu : Nat}

section ThreadTree

variable {t t' : Tree Nat Threads} {shape : BinaryTree Nat} {cells : List Nat} {n : Nat}

/-- The items of the cells are in order of their `vruntime`. -/
def SortedBy (ths : Threads) (items : List Nat) : Prop :=
  items.Pairwise fun a b => (ths a).vruntime ≤ (ths b).vruntime

variable {pre post : List Nat}

/-- Nodes in front of a new one are not behind it in order, those after it are. -/
theorem SortedBy.splits (h : SortedBy t.ext (cells.map t.item))
    (hsplit : SplitsAt (fun a => threadTreeKind.less t.ext (t.item n) (t.item a)) cells pre post) :
    (∀ a ∈ pre, (t.ext (t.item a)).vruntime ≤ (t.ext (t.item n)).vruntime) ∧
      ∀ a ∈ post, (t.ext (t.item n)).vruntime < (t.ext (t.item a)).vruntime := by
  rw [SortedBy, List.pairwise_map] at h
  obtain ⟨hpre, hpost⟩ := hsplit.2 (h.imp fun hab hlt => by
    simp only [threadTreeKind, decide_eq_true_eq] at hlt ⊢
    omega)
  simp only [threadTreeKind, decide_eq_false_iff_not, decide_eq_true_eq] at hpre hpost
  exact ⟨fun a ha => not_lt.mp (hpre a ha), hpost⟩

theorem SortedBy.insert (h : SortedBy t.ext (cells.map t.item))
    (hsplit : SplitsAt (fun a => threadTreeKind.less t.ext (t.item n) (t.item a)) cells pre post) :
    SortedBy t.ext ((pre ++ n :: post).map t.item) := by
  obtain ⟨hpre, hpost⟩ := h.splits hsplit
  rw [SortedBy, List.pairwise_map, hsplit.1, List.pairwise_append] at h
  rw [SortedBy, List.pairwise_map, List.pairwise_append, List.pairwise_cons]
  refine ⟨h.1, ⟨fun b hb => (hpost b hb).le, h.2.1⟩, ?_⟩
  intro a ha b hb
  rcases List.mem_cons.mp hb with rfl | hb
  · exact hpre a ha
  · exact h.2.2 a ha b hb

theorem insert_sorted (h : HoldsCells t cells) (hn : n ∉ cells)
    (hsorted : SortedBy t.ext (cells.map t.item)) :
    ∃ t' cells', Returns (fun fuel => t.insert threadTreeKind fuel n) t' ∧
      HoldsCells t' cells' ∧ cells'.Perm (n :: cells) ∧
      SortedBy t.ext (cells'.map t.item) ∧ (∀ a, t'.item a = t.item a) ∧ t'.ext = t.ext := by
  obtain ⟨pre, post, t', hins, hsplit, hholds, hperm, hitem, hext⟩ := h.insert threadTreeKind hn
  exact ⟨t', pre ++ n :: post, hins, hholds, hperm, hsorted.insert hsplit, hitem, hext⟩

end ThreadTree

/-- The tree of `cpu` holds exactly the threads `ths`, in order of their `vruntime`. -/
def QueueHolds (s : Sched) (cpu : Nat) (ths : List Nat) : Prop :=
  ∃ shape, Holds (s.tree cpu) shape ∧
    ((inorder shape).map (s.tree cpu).item).Perm ths ∧
    SortedBy s.thread ((inorder shape).map (s.tree cpu).item)

/-- The leftmost thread of the queue can be deleted from the tree. -/
def SwitchSafe (s : Sched) : Prop :=
  ∀ root n, (s.cpuTrees 0).root = some root →
    Returns (fun fuel => (s.tree 0).leftmost fuel root) n → DeleteSafe (s.tree 0) n

/-- The time slice of CPU 0 is over at `timerVal`. -/
def SliceElapsed (s : Sched) (timerVal : Nat) : Prop :=
  (s.cpuTrees 0).timeSlice ≤ timeSince (s.timerPrevVal 0) timerVal

/-- A timer interrupt on CPU 0. -/
def Switches (env : SchedEnv) (s : Sched) (timerVal : Nat) (r : Sched × Option Nat) : Prop :=
  Returns (fun fuel => schedulerAdvanceThreadQueue env fuel s 0 timerVal) r

/--
The next block of `kmalloc` is not a node of one of the `n` trees: a block is given
out again only after it was freed.
-/
def FreshBlock (env : SchedEnv) (n : Nat) (s : Sched) : Prop :=
  ∀ i < n, ∀ cells, HoldsCells (s.tree i) cells → env.kmalloc s.kmallocs ∉ cells

/--
The runs of a single CPU: threads are added, and the timer switches between them
in states that are `ok`.
-/
inductive RunQueue (env : SchedEnv) (ok : Sched → Prop) : Sched → List Nat → Prop
  | init (s : Sched) : RunQueue env ok (schedulerInit env s) []
  | sync {s : Sched} {ths : List Nat} (timerVal : Nat) (run : RunQueue env ok s ths) :
      RunQueue env ok (syncTimers env timerVal s) ths
  | add {s s' : Sched} {ths : List Nat} {th : Nat} (run : RunQueue env ok s ths)
      (fresh : th ∉ ths) (weight : 0 < (s.thread th).weight) (block : FreshBlock env 1 s)
      (returns : Returns (fun fuel => threadTreeAdd env fuel s 0 th) s') :
      RunQueue env ok s' (th :: ths)
  | switch {s s' : Sched} {ths : List Nat} {timerVal : Nat} {r : Option Nat}
      (run : RunQueue env ok s ths) (isOk : ok s) (elapsed : SliceElapsed s timerVal)
      (returns : Switches env s timerVal (s', r)) : RunQueue env ok s' ths

/-- What every state of such a run has. -/
structure QueueInv (s : Sched) (ths : List Nat) : Prop where
  cells : ∃ cells, HoldsCells (s.tree 0) cells ∧ (cells.map (s.tree 0).item).Perm ths ∧
    SortedBy s.thread (cells.map (s.tree 0).item)
  nodup : ths.Nodup
  weight : ∀ th ∈ ths, 0 < (s.thread th).weight
  list : ∃ head, s.cpuTreeList = some head ∧ (s.lnode head).tree = 0
  awake : (s.sleepPqueue 0).size = 0
  unlocked : (s.cpuTrees 0).lock = false

@[simp] theorem Sched.tree_putTree (s : Sched) (cpu : Nat) (t : Tree Nat Threads) :
    (s.putTree cpu t).tree cpu = t := by
  simp [Sched.putTree, Sched.tree, Sched.setTree]

theorem QueueInv.holds (h : QueueInv s ths) : QueueHolds s 0 ths := by
  obtain ⟨cells, ⟨shape, rfl, hshape⟩, hperm, hsorted⟩ := h.cells
  exact ⟨shape, hshape, hperm, hsorted⟩

theorem queueInv_init (hcore : env.coreNum = 1) (s : Sched) :
    QueueInv (schedulerInit env s) [] := by
  have hinit : schedulerInit env s =
      ({ schedulerInitCpu env { s with cpuTreeList := none } 0 with
          cpuTreeListLock := false } : Sched).setPrevThread 0 none := by
    simp [schedulerInit, hcore]
  rw [hinit]
  refine ⟨⟨[], ⟨.nil, rfl, ?_⟩, ?_⟩, ?_, ?_, ?_, ?_, ?_⟩
  · exact ⟨by simp [Sched.tree, Sched.setPrevThread, schedulerInitCpu, Sched.setSleepPqueue,
      Sched.setLnode, Sched.setTree], trivial, by simp⟩
  · simp [SortedBy]
  · simp
  · simp
  · exact ⟨env.kmalloc s.kmallocs, by simp [Sched.setPrevThread, schedulerInitCpu,
      Sched.setSleepPqueue, Sched.setLnode, Sched.setTree]⟩
  · simp [Sched.setPrevThread, schedulerInitCpu, Sched.setSleepPqueue, ThreadPqueue.init]
  · simp [Sched.setPrevThread, schedulerInitCpu, Sched.setSleepPqueue, Sched.setLnode,
      Sched.setTree]

theorem queueInv_sync (hcore : env.coreNum = 1) (h : QueueInv s ths) (timerVal : Nat) :
    QueueInv (syncTimers env timerVal s) ths := by
  have hsync : ∃ last prev, syncTimers env timerVal s =
      { s.setTree 0 { s.cpuTrees 0 with lastGiveTime := last } with timerPrevVal := prev } :=
    ⟨_, _, by rw [syncTimers, hcore]; rfl⟩
  obtain ⟨last, prev, hsync⟩ := hsync
  have htree : (syncTimers env timerVal s).tree 0 = s.tree 0 := by
    simp [hsync, Sched.tree, Sched.setTree]
  refine ⟨?_, h.nodup, ?_, ?_, ?_, ?_⟩
  · rw [htree]
    simpa [hsync, Sched.setTree] using h.cells
  · simpa [hsync, Sched.setTree] using h.weight
  · simpa [hsync, Sched.setTree] using h.list
  · simpa [hsync, Sched.setTree] using h.awake
  · simpa [hsync, Sched.setTree] using h.unlocked

theorem getMinVruntime_returns {cells : List Nat} (h : HoldsCells (s.tree cpu) cells) :
    ∃ v, Returns (fun fuel => getMinVruntime fuel s cpu) v := by
  obtain ⟨shape, rfl, hshape⟩ := h
  unfold getMinVruntime
  cases hroot : (s.cpuTrees cpu).root with
  | none => exact ⟨0, Returns.const 0⟩
  | some root =>
      have hroot' : Lib.root shape = some root := hshape.root.symm.trans hroot
      have hleft := leftmost_spec (c := .top) ((inorder shape).length + 1) hshape hroot' (by omega)
      cases hi : inorder shape with
      | nil =>
          have hmem := root_mem hroot'
          simp [hi] at hmem
      | cons n rest =>
          rw [hi] at hleft
          exact ⟨_, ((Tree.leftmost_steady _ _).returns _ hleft).map _⟩

section SetUpNode

variable (env s) (th v : Nat)

theorem thread_setUpNode_of_ne {x : Nat} (hx : x ≠ th) :
    (setUpNode env s cpu th v).thread x = s.thread x := by
  simp [setUpNode, Sched.setThread, Sched.setNode, Sched.setTree, hx]

theorem weight_setUpNode (x : Nat) :
    ((setUpNode env s cpu th v).thread x).weight = (s.thread x).weight := by
  by_cases hx : x = th
  · simp [setUpNode, Sched.setThread, Sched.setNode, Sched.setTree, hx]
  · rw [thread_setUpNode_of_ne env s th v hx]

theorem node_setUpNode_of_ne {a : Nat} (ha : a ≠ env.kmalloc s.kmallocs) :
    ((setUpNode env s cpu th v).tree cpu).node a = (s.tree cpu).node a := by
  simp [setUpNode, Sched.setThread, Sched.setNode, Sched.setTree, Sched.tree, ha]

theorem item_setUpNode :
    ((setUpNode env s cpu th v).tree cpu).item (env.kmalloc s.kmallocs) = th := by
  simp [setUpNode, Sched.setThread, Sched.setNode, Sched.setTree, Sched.tree, Tree.item]

theorem root_setUpNode : ((setUpNode env s cpu th v).tree cpu).root = (s.tree cpu).root := by
  simp [setUpNode, Sched.setThread, Sched.setNode, Sched.setTree, Sched.tree]

end SetUpNode

theorem SortedBy.congr {ts ts' : Threads} {items : List Nat} (h : SortedBy ts items)
    (hsame : ∀ x ∈ items, (ts' x).vruntime = (ts x).vruntime) : SortedBy ts' items := by
  refine List.Pairwise.imp_of_mem ?_ h
  intro a b ha hb hab
  rwa [hsame a ha, hsame b hb]

/-- `thread_tree_add` of a new thread returns and keeps the invariant. -/
theorem threadTreeAdd_spec (h : QueueInv s ths) {th : Nat} (fresh : th ∉ ths)
    (hweight : 0 < (s.thread th).weight) (block : FreshBlock env 1 s) :
    ∃ s', Returns (fun fuel => threadTreeAdd env fuel s 0 th) s' ∧ QueueInv s' (th :: ths) := by
  obtain ⟨cells, hcells, hperm, hsorted⟩ := h.cells
  obtain ⟨v, hmin⟩ := getMinVruntime_returns hcells
  have hnew : env.kmalloc s.kmallocs ∉ cells := block 0 Nat.one_pos cells hcells
  have hmem : ∀ x ∈ cells.map (s.tree 0).item, x ≠ th := by
    rintro x hx rfl
    exact fresh (hperm.mem_iff.mp hx)
  obtain ⟨hcells₁, hmap⟩ := hcells.congr (root_setUpNode env s th v) fun a ha =>
    node_setUpNode_of_ne env s th v fun hne => hnew (hne ▸ ha)
  have hsorted₁ : SortedBy (setUpNode env s 0 th v).thread
      (cells.map ((setUpNode env s 0 th v).tree 0).item) := by
    rw [hmap]
    exact hsorted.congr fun x hx => by rw [thread_setUpNode_of_ne env s th v (hmem x hx)]
  obtain ⟨t', cells', hins, hcells', hperm', hsorted', hitem, hext⟩ :=
    insert_sorted hcells₁ hnew hsorted₁
  refine ⟨(setUpNode env s 0 th v).putTree 0 t', hmin.bind (hins.map _), ?_⟩
  have hmap' : cells'.map t'.item = cells'.map ((setUpNode env s 0 th v).tree 0).item :=
    List.map_congr_left fun a _ => hitem a
  have hthread : ((setUpNode env s 0 th v).putTree 0 t').thread =
      (setUpNode env s 0 th v).thread := hext
  refine ⟨⟨cells', ?_, ?_, ?_⟩, ?_, ?_, ?_, ?_, ?_⟩
  · simpa using hcells'
  · rw [Sched.tree_putTree, hmap']
    refine (hperm'.map _).trans ?_
    rw [List.map_cons, item_setUpNode, hmap]
    exact hperm.cons th
  · rw [Sched.tree_putTree, hthread, hmap']
    exact hsorted'
  · exact List.nodup_cons.mpr ⟨fresh, h.nodup⟩
  · intro x hx
    rw [hthread, weight_setUpNode]
    rcases List.mem_cons.mp hx with rfl | hx
    · exact hweight
    · exact h.weight x hx
  · exact h.list
  · exact h.awake
  · simpa [setUpNode, Sched.putTree, Sched.setThread, Sched.setNode, Sched.setTree] using h.unlocked

/-- `s'` is `s` apart from threads, nodes and trees. -/
structure SameLists (s s' : Sched) : Prop where
  cpuTreeList : s'.cpuTreeList = s.cpuTreeList
  lnode : s'.lnode = s.lnode
  sleepPqueue : s'.sleepPqueue = s.sleepPqueue

theorem deleted_thread {t t' : Tree Nat Threads} {cells : List Nat} {n f : Nat}
    (h : Deleted threadTreeKind t t' cells n f) (x : Nat) :
    (t'.ext x).vruntime = (t.ext x).vruntime ∧ (t'.ext x).weight = (t.ext x).weight := by
  refine h.ext (fun ts => (ts x).vruntime = (t.ext x).vruntime ∧ (ts x).weight = (t.ext x).weight)
    ?_ ⟨rfl, rfl⟩
  intro th a ts hts
  by_cases hx : x = th
  · subst hx
    simpa [threadTreeKind] using hts
  · simpa [threadTreeKind, hx] using hts

section ChargeThread

variable (env s) (passed : Nat) {th x : Nat}

theorem vruntime_chargeThread (hx : x ≠ th) :
    ((chargeThread env passed s th).thread x).vruntime = (s.thread x).vruntime := by
  simp [chargeThread, Sched.setThread, hx]

theorem weight_chargeThread (th x : Nat) :
    ((chargeThread env passed s th).thread x).weight = (s.thread x).weight := by
  by_cases hx : x = th
  · simp [chargeThread, Sched.setThread, hx]
  · simp [chargeThread, Sched.setThread, hx]

end ChargeThread

/-- One switch: the least thread is returned, and the queue holds the same threads. -/
theorem switchThread_spec {cells : List Nat} (passed : Nat) (hcells : HoldsCells (s.tree 0) cells)
    (hperm : (cells.map (s.tree 0).item).Perm ths)
    (hsorted : SortedBy s.thread (cells.map (s.tree 0).item)) (hnodup : ths.Nodup)
    (hweight : ∀ th ∈ ths, 0 < (s.thread th).weight) (hne : ths ≠ []) (hsafe : SwitchSafe s) :
    ∃ s' th, Returns (fun fuel => switchThread env fuel 0 passed s) (s', some th) ∧
      th ∈ ths ∧ (∀ x ∈ ths, (s.thread th).vruntime ≤ (s.thread x).vruntime) ∧
      (∃ cells', HoldsCells (s'.tree 0) cells' ∧ (cells'.map (s'.tree 0).item).Perm ths ∧
        SortedBy s'.thread (cells'.map (s'.tree 0).item)) ∧
      (∀ x, (s'.thread x).weight = (s.thread x).weight) ∧ (s'.cpuTrees 0).lock = false ∧
      SameLists s s' := by
  obtain ⟨shape, rfl, hshape⟩ := hcells
  obtain ⟨n, rest, hcons⟩ : ∃ n rest, inorder shape = n :: rest := by
    refine List.exists_cons_of_ne_nil fun hnil => hne ?_
    simpa [hnil] using hperm
  obtain ⟨root, hroot⟩ : ∃ root, Lib.root shape = some root := by
    refine Option.ne_none_iff_exists'.mp fun hnone => ?_
    simp [root_eq_none.mp hnone] at hcons
  have hroot' : (s.cpuTrees 0).root = some root := hshape.root.trans hroot
  have hleft := leftmost_spec (c := .top) ((inorder shape).length + 1) hshape hroot (by omega)
  rw [hcons, List.head?_cons] at hleft
  have hn : n ∈ inorder shape := by simp [hcons]
  have hrest : (inorder shape).erase n = rest := by simp [hcons]
  set th := (s.tree 0).item n with hth
  have hmap : (inorder shape).map (s.tree 0).item = th :: rest.map (s.tree 0).item := by
    rw [hcons, List.map_cons]
  rw [hmap] at hperm hsorted
  have hthmem : th ∈ ths := hperm.mem_iff.mp (by simp)
  have hmin : ∀ x ∈ ths, (s.thread th).vruntime ≤ (s.thread x).vruntime := by
    intro x hx
    rcases List.mem_cons.mp (hperm.mem_iff.mpr hx) with rfl | hx
    · exact le_rfl
    · exact (List.pairwise_cons.mp hsorted).1 x hx
  have hthrest : ∀ x ∈ rest.map (s.tree 0).item, x ≠ th := by
    rintro x hx rfl
    exact (List.nodup_cons.mp (hperm.nodup_iff.mpr hnodup)).1 hx
  -- the thread is charged, its node deleted, overwritten with its copy and inserted again
  set s₁ := chargeThread env passed s th with hs₁
  have hshape₁ : Holds (s₁.tree 0) shape := hshape.congr rfl (fun _ _ _ => rfl) fun _ _ => rfl
  have hsafe₁ : DeleteSafe (s₁.tree 0) n :=
    hsafe root n hroot' ((Tree.leftmost_steady _ _).returns _ hleft)
  have hleft₁ : (s₁.tree 0).child .left n = none := leftmost_left (t := s.tree 0) hleft
  obtain ⟨t', f, hdel, hdeleted, horder⟩ :=
    delete_one (k := threadTreeKind) hshape₁ hn (.inl hleft₁) hsafe₁ 0
  have hdel' : Returns (fun fuel => threadTreeDelete fuel s₁ 0 n) (s₁.putTree 0 t', f) :=
    ((Tree.delete_steady _ _ _).returns _ hdel).map _
  have hf : f ∉ (inorder shape).erase f := hshape.nodup.not_mem_erase
  set s₂ := (s₁.putTree 0 t').setNode f (s.node n) with hs₂
  have hitemf : (s₂.tree 0).item f = th := by
    simp [hs₂, Sched.tree, Sched.setNode, Tree.item, hth]
  obtain ⟨hholds₂, hmap₂⟩ := @HoldsCells.congr _ _ _ (s₂.tree 0) _ hdeleted.holds
    (by simp [hs₂, Sched.tree, Sched.setNode, Sched.putTree, Sched.setTree]) (by
      intro a ha
      have haf : a ≠ f := by rintro rfl; exact hf ha
      simp [hs₂, Sched.tree, Sched.setNode, Sched.putTree, haf])
  have hmap₂' : ((inorder shape).erase f).map (s₂.tree 0).item = rest.map (s.tree 0).item := by
    rw [hmap₂, ← hrest]
    exact horder
  have hthread₂ : ∀ x, x ≠ th → (s₂.thread x).vruntime = (s.thread x).vruntime := by
    intro x hx
    exact (deleted_thread hdeleted x).1.trans (vruntime_chargeThread env s passed hx)
  have hsorted₂ : SortedBy s₂.thread (((inorder shape).erase f).map (s₂.tree 0).item) := by
    rw [hmap₂']
    exact SortedBy.congr (List.pairwise_cons.mp hsorted).2 fun x hx => hthread₂ x (hthrest x hx)
  obtain ⟨t'', cells'', hins, hholds₃, hperm₃, hsorted₃, hitem₃, hext₃⟩ :=
    insert_sorted hholds₂ hf hsorted₂
  have hmap₃ : cells''.map t''.item = cells''.map (s₂.tree 0).item :=
    List.map_congr_left fun a _ => hitem₃ a
  have hins' : Returns (fun fuel => threadTreeInsert fuel s₂ 0 f) (s₂.putTree 0 t'') := hins.map _
  have hfitem : ((s₂.putTree 0 t'').node f).item = th := (hitem₃ f).trans hitemf
  set s' := ((s₂.putTree 0 t'').unlockTree 0).setPrevThread 0 (some th) with hs'
  have htree' : s'.tree 0 = t'' := by
    simp [hs', Sched.unlockTree, Sched.setPrevThread, Sched.tree, Sched.setTree, Sched.putTree]
  have hthread' : s'.thread = s₂.thread := hext₃
  refine ⟨s', th, ?_, hthmem, hmin, ⟨cells'', ?_, ?_, ?_⟩, ?_, ?_, ?_⟩
  · have hpos : ¬(s.thread (s.node n).item).weight = 0 := (hweight th hthmem).ne'
    have hfinish : finishSwitch (s₂.putTree 0 t'') 0 f = (s', some th) := by
      rw [hs', ← hfitem]
      rfl
    unfold switchThread
    simp only [hroot']
    refine Returns.bind ((Tree.leftmost_steady _ _).returns _ hleft) ?_
    simp only [hpos, if_false]
    rw [← hfinish]
    exact Returns.bind hdel' (hins'.map fun s => finishSwitch s 0 f)
  · rwa [htree']
  · rw [htree', hmap₃]
    refine (hperm₃.map _).trans ?_
    rw [List.map_cons, hitemf, hmap₂']
    exact hperm
  · rw [htree', hmap₃]
    exact hsorted₃.congr fun x _ => by rw [hthread']; rfl
  · intro x
    rw [hthread']
    exact (deleted_thread hdeleted x).2.trans (weight_chargeThread env s passed th x)
  · simp [hs', Sched.unlockTree, Sched.setPrevThread, Sched.setTree]
  · exact ⟨rfl, rfl, rfl⟩

/-- On a single CPU nobody sleeps and nothing is given away: an interrupt is a switch. -/
theorem advance_eq (h : QueueInv s ths) {timerVal : Nat} (helapsed : SliceElapsed s timerVal) :
    ∃ last prev, ∀ fuel, schedulerAdvanceThreadQueue env (fuel + 1) s 0 timerVal =
      switchThread env (fuel + 1) 0 (timeSince (s.timerPrevVal 0) timerVal)
        { s.setTree 0 { s.cpuTrees 0 with lock := true, lastGiveTime := last } with
            timerPrevVal := prev } := by
  obtain ⟨head, hlist, hhead⟩ := h.list
  have hths : (if s.timerPrevVal 0 > timerVal then
      (s.sleepPqueue 0).resetOverflow s.thread else s.thread) = s.thread := by
    simp [ThreadPqueue.resetOverflow, h.awake]
  have hlock : s.lockTree 0 = some (s.setTree 0 { s.cpuTrees 0 with lock := true }) := by
    simp [Sched.lockTree, h.unlocked]
  have hslice : ¬timeSince (s.timerPrevVal 0) timerVal < (s.cpuTrees 0).timeSlice := not_lt.mpr helapsed
  have hgive : ∃ last, ∀ fuel, giveAway env fuel 0 timerVal
      (s.setTree 0 { s.cpuTrees 0 with lock := true }) =
        some (s.setTree 0 { s.cpuTrees 0 with lock := true, lastGiveTime := last }) := by
    by_cases hpassed : timeSince (s.cpuTrees 0).lastGiveTime timerVal ≥ taskGiveDelay
    · refine ⟨timerVal, fun fuel => ?_⟩
      have hdiff : ∀ c, sub64 c c = 0 := by intro c; simp [sub64, u64]
      simp [giveAway, Sched.setTree, hpassed, hlist, Sched.cntOf, hhead, hdiff, taskGiveThresMin]
    · refine ⟨(s.cpuTrees 0).lastGiveTime, fun fuel => ?_⟩
      simp [giveAway, Sched.setTree, hpassed]
  obtain ⟨last, hgive⟩ := hgive
  refine ⟨last, Function.update s.timerPrevVal 0 timerVal, fun fuel => ?_⟩
  unfold schedulerAdvanceThreadQueue
  simp only [hths, wakeSleepers, h.awake, if_true, Option.bind_some, hlock, hgive]
  rw [if_neg (by simpa [Sched.setTree] using hslice)]
  rfl

/-- A timer interrupt in a safe state returns the least thread and keeps the invariant. -/
theorem switch_spec (h : QueueInv s ths) {timerVal : Nat} (helapsed : SliceElapsed s timerVal)
    (hne : ths ≠ []) (hsafe : SwitchSafe s) :
    ∃ s' th, Switches env s timerVal (s', some th) ∧ th ∈ ths ∧
      (∀ x ∈ ths, (s.thread th).vruntime ≤ (s.thread x).vruntime) ∧ QueueInv s' ths := by
  obtain ⟨last, prev, hadv⟩ := @advance_eq env _ _ h _ helapsed
  obtain ⟨cells, hcells, hperm, hsorted⟩ := h.cells
  set s₁ : Sched := { s.setTree 0 { s.cpuTrees 0 with lock := true, lastGiveTime := last } with
    timerPrevVal := prev } with hs₁
  have htree : s₁.tree 0 = s.tree 0 := by simp [hs₁, Sched.tree, Sched.setTree]
  have hroot : (s₁.cpuTrees 0).root = (s.cpuTrees 0).root := by simp [hs₁, Sched.setTree]
  obtain ⟨s', th, hret, hth, hmin, ⟨cells', hcells', hperm', hsorted'⟩, hweight, hlock, hsame⟩ :=
    @switchThread_spec env s₁ _ _ (timeSince (s.timerPrevVal 0) timerVal)
      (by rwa [htree]) (by rwa [htree]) (by rw [htree]; exact hsorted) h.nodup h.weight hne
      (by rw [SwitchSafe, hroot, htree]; exact hsafe)
  refine ⟨s', th, Returns.of_succ hadv hret, hth, hmin, ⟨cells', hcells', hperm', hsorted'⟩,
    h.nodup, ?_, ?_, ?_, hlock⟩
  · intro x hx
    rw [hweight]
    exact h.weight x hx
  · obtain ⟨head, hlist, hhead⟩ := h.list
    exact ⟨head, by rw [hsame.cpuTreeList]; exact hlist, by rw [hsame.lnode]; exact hhead⟩
  · rw [hsame.sleepPqueue]
    exact h.awake

theorem switchThread_empty (env : SchedEnv) (passed : Nat) (hroot : (s.cpuTrees cpu).root = none) :
    Returns (fun fuel => switchThread env fuel cpu passed s) (s.unlockTree cpu, none) := by
  simp only [switchThread, hroot]
  exact Returns.const _

theorem switch_empty (h : QueueInv s []) {timerVal : Nat} (helapsed : SliceElapsed s timerVal) :
    ∃ s', Switches env s timerVal (s', none) ∧ QueueInv s' [] := by
  obtain ⟨last, prev, hadv⟩ := @advance_eq env _ _ h _ helapsed
  obtain ⟨cells, hcells, hperm, -⟩ := h.cells
  obtain rfl : cells = [] := by simpa using hperm
  obtain ⟨shape, hnil, hshape⟩ := hcells
  have hroot : (s.cpuTrees 0).root = none := by
    refine hshape.root.trans (Option.eq_none_iff_forall_ne_some.mpr fun a ha => ?_)
    have hmem := root_mem ha
    simp [hnil] at hmem
  set s₁ : Sched := { s.setTree 0 { s.cpuTrees 0 with lock := true, lastGiveTime := last } with
    timerPrevVal := prev } with hs₁
  have hroot₁ : (s₁.cpuTrees 0).root = none := by simp [hs₁, Sched.setTree, hroot]
  have hret := switchThread_empty env (timeSince (s.timerPrevVal 0) timerVal) hroot₁
  refine ⟨_, Returns.of_succ hadv hret, ⟨[], ⟨.nil, rfl, ?_⟩, ?_⟩, h.nodup, ?_, h.list, h.awake, ?_⟩
  · exact ⟨by simpa [Sched.tree, Sched.unlockTree, Sched.setTree] using hroot₁, trivial, by simp⟩
  · simp [SortedBy]
  · simp
  · simp [Sched.unlockTree, Sched.setTree]

theorem runQueue_inv (hcore : env.coreNum = 1) (hrun : RunQueue env SwitchSafe s ths) :
    QueueInv s ths := by
  induction hrun with
  | init s => exact queueInv_init hcore s
  | sync timerVal _ ih => exact queueInv_sync hcore ih timerVal
  | add _ fresh weight block returns ih =>
      obtain ⟨s', hret, hinv⟩ := threadTreeAdd_spec ih fresh weight block
      exact returns.unique hret ▸ hinv
  | @switch s s' ths timerVal r _ isOk elapsed returns ih =>
      by_cases hne : ths = []
      · subst hne
        obtain ⟨s₁, hret, hinv⟩ := switch_empty ih elapsed
        obtain ⟨rfl, -⟩ := Prod.mk.inj (Returns.unique returns hret)
        exact hinv
      · obtain ⟨s₁, th, hret, -, -, hinv⟩ := switch_spec ih elapsed hne isOk
        obtain ⟨rfl, -⟩ := Prod.mk.inj (Returns.unique returns hret)
        exact hinv

/--
In every run of a single CPU whose switches are all safe the queue holds the
threads that were added, each in one node, in order of their `vruntime`; adding
a thread returns, and the next safe switch returns a thread of the least
`vruntime` and again leaves the same threads in order.
-/
theorem run_queue_correct (hcore : env.coreNum = 1) (hrun : RunQueue env SwitchSafe s ths) :
    QueueHolds s 0 ths ∧
    (∀ th, th ∉ ths → 0 < (s.thread th).weight → FreshBlock env 1 s →
      ∃ s', Returns (fun fuel => threadTreeAdd env fuel s 0 th) s' ∧ QueueHolds s' 0 (th :: ths)) ∧
    ∀ timerVal, SliceElapsed s timerVal → SwitchSafe s → ths ≠ [] →
      ∃ s' th, Switches env s timerVal (s', some th) ∧ th ∈ ths ∧
        (∀ x ∈ ths, (s.thread th).vruntime ≤ (s.thread x).vruntime) ∧ QueueHolds s' 0 ths := by
  have hinv := runQueue_inv hcore hrun
  refine ⟨hinv.holds, ?_, ?_⟩
  · intro th fresh weight block
    obtain ⟨s', hret, hinv'⟩ := threadTreeAdd_spec hinv fresh weight block
    exact ⟨s', hret, hinv'.holds⟩
  · intro timerVal helapsed hsafe hne
    obtain ⟨s', th, hret, hth, hmin, hinv'⟩ := switch_spec hinv helapsed hne hsafe
    exact ⟨s', th, hret, hth, hmin, hinv'.holds⟩

section Examples

/-- `FreshBlock`, read off the trees. -/
def freshBlockCheck (env : SchedEnv) (n fuel : Nat) (s : Sched) : Bool :=
  (List.range n).all fun i =>
    ((s.tree i).readCells fuel).any fun cells => decide (env.kmalloc s.kmallocs ∉ cells)

theorem freshBlock_of_check {n fuel : Nat} (h : freshBlockCheck env n fuel s = true) :
    FreshBlock env n s := by
  intro i hi cells hcells
  obtain ⟨cells', hread, hnot⟩ := (Option.any_eq_true _ _).mp
    (List.all_eq_true.mp h i (List.mem_range.mpr hi))
  rw [hcells.unique (HoldsCells.of_readCells hread)]
  exact of_decide_eq_true hnot

/-- `SwitchSafe`, read off the tree. -/
def switchSafeCheck (fuel : Nat) (s : Sched) : Bool :=
  match (s.cpuTrees 0).root with
  | none => true
  | some root => ((s.tree 0).leftmost fuel root).any fun n => decide (DeleteSafe (s.tree 0) n)

theorem switchSafe_of_check {fuel : Nat} (h : switchSafeCheck fuel s = true) : SwitchSafe s := by
  intro root n hroot hret
  rw [switchSafeCheck, hroot] at h
  obtain ⟨n', hleft, hsafe⟩ := (Option.any_eq_true _ _).mp h
  obtain rfl := hret.unique ((Tree.leftmost_steady _ _).returns fuel hleft)
  exact of_decide_eq_true hsafe

inductive QueueEvent
  | add (th : Nat)
  | switch (timerVal : Nat)

/-- One step of a run, or `none` where the run has no such step. -/
def queueStep (env : SchedEnv) (ok : Sched → Bool) (fuel : Nat) (r : Sched × List Nat) :
    QueueEvent → Option (Sched × List Nat)
  | .add th =>
      if th ∉ r.2 ∧ 0 < (r.1.thread th).weight ∧ freshBlockCheck env 1 fuel r.1 = true then
        (threadTreeAdd env fuel r.1 0 th).map fun s => (s, th :: r.2)
      else none
  | .switch timerVal =>
      if ok r.1 = true ∧
          (r.1.cpuTrees 0).timeSlice ≤ timeSince (r.1.timerPrevVal 0) timerVal then
        (schedulerAdvanceThreadQueue env fuel r.1 0 timerVal).map fun r' => (r'.1, r.2)
      else none

theorem runQueue_of_steps (fuel : Nat) {ok : Sched → Prop} {check : Sched → Bool}
    (hok : ∀ s, check s = true → ok s) (events : List QueueEvent) (hrun : RunQueue env ok s ths)
    {r : Sched × List Nat} (hr : events.foldlM (queueStep env check fuel) (s, ths) = some r) :
    RunQueue env ok r.1 r.2 := by
  induction events generalizing s ths with
  | nil =>
      obtain rfl : (s, ths) = r := Option.some.inj hr
      exact hrun
  | cons event events ih =>
      rw [List.foldlM_cons] at hr
      obtain ⟨⟨s₁, ths₁⟩, hstep, hr⟩ := Option.bind_eq_some_iff.mp hr
      refine ih ?_ hr
      cases event with
      | add th =>
          rw [queueStep] at hstep
          split at hstep
          · rename_i hth
            obtain ⟨fresh, weight, block⟩ := hth
            obtain ⟨s', hadd, hs'⟩ := Option.map_eq_some_iff.mp hstep
            obtain ⟨rfl, rfl⟩ := Prod.mk.inj hs'
            exact hrun.add fresh weight (freshBlock_of_check block)
              ((threadTreeAdd_steady _ _ _ _).returns _ hadd)
          · cases hstep
      | switch timerVal =>
          rw [queueStep] at hstep
          split at hstep
          · rename_i hswitch
            obtain ⟨hsafe, helapsed⟩ := hswitch
            obtain ⟨⟨s', th⟩, hadv, hs'⟩ := Option.map_eq_some_iff.mp hstep
            obtain ⟨rfl, rfl⟩ := Prod.mk.inj hs'
            exact hrun.switch (hok s hsafe) helapsed
              ((schedulerAdvanceThreadQueue_steady _ _ _ _).returns _ hadv)
          · cases hstep

/-- A CPU with a tick of one nanosecond, and a `kmalloc` that gives one block after the other. -/
def oneCpu : SchedEnv := ⟨fun k => 100 + k, 1, 1, fun _ => true⟩

/-- Memory before `scheduler_init`: all threads have the default weight. -/
def blankSched : Sched where
  thread _ := ⟨0, defaultWeight, 0, 0, 0, 0⟩
  node _ := ⟨0, .black, fun _ => none, none⟩
  cpuTrees _ := ⟨none, 0, 0, 0, 0, 0, false⟩
  lnode _ := ⟨0, none, none⟩
  cpuTreeList := none
  cpuTreeListLock := false
  sleepPqueue _ := .init
  prevThreads _ := none
  timerPrevVal _ := 0
  jmpLoc _ := false
  kmallocs := 0

def afterSteps (check : Sched → Bool) (events : List QueueEvent) : Option (Sched × List Nat) :=
  events.foldlM (queueStep oneCpu check 20) (schedulerInit oneCpu blankSched, [])

/-- Three threads, and a switch after 50 milliseconds. -/
def oneSwitch : List QueueEvent := [.add 1, .add 2, .add 3, .switch 50000000]

theorem oneSwitch_runs :
    (afterSteps (switchSafeCheck 20) oneSwitch).map (fun r =>
      (r.2, (r.1.thread 4).weight, (r.1.cpuTrees 0).timeSlice, r.1.timerPrevVal 0,
        freshBlockCheck oneCpu 1 20 r.1, switchSafeCheck 20 r.1)) =
      some ([3, 2, 1], 1024, 16000000, 50000000, true, true) := by decide +kernel

/-- After a safe switch a fourth thread is added, or the next safe switch is made. -/
theorem run_queue_correct_oneSwitch :
    ∃ s, afterSteps (switchSafeCheck 20) oneSwitch = some (s, [3, 2, 1]) ∧
      QueueHolds s 0 [3, 2, 1] ∧
      (∃ s', Returns (fun fuel => threadTreeAdd oneCpu fuel s 0 4) s' ∧
        QueueHolds s' 0 [4, 3, 2, 1]) ∧
      ∃ s' th, Switches oneCpu s 100000000 (s', some th) ∧ th ∈ [3, 2, 1] ∧
        (∀ x ∈ [3, 2, 1], (s.thread th).vruntime ≤ (s.thread x).vruntime) ∧
        QueueHolds s' 0 [3, 2, 1] := by
  obtain ⟨⟨s, ths⟩, hsteps, hfacts⟩ := Option.map_eq_some_iff.mp oneSwitch_runs
  simp only [Prod.mk.injEq] at hfacts
  obtain ⟨rfl, hweight, hslice, hprev, hblock, hsafe⟩ := hfacts
  have hrun : RunQueue oneCpu SwitchSafe s [3, 2, 1] :=
    runQueue_of_steps 20 (fun _ => switchSafe_of_check) oneSwitch (.init blankSched) hsteps
  have helapsed : SliceElapsed s 100000000 := by
    rw [SliceElapsed, hslice, hprev]
    decide
  obtain ⟨hholds, hadd, hswitch⟩ := run_queue_correct rfl hrun
  exact ⟨s, hsteps, hholds, hadd 4 (by decide) (by omega) (freshBlock_of_check hblock),
    hswitch 100000000 helapsed (switchSafe_of_check hsafe) (by decide)⟩

/-- Four threads, and switches after 50 and after 100 milliseconds. -/
def twoSwitches : List QueueEvent :=
  [.add 1, .add 2, .add 3, .add 4, .switch 50000000, .switch 100000000]

theorem twoSwitches_walk :
    (afterSteps (fun _ => true) twoSwitches).map (fun r =>
      ((((r.1.tree 0).walk 20 (r.1.cpuTrees 0).root).map (r.1.tree 0).item), r.2)) =
      some ([4, 2], [4, 3, 2, 1]) := by decide +kernel

/-- Four threads were added, but after two switches only two of them are in the tree. -/
theorem run_queue_loses_threads :
    ∃ s, RunQueue oneCpu (fun _ => True) s [4, 3, 2, 1] ∧ ¬QueueHolds s 0 [4, 3, 2, 1] := by
  obtain ⟨⟨s, ths⟩, hsteps, hwalk⟩ := Option.map_eq_some_iff.mp twoSwitches_walk
  obtain ⟨hitems, rfl⟩ := Prod.mk.inj hwalk
  refine ⟨s, runQueue_of_steps 20 (fun _ _ => trivial) twoSwitches (.init blankSched) hsteps, ?_⟩
  rintro ⟨shape, hshape, hperm, -⟩
  have hlength := hperm.length_eq
  rw [List.length_map] at hlength
  have hroot : (s.cpuTrees 0).root = Lib.root shape := hshape.root
  rw [hroot, walk_eq 20 hshape.linked (by rw [hlength]; decide)] at hitems
  have hlength' := congrArg List.length hitems
  rw [List.length_map, hlength] at hlength'
  exact absurd hlength' (by decide)

end Examples

end UntitledOs.Mtask
