import UntitledOs.Mtask.CpuLoad
import UntitledOs.Mtask.SleepFrame

/-!
# Which tree holds which thread

Every queued thread is the item of one node, its `hndl`, of one tree, its
`tree`.  Safe deletions and all insertions keep it so on every CPU at once.
-/

namespace UntitledOs.Mtask

open UntitledOs.Lib UntitledOs.RbTree

variable {env : SchedEnv} {s s' s'' : Sched} {live : List Nat} {cells : Nat → List Nat}
  {th a f n c x i j fuel : Nat}

section Handles

variable {t t' : Tree Nat Threads} {own : List Nat} {r : Tree Nat Threads × Nat}

/-- Every thread on the nodes `own` knows its node. -/
def Handles (t : Tree Nat Threads) (own : List Nat) : Prop :=
  ∀ a ∈ own, (t.ext (t.item a)).hndl = a

/-- The nodes `own` are all there is below them. -/
def Closed (t : Tree Nat Threads) (own : List Nat) : Prop :=
  ∀ a ∈ own, ∀ d x, t.child d a = some x → x ∈ own

theorem closed_of_holds (h : HoldsCells t own) : Closed t own := by
  obtain ⟨shape, rfl, h⟩ := h
  exact fun a ha d x hx => h.child_mem ha hx

theorem Closed.leftmost (h : Closed t own) (ha : a ∈ own) (hx : Tree.leftmost fuel t a = some x) :
    x ∈ own := by
  induction fuel generalizing a with
  | zero => cases hx
  | succ fuel ih =>
      rw [Tree.leftmost] at hx
      cases hl : t.child .left a with
      | none =>
          obtain rfl : a = x := by simpa [hl] using hx
          exact ha
      | some l => exact ih (h a ha .left l hl) (by simpa [hl] using hx)

theorem Handles.inj (h : Handles t own) (ha : a ∈ own) (hx : x ∈ own)
    (heq : t.item a = t.item x) : a = x := by
  rw [← h a ha, heq, h x hx]

/-- The threads of two nodes change places and learn their new nodes. -/
theorem Handles.swapItems (h : Handles t own) (hn : n ∈ own) (hx : x ∈ own) :
    Handles (t.swapItems threadTreeKind n x) own := by
  intro a ha
  rw [Tree.ext_swapItems, Tree.item_swapItems]
  by_cases hax : a = x
  · subst hax
    simp [threadTreeKind]
  rw [if_neg hax]
  by_cases han : a = n
  · subst han
    have hne : t.item x ≠ t.item a := fun heq => hax (h.inj hx ha heq).symm
    simp [threadTreeKind, hne]
  · have hne : t.item a ≠ t.item n := fun heq => han (h.inj ha hn heq)
    have hne' : t.item a ≠ t.item x := fun heq => hax (h.inj ha hx heq)
    rw [if_neg han]
    simpa [threadTreeKind, hne, hne'] using h a ha

/-- The nodes that stay in the tree are still the handles of their threads. -/
theorem Handles.delete (h : Handles t own) (hclosed : Closed t own) (hn : n ∈ own)
    (hdel : Tree.delete threadTreeKind fuel t n = some r) :
    (∀ a ∈ own, a ≠ r.2 → (r.1.ext (r.1.item a)).hndl = a) ∧
      ∀ x, (∀ a ∈ own, t.item a ≠ x) → r.1.ext x = t.ext x := by
  induction fuel generalizing t n with
  | zero => cases hdel
  | succ fuel ih =>
      unfold Tree.delete at hdel
      obtain ⟨u, hu, hdel⟩ := Option.bind_eq_some_iff.mp hdel
      cases u with
      | none =>
          obtain ⟨t₁, hleaf, rfl⟩ := Option.map_eq_some_iff.mp hdel
          have hsame := Tree.sameData_deleteLeaf hleaf
          exact ⟨fun a ha _ => by rw [hsame.ext, hsame.item]; exact h a ha,
            fun x _ => by rw [hsame.ext]⟩
      | some u =>
          have huown : u ∈ own := by
            unfold Tree.deleteReplacement at hu
            split at hu
            · obtain ⟨v, hv, hvu⟩ := Option.map_eq_some_iff.mp hu
              exact Option.some.inj hvu ▸ hclosed.leftmost hn hv
            · rename_i hl _
              obtain rfl := Option.some.inj (Option.some.inj hu)
              exact hclosed n hn _ _ hl
            · rename_i _ hr
              obtain rfl := Option.some.inj (Option.some.inj hu)
              exact hclosed n hn _ _ hr
            · cases hu
          dsimp only at hdel
          split at hdel
          · by_cases hroot : t.root = some n
            · rw [Tree.deleteOneChild, if_pos hroot] at hdel
              obtain rfl := Option.some.inj hdel
              refine ⟨fun a ha hne => ?_, fun x hx => ?_⟩
              · by_cases han : a = n
                · simp [threadTreeKind, han]
                · have hau : t.item a ≠ t.item u := fun heq => hne (h.inj ha huown heq)
                  simpa [threadTreeKind, han, hau] using h a ha
              · simp [threadTreeKind, (hx u huown).symm]
            · obtain ⟨-, hext, hitem⟩ := Tree.deleteOneChild_below hroot hdel
              exact ⟨fun a ha _ => by rw [hext, hitem]; exact h a ha, fun x _ => by rw [hext]⟩
          · have hclosed' : Closed (t.swapItems threadTreeKind n u) own := fun a ha d x hx =>
              hclosed a ha d x (by simpa using hx)
            obtain ⟨hkeep, hother⟩ := ih (h.swapItems hn huown) hclosed' huown hdel
            refine ⟨hkeep, fun x hx => ?_⟩
            rw [hother x fun a ha => ?_]
            · simp [threadTreeKind, (hx n hn).symm, (hx u huown).symm]
            · rw [Tree.item_swapItems]
              split
              · exact hx n hn
              split
              · exact hx u huown
              · exact hx a ha

end Handles

/-- `s'` is `s` as far as threads in trees are concerned. -/
structure KeepsTrees (s s' : Sched) : Prop where
  node : s'.node = s.node
  root : ∀ i, (s'.cpuTrees i).root = (s.cpuTrees i).root
  tree : ∀ x, (s'.thread x).tree = (s.thread x).tree
  hndl : ∀ x, (s'.thread x).hndl = (s.thread x).hndl
  kmallocs : s'.kmallocs = s.kmallocs

namespace KeepsTrees

theorem refl (s : Sched) : KeepsTrees s s := ⟨rfl, fun _ => rfl, fun _ => rfl, fun _ => rfl, rfl⟩

theorem trans (h : KeepsTrees s s') (h' : KeepsTrees s' s'') : KeepsTrees s s'' :=
  ⟨h'.node.trans h.node, fun i => (h'.root i).trans (h.root i),
    fun x => (h'.tree x).trans (h.tree x), fun x => (h'.hndl x).trans (h.hndl x),
    h'.kmallocs.trans h.kmallocs⟩

theorem setTree (s : Sched) (c : Nat) (t : ThreadTree) (hroot : t.root = (s.cpuTrees c).root) :
    KeepsTrees s (s.setTree c t) := by
  refine ⟨rfl, fun i => ?_, fun _ => rfl, fun _ => rfl, rfl⟩
  by_cases hi : i = c
  · subst hi
    simpa [Sched.setTree] using hroot
  · simp [Sched.setTree, hi]

theorem setThread (s : Sched) (th : Nat) (t : Thread) (htree : t.tree = (s.thread th).tree)
    (hhndl : t.hndl = (s.thread th).hndl) : KeepsTrees s (s.setThread th t) := by
  refine ⟨rfl, fun _ => rfl, fun x => ?_, fun x => ?_, rfl⟩
  · by_cases hx : x = th
    · subst hx
      simpa [Sched.setThread] using htree
    · simp [Sched.setThread, hx]
  · by_cases hx : x = th
    · subst hx
      simpa [Sched.setThread] using hhndl
    · simp [Sched.setThread, hx]

theorem lockTree (h : s.lockTree c = some s') : KeepsTrees s s' := by
  unfold Sched.lockTree at h
  split at h
  · cases h
  · cases h
    exact .setTree s c _ rfl

theorem unlockTree (s : Sched) (c : Nat) : KeepsTrees s (s.unlockTree c) := .setTree s c _ rfl

theorem lockList (h : s.lockList = some s') : KeepsTrees s s' := by
  unfold Sched.lockList at h
  split at h
  · cases h
  · cases h
    exact ⟨rfl, fun _ => rfl, fun _ => rfl, fun _ => rfl, rfl⟩

theorem unlockList (s : Sched) : KeepsTrees s s.unlockList :=
  ⟨rfl, fun _ => rfl, fun _ => rfl, fun _ => rfl, rfl⟩

theorem startCore (env : SchedEnv) (s : Sched) (core : Nat) :
    KeepsTrees s (startCore env s core) := by
  unfold Mtask.startCore
  split
  · exact .refl s
  · split <;> exact ⟨rfl, fun _ => rfl, fun _ => rfl, fun _ => rfl, rfl⟩

theorem relinked (h : Relinked s s') : KeepsTrees s s' := by
  obtain ⟨lnode, head, rfl⟩ := h
  exact ⟨rfl, fun _ => rfl, fun _ => rfl, fun _ => rfl, rfl⟩

end KeepsTrees

theorem FreshBlock.congr (h : FreshBlock env n s) (hkeep : KeepsTrees s s') :
    FreshBlock env n s' := by
  intro i hi own hown
  rw [hkeep.kmallocs]
  refine h i hi own (hown.congr (hkeep.root i).symm fun a _ => ?_).1
  exact congrFun hkeep.node.symm a

/-- A node is put into a tree; the nodes outside stay as they are. -/
theorem insert_frame {t t' : Tree Nat Threads} {own : List Nat} (h : HoldsCells t own)
    (ha : a ∉ own) (hins : t.insert threadTreeKind fuel a = some t') :
    ∃ own', HoldsCells t' own' ∧ own'.Perm (a :: own) ∧ (∀ b, t'.item b = t.item b) ∧
      (∀ b ∉ own', t'.node b = t.node b) ∧ t'.ext = t.ext := by
  obtain ⟨shape, rfl, h⟩ := h
  obtain ⟨pre, post, t₁, hins₁, hsplit, shape', hcells, hre⟩ :=
    insert_spec threadTreeKind (2 * (inorder shape).length + 1) h ha (by omega)
  obtain rfl := ((Tree.insert_steady threadTreeKind t a).returns _ hins₁).unique
    ((Tree.insert_steady _ _ _).returns _ hins)
  refine ⟨pre ++ a :: post, ⟨shape', hcells, hre.holds⟩, ?_, hre.item, ?_, hre.ext⟩
  · rw [hsplit.1]
    exact List.perm_middle
  · rw [← hcells]
    exact hre.frame

/--
The threads `live` are in the trees of the `n` CPUs, that of CPU `i` having the
nodes `cells i`.
-/
structure TreesHold (n : Nat) (s : Sched) (live : List Nat) (cells : Nat → List Nat) : Prop where
  holds : ∀ i < n, HoldsCells (s.tree i) (cells i)
  threads : ∀ i < n, ((cells i).map (s.tree i).item).Perm
    (live.filter fun x => (s.thread x).tree = i)
  hndl : ∀ i < n, Handles (s.tree i) (cells i)

namespace TreesHold

theorem congr (h : TreesHold n s live cells) (hkeep : KeepsTrees s s') :
    TreesHold n s' live cells := by
  have hitem : ∀ i, (s'.tree i).item = (s.tree i).item := fun i =>
    funext fun a => by rw [Tree.item, Sched.tree, hkeep.node]; rfl
  refine ⟨fun i hi => ?_, fun i hi => ?_, fun i hi a ha => ?_⟩
  · refine ((h.holds i hi).congr (hkeep.root i) fun a _ => ?_).1
    rw [Sched.tree, hkeep.node]
    rfl
  · rw [hitem]
    simpa only [hkeep.tree] using h.threads i hi
  · rw [hitem]
    exact (hkeep.hndl _).trans (h.hndl i hi a ha)

theorem item_mem (h : TreesHold n s live cells) (hi : i < n) (ha : a ∈ cells i) :
    (s.node a).item ∈ live ∧ (s.thread (s.node a).item).tree = i := by
  have hmem := (h.threads i hi).mem_iff.mp (List.mem_map.mpr ⟨a, ha, rfl⟩)
  obtain ⟨hlive, htree⟩ := List.mem_filter.mp hmem
  exact ⟨hlive, of_decide_eq_true htree⟩

theorem apart (h : TreesHold n s live cells) (hi : i < n) (hj : j < n) (ha : a ∈ cells i)
    (ha' : a ∈ cells j) : i = j :=
  (h.item_mem hi ha).2.symm.trans (h.item_mem hj ha').2

theorem handle (h : TreesHold n s live cells) (hth : th ∈ live) (hc : (s.thread th).tree < n) :
    (s.thread th).hndl ∈ cells (s.thread th).tree ∧ (s.node (s.thread th).hndl).item = th := by
  have hmem : th ∈ live.filter fun x => (s.thread x).tree = (s.thread th).tree := by
    simpa using hth
  obtain ⟨a, ha, hitem⟩ := List.mem_map.mp ((h.threads _ hc).mem_iff.mpr hmem)
  have hhndl := h.hndl _ hc a ha
  rw [hitem] at hhndl
  have hhndl' : (s.thread th).hndl = a := hhndl
  rw [hhndl']
  exact ⟨ha, hitem⟩

/-- One tree is written, and what is written stays apart from the other trees. -/
theorem putTree (h : TreesHold n s live cells) {live' own : List Nat}
    {t : Tree Nat Threads} (hcn : c < n) (hholds : HoldsCells t own)
    (hhndl : Handles t own) (hnode : s'.node = t.node) (hthread : s'.thread = t.ext)
    (hroot : (s'.cpuTrees c).root = t.root)
    (hroots : ∀ i, i ≠ c → (s'.cpuTrees i).root = (s.cpuTrees i).root)
    (hothers : ∀ i < n, i ≠ c → ∀ a ∈ cells i, t.node a = s.node a ∧
      (t.ext (s.node a).item).hndl = (s.thread (s.node a).item).hndl)
    (hthreads : (own.map t.item).Perm (live'.filter fun x => (t.ext x).tree = c))
    (hlive : ∀ i < n, i ≠ c → (live'.filter fun x => (t.ext x).tree = i).Perm
      (live.filter fun x => (s.thread x).tree = i)) :
    TreesHold n s' live' (Function.update cells c own) := by
  have htree : s'.tree c = t := by
    rw [Sched.tree, hnode, hroot, hthread]
  have hitem : ∀ i, (s'.tree i).item = t.item := fun i =>
    funext fun a => by rw [Tree.item, Sched.tree, hnode]; rfl
  refine ⟨fun i hi => ?_, fun i hi => ?_, fun i hi => ?_⟩ <;>
    by_cases hic : i = c
  · subst hic
    rwa [Function.update_self, htree]
  · rw [Function.update_of_ne hic]
    refine ((h.holds i hi).congr (hroots i hic) fun a ha => ?_).1
    show s'.node a = s.node a
    rw [hnode, (hothers i hi hic a ha).1]
  · subst hic
    rwa [Function.update_self, htree, hthread]
  · rw [Function.update_of_ne hic, hitem, hthread]
    have hmap : (cells i).map t.item = (cells i).map (s.tree i).item :=
      List.map_congr_left fun a ha => congrArg TreeNode.item (hothers i hi hic a ha).1
    rw [hmap]
    exact (h.threads i hi).trans (hlive i hi hic).symm
  · subst hic
    rwa [Function.update_self, htree]
  · rw [Function.update_of_ne hic]
    intro a ha
    obtain ⟨hsame, hsame'⟩ := hothers i hi hic a ha
    show (s'.thread (s'.node a).item).hndl = a
    rw [hthread, hnode, hsame, hsame']
    exact h.hndl i hi a ha

/-- A safe `thread_tree_remove` takes out the thread it is called with. -/
theorem remove (h : TreesHold n s live cells) (hth : th ∈ live)
    (hcn : (s.thread th).tree < n)
    (hsafe : DeleteSafeAny threadTreeKind (s.tree (s.thread th).tree) (s.thread th).hndl)
    (hrem : threadTreeRemove fuel s th = some s') :
    ∃ cells', TreesHold n s' (live.erase th) cells' := by
  obtain ⟨hmem, hitem⟩ := h.handle hth hcn
  obtain ⟨-, -, htree⟩ := threadTreeRemove_parts hrem
  obtain ⟨r, hdel, rfl⟩ := Option.map_eq_some_iff.mp hrem
  obtain ⟨q, hfound, rfl⟩ := Option.map_eq_some_iff.mp hdel
  set c := (s.thread th).tree with hc
  set d := (s.thread th).hndl with hd
  have hdel' : Tree.delete threadTreeKind fuel (s.tree c) d = some q := by
    rw [← hfound]
    simp [Sched.tree, Sched.setTree]
    rfl
  obtain ⟨t', f, hret, hdeleted⟩ := (h.holds c hcn).delete (k := threadTreeKind) hmem hsafe
  obtain rfl := hret.unique ((Tree.delete_steady _ _ _).returns _ hdel')
  obtain ⟨hkeep, hother⟩ := (h.hndl c hcn).delete (closed_of_holds (h.holds c hcn)) hmem hdel'
  have hnd := (h.holds c hcn).nodup
  refine ⟨Function.update cells c ((cells c).erase f), h.putTree hcn hdeleted.holds ?_ rfl rfl
    ?_ ?_ ?_ ?_ ?_⟩
  · intro a ha
    exact hkeep a (List.mem_of_mem_erase ha) fun haf => hnd.not_mem_erase (haf ▸ ha)
  · simp [Sched.putTree, Sched.setTree]
  · intro i hic
    simp [Sched.putTree, Sched.setTree, hic]
  · intro i hi hic a ha
    refine ⟨hdeleted.frame a fun hac => hic (h.apart hi hcn ha hac), ?_⟩
    rw [hother _ fun b hb hab => hic ?_]
    · rfl
    · have hitem' : (s.node b).item = (s.node a).item := hab
      have hb' := (h.item_mem hcn hb).2
      rw [hitem', (h.item_mem hi ha).2] at hb'
      exact hb'
  · have htree' : ∀ x, (t'.ext x).tree = (s.thread x).tree := htree
    simp only [htree']
    have hperm := ((List.perm_cons_erase hmem).map (s.tree c).item).symm.trans (h.threads c hcn)
    have hitem' : (s.tree c).item d = th := hitem
    rw [List.map_cons, hitem'] at hperm
    have hlive := (List.perm_cons_erase hth).filter fun x => decide ((s.thread x).tree = c)
    rw [List.filter_cons_of_pos (by simp [hc])] at hlive
    exact hdeleted.item.trans (hperm.trans hlive).cons_inv
  · intro i hi hic
    have htree' : ∀ x, (t'.ext x).tree = (s.thread x).tree := htree
    simp only [htree']
    have hlive := (List.perm_cons_erase hth).filter fun x => decide ((s.thread x).tree = i)
    rw [List.filter_cons_of_neg (by simp [← hc, Ne.symm hic])] at hlive
    exact hlive.symm

/-- `thread_tree_add` brings a thread that is not queued. -/
theorem add (h : TreesHold n s live cells) (block : FreshBlock env n s) (fresh : th ∉ live)
    (hcn : c < n) (hadd : threadTreeAdd env fuel s c th = some s') :
    ∃ cells', TreesHold n s' (th :: live) cells' := by
  obtain ⟨v, -, hadd⟩ := Option.bind_eq_some_iff.mp hadd
  obtain ⟨t', hins, rfl⟩ := Option.map_eq_some_iff.mp hadd
  obtain ⟨-, -, htree⟩ := setUpNode_frame env s c th v
  set a := env.kmalloc s.kmallocs with ha
  have hnew : ∀ i < n, a ∉ cells i := fun i hi => block i hi (cells i) (h.holds i hi)
  have hnode : ∀ b, b ≠ a → (setUpNode env s c th v).node b = s.node b := fun b hb =>
    show ((setUpNode env s c th v).tree c).node b = (s.tree c).node b from
      node_setUpNode_of_ne env s th v hb
  have hne : ∀ i < n, ∀ b ∈ cells i, (s.node b).item ≠ th := by
    rintro i hi b hb rfl
    exact fresh (h.item_mem hi hb).1
  obtain ⟨hholds, hmap⟩ := (h.holds c hcn).congr (root_setUpNode env s th v) fun b hb =>
    hnode b fun hba => hnew c hcn (hba ▸ hb)
  obtain ⟨own, hown, hperm, hitem, hframe, hext⟩ := insert_frame hholds (hnew c hcn) hins
  have hext' : t'.ext = (setUpNode env s c th v).thread := hext
  have hitem' : ∀ b, b ≠ a → t'.item b = (s.node b).item := fun b hb =>
    (hitem b).trans (congrArg TreeNode.item (hnode b hb))
  have hitema : t'.item a = th := (hitem a).trans (item_setUpNode env s th v)
  have hlive : ∀ i, live.filter (fun x => (t'.ext x).tree = i) =
      live.filter fun x => (s.thread x).tree = i := by
    intro i
    refine List.filter_congr fun x hx => ?_
    rw [hext', htree, if_neg fun hxt : x = th => fresh (hxt ▸ hx)]
  have htreeth : (t'.ext th).tree = c := by rw [hext', htree, if_pos rfl]
  refine ⟨Function.update cells c own, h.putTree hcn hown ?_ rfl rfl ?_ ?_ ?_ ?_ ?_⟩
  · intro b hb
    by_cases hba : b = a
    · subst hba
      rw [hitema, hext']
      simp only [setUpNode, Sched.setThread, Sched.setTree, Sched.setNode, Function.update_self, ha]
    · have hbc : b ∈ cells c := (List.mem_cons.mp (hperm.mem_iff.mp hb)).resolve_left hba
      rw [hitem' b hba, hext', thread_setUpNode_of_ne env s th v (hne c hcn b hbc)]
      exact h.hndl c hcn b hbc
  · simp [Sched.putTree, Sched.setTree]
  · intro i hic
    simp [Sched.putTree, Sched.setTree, setUpNode, Sched.setThread, Sched.setNode, hic]
  · intro i hi hic b hb
    have hba : b ≠ a := fun hba => hnew i hi (hba ▸ hb)
    have hout : b ∉ own := fun hmem => hic
      (h.apart hi hcn hb ((List.mem_cons.mp (hperm.mem_iff.mp hmem)).resolve_left hba))
    refine ⟨(hframe b hout).trans (hnode b hba), ?_⟩
    rw [hext', thread_setUpNode_of_ne env s th v (hne i hi b hb)]
  · rw [List.filter_cons_of_pos (by simp [htreeth]), hlive]
    refine (hperm.map _).trans ?_
    rw [List.map_cons, hitema]
    refine List.Perm.cons th (List.Perm.trans (.of_eq ?_) (h.threads c hcn))
    exact List.map_congr_left fun b hb => hitem' b fun hba => hnew c hcn (hba ▸ hb)
  · intro i hi hic
    rw [List.filter_cons_of_neg (by simp [htreeth, Ne.symm hic]), hlive]

end TreesHold

/-- The leftmost node of the tree of CPU `c` can be deleted, and no other node is freed then. -/
def SwitchClean (s : Sched) (c : Nat) : Prop :=
  ∀ root a, (s.cpuTrees c).root = some root →
    Returns (fun fuel => (s.tree c).leftmost fuel root) a →
      DeleteSafe (s.tree c) a ∧ ((s.cpuTrees c).root = some a → (s.tree c).child .right a = none)

theorem KeepsTrees.chargeThread (env : SchedEnv) (passed : Nat) (s : Sched) (th : Nat) :
    KeepsTrees s (chargeThread env passed s th) := .setThread s th _ rfl rfl

/-- A node that is deleted and freed itself is put back in with its old contents. -/
theorem put_back {t t'' : Tree Nat Threads} {q : Tree Nat Threads × Nat} {own : List Nat}
    (h : HoldsCells t own) (ha : a ∈ own) (hleft : t.child .left a = none)
    (hsafe : DeleteSafe t a) (hroot : t.root = some a → t.child .right a = none)
    (hdel : Tree.delete threadTreeKind fuel t a = some q)
    (hins : (q.1.setNode q.2 (t.node a)).insert threadTreeKind fuel q.2 = some t'') :
    ∃ own', HoldsCells t'' own' ∧ own'.Perm own ∧ (∀ b, t''.item b = t.item b) ∧
      (∀ b ∉ own, t''.node b = t.node b) ∧ t''.ext = t.ext := by
  have hany : DeleteSafeAny threadTreeKind t a := by
    rw [DeleteSafeAny, if_pos (.inl hleft)]
    exact hsafe
  obtain ⟨t', f, hret, hdeleted⟩ := h.delete (k := threadTreeKind) ha hany
  obtain rfl := hret.unique ((Tree.delete_steady _ _ _).returns _ hdel)
  obtain ⟨hfa, hext, hitem⟩ := Tree.delete_self (.inl hleft) (fun hr => ⟨hleft, hroot hr⟩) hdel
  obtain rfl : f = a := hfa
  have hnd := h.nodup.not_mem_erase (a := f)
  obtain ⟨hholds, -⟩ := @HoldsCells.congr _ _ _ (t'.setNode f (t.node f)) _ hdeleted.holds rfl (by
    intro b hb
    have hbf : b ≠ f := fun hbf => hnd (hbf ▸ hb)
    simp [Tree.setNode, hbf])
  obtain ⟨own', hown', hperm, hitem', hframe, hext'⟩ := insert_frame hholds hnd hins
  have hperm' : own'.Perm own := hperm.trans (List.perm_cons_erase ha).symm
  refine ⟨own', hown', hperm', fun b => ?_, fun b hb => ?_, hext'.trans hext⟩
  · rw [hitem']
    by_cases hbf : b = f
    · subst hbf
      simp [Tree.item, Tree.setNode]
    · exact (by simp [Tree.item, Tree.setNode, hbf] : (t'.setNode f (t.node f)).item b = t'.item b).trans
        (hitem b)
  · have hbf : b ≠ f := fun hbf => hb (hbf ▸ ha)
    rw [hframe b fun hmem => hb (hperm'.mem_iff.mp hmem)]
    simpa [Tree.setNode, hbf] using hdeleted.frame b hb

/-- A clean switch leaves every thread in its tree and on its node. -/
theorem TreesHold.switch {passed : Nat} {r : Sched × Option Nat}
    (h : TreesHold n s live cells) (hcn : c < n) (hclean : SwitchClean s c)
    (hswitch : switchThread env fuel c passed s = some r) :
    ∃ cells', TreesHold n r.1 live cells' := by
  unfold switchThread at hswitch
  cases hroot : (s.cpuTrees c).root with
  | none =>
      simp only [hroot, Option.some.injEq] at hswitch
      subst hswitch
      exact ⟨cells, h.congr (.unlockTree s c)⟩
  | some root =>
      simp only [hroot] at hswitch
      obtain ⟨a, hleft, hswitch⟩ := Option.bind_eq_some_iff.mp hswitch
      split at hswitch
      · cases hswitch
      obtain ⟨p, hdel, hswitch⟩ := Option.bind_eq_some_iff.mp hswitch
      obtain ⟨s₃, hins, rfl⟩ := Option.map_eq_some_iff.mp hswitch
      obtain ⟨q, hfound, rfl⟩ := Option.map_eq_some_iff.mp hdel
      obtain ⟨t'', hback, rfl⟩ := Option.map_eq_some_iff.mp hins
      obtain ⟨hsafe, hone⟩ := hclean root a hroot ((Tree.leftmost_steady _ _).returns _ hleft)
      have hmem : a ∈ cells c := (closed_of_holds (h.holds c hcn)).leftmost
        ((h.holds c hcn).root_mem hroot) hleft
      set s₀ := chargeThread env passed s (s.node a).item with hs₀
      have hnoleft : (s.tree c).child .left a = none := leftmost_left hleft
      have hkeep : KeepsTrees s s₀ := .chargeThread env passed s _
      have h₀ := h.congr hkeep
      set s₂ := (s₀.putTree c q.1).setNode q.2 (s.node a) with hs₂
      have htree : s₂.tree c = q.1.setNode q.2 ((s₀.tree c).node a) := by
        simp [hs₂, Sched.tree, Sched.putTree, Sched.setTree, Sched.setNode, Tree.setNode]
        rfl
      rw [htree] at hback
      obtain ⟨own, hown, hperm, hitem, hframe, hext⟩ :=
        put_back (h₀.holds c hcn) hmem hnoleft hsafe hone hfound hback
      have hext' : t''.ext = s₀.thread := hext
      have hput := @putTree _ (s₂.putTree c t'') _ _ _ _ h₀ live _ _ hcn hown ?_ rfl rfl
        ?_ ?_ ?_ ?_ ?_
      · exact ⟨_, hput.congr ((KeepsTrees.unlockTree (s₂.putTree c t'') c).trans
          ⟨rfl, fun _ => rfl, fun _ => rfl, fun _ => rfl, rfl⟩)⟩
      · intro b hb
        rw [hitem, hext']
        exact h₀.hndl c hcn b (hperm.mem_iff.mp hb)
      · simp [Sched.putTree, Sched.setTree]
      · intro i hic
        simp [hs₂, Sched.putTree, Sched.setTree, Sched.setNode, hic]
      · intro i hi hic b hb
        refine ⟨hframe b fun hmem' => hic (h₀.apart hi hcn hb hmem'), ?_⟩
        rw [hext']
      · rw [hext']
        refine ((hperm.map _).trans (.of_eq ?_)).trans (h₀.threads c hcn)
        exact List.map_congr_left fun b _ => hitem b
      · intro i _ _
        rw [hext']

end UntitledOs.Mtask
