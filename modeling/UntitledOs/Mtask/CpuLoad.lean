import Mathlib.Data.List.TakeWhile
import UntitledOs.Mtask.CpuList
import UntitledOs.Mtask.RunQueue
import UntitledOs.RbTree.Frame

/-!
# Threads come to and leave the CPUs

Queuing raises the count of the head of the CPU list and dequeuing lowers that of
some CPU.  Both keep the list in order in the states that are safe for them, and
in no others.
-/

namespace UntitledOs.Mtask

open UntitledOs.Lib UntitledOs.RbTree

variable {env : SchedEnv} {s s' : Sched} {live cells : List Nat} {th a h l n c x : Nat}

section Calls

/-- `s'` is `s` as far as the list is concerned. -/
structure SameList (s s' : Sched) : Prop where
  lnode : s'.lnode = s.lnode
  head : s'.cpuTreeList = s.cpuTreeList
  listPtr : ∀ i, (s'.cpuTrees i).listPtr = (s.cpuTrees i).listPtr

theorem SameList.refl (s : Sched) : SameList s s := ⟨rfl, rfl, fun _ => rfl⟩

theorem SameList.trans {s₁ s₂ s₃ : Sched} (h : SameList s₁ s₂) (h' : SameList s₂ s₃) :
    SameList s₁ s₃ :=
  ⟨h'.lnode.trans h.lnode, h'.head.trans h.head, fun i => (h'.listPtr i).trans (h.listPtr i)⟩

theorem SameList.linked (h : SameList s s') (hl : Linked n s cells) : Linked n s' cells := by
  have hnext : s'.nextOf = s.nextOf := funext fun a => by rw [Sched.nextOf, h.lnode, Sched.nextOf]
  have hprev : s'.prevOf = s.prevOf := funext fun a => by rw [Sched.prevOf, h.lnode, Sched.prevOf]
  refine ⟨?_, h.head.trans hl.head, hl.nodup, ?_, fun i hi => ?_⟩
  · rw [hnext, hprev]
    exact hl.links
  · simp only [h.listPtr]
    exact hl.nodes
  · rw [h.lnode, h.listPtr]
    exact hl.owner i hi

theorem Linked.mem (hl : Linked n s cells) {i : Nat} (hi : i < n) :
    (s.cpuTrees i).listPtr ∈ cells :=
  hl.nodes.mem_iff.mpr (List.mem_map.mpr ⟨i, List.mem_range.mpr hi, rfl⟩)

theorem Linked.tree (hl : Linked n s cells) (ha : a ∈ cells) :
    (s.lnode a).tree < n ∧ (s.cpuTrees (s.lnode a).tree).listPtr = a := by
  obtain ⟨i, hi, rfl⟩ := List.mem_map.mp (hl.nodes.mem_iff.mp ha)
  rw [hl.owner i (List.mem_range.mp hi)]
  exact ⟨List.mem_range.mp hi, rfl⟩

theorem Linked.cntOf (hl : Linked n s cells) {i : Nat} (hi : i < n) :
    s.cntOf (s.cpuTrees i).listPtr = (s.cpuTrees i).threadCnt := by
  rw [Sched.cntOf, hl.owner i hi]

theorem threadTreeInsert_frame {fuel : Nat} (h : threadTreeInsert fuel s c a = some s') :
    SameList s s' ∧ (∀ i, (s'.cpuTrees i).threadCnt = (s.cpuTrees i).threadCnt) ∧
      s'.thread = s.thread := by
  obtain ⟨t, ht, rfl⟩ := Option.map_eq_some_iff.mp h
  refine ⟨⟨rfl, rfl, fun i => ?_⟩, fun i => ?_, (Tree.sameData_insert ht).ext⟩ <;>
    by_cases hi : i = c <;> simp [Sched.putTree, Sched.setTree, hi]

theorem threadTreeDelete_frame {fuel : Nat} {r : Sched × Nat}
    (h : threadTreeDelete fuel s c a = some r) :
    SameList s r.1 ∧ (∀ i, (r.1.cpuTrees i).threadCnt = (s.cpuTrees i).threadCnt) ∧
      ∀ x, (r.1.thread x).tree = (s.thread x).tree := by
  obtain ⟨t, ht, rfl⟩ := Option.map_eq_some_iff.mp h
  refine ⟨⟨rfl, rfl, fun i => ?_⟩, fun i => ?_, ?_⟩
  · by_cases hi : i = c <;> simp [Sched.putTree, Sched.setTree, hi]
  · by_cases hi : i = c <;> simp [Sched.putTree, Sched.setTree, hi]
  · refine Tree.ext_delete (P := fun ths => ∀ x, (ths x).tree = (s.thread x).tree) ?_ ht fun _ => rfl
    intro th a ths hths x
    by_cases hx : x = th
    · simpa [threadTreeKind, hx] using hths th
    · simpa [threadTreeKind, hx] using hths x

theorem lockTree_frame (h : s.lockTree c = some s') :
    SameList s s' ∧ (∀ i, (s'.cpuTrees i).threadCnt = (s.cpuTrees i).threadCnt) ∧
      s'.thread = s.thread := by
  unfold Sched.lockTree at h
  split at h
  · cases h
  cases h
  refine ⟨⟨rfl, rfl, fun i => ?_⟩, fun i => ?_, rfl⟩ <;>
    by_cases hi : i = c <;> simp [Sched.setTree, hi]

theorem unlockTree_frame (s : Sched) (c : Nat) :
    SameList s (s.unlockTree c) ∧
      (∀ i, ((s.unlockTree c).cpuTrees i).threadCnt = (s.cpuTrees i).threadCnt) := by
  refine ⟨⟨rfl, rfl, fun i => ?_⟩, fun i => ?_⟩ <;>
    by_cases hi : i = c <;> simp [Sched.unlockTree, Sched.setTree, hi]

theorem lockList_frame (h : s.lockList = some s') :
    SameList s s' ∧ s'.cpuTrees = s.cpuTrees ∧ s'.thread = s.thread := by
  unfold Sched.lockList at h
  split at h
  · cases h
  cases h
  exact ⟨⟨rfl, rfl, fun _ => rfl⟩, rfl, rfl⟩

theorem setUpNode_frame (env : SchedEnv) (s : Sched) (c th v : Nat) :
    SameList s (setUpNode env s c th v) ∧
      (∀ i, ((setUpNode env s c th v).cpuTrees i).threadCnt =
        (s.cpuTrees i).threadCnt + if i = c then 1 else 0) ∧
      ∀ x, ((setUpNode env s c th v).thread x).tree = if x = th then c else (s.thread x).tree := by
  refine ⟨⟨rfl, rfl, fun i => ?_⟩, fun i => ?_, fun x => ?_⟩
  · by_cases hi : i = c <;> simp [setUpNode, Sched.setThread, Sched.setNode, Sched.setTree, hi]
  · by_cases hi : i = c <;> simp [setUpNode, Sched.setThread, Sched.setNode, Sched.setTree, hi]
  · by_cases hx : x = th <;> simp [setUpNode, Sched.setThread, Sched.setNode, Sched.setTree, hx]

/-- A thread comes to the tree of CPU `c`. -/
structure Joined (s s' : Sched) (c th : Nat) : Prop where
  list : SameList s s'
  cnt : ∀ i, (s'.cpuTrees i).threadCnt = (s.cpuTrees i).threadCnt + if i = c then 1 else 0
  tree : ∀ x, (s'.thread x).tree = if x = th then c else (s.thread x).tree

theorem schedulerQueueThread_parts {fuel : Nat} (h : schedulerQueueThread env fuel s th = some s') :
    ∃ head s₁ s₂ core, s.cpuTreeList = some head ∧ Joined s s₁ (s.lnode head).tree th ∧
      moveSmallestBody fuel s₁ head = some s₂ ∧ s' = startCore env s₂.unlockList core := by
  obtain ⟨head, hhead, h⟩ := Option.bind_eq_some_iff.mp h
  obtain ⟨s₁, hlock, h⟩ := Option.bind_eq_some_iff.mp h
  obtain ⟨v, -, h⟩ := Option.bind_eq_some_iff.mp h
  obtain ⟨s₂, hadd, h⟩ := Option.bind_eq_some_iff.mp h
  obtain ⟨s₃, hmove, hprint⟩ := Option.bind_eq_some_iff.mp h
  obtain rfl := printCpuTreeList_eq hprint
  obtain ⟨w, -, hadd⟩ := Option.bind_eq_some_iff.mp hadd
  obtain ⟨s₄, hlocked, hmove⟩ := Option.bind_eq_some_iff.mp hmove
  obtain ⟨head', hhead', hmove⟩ := Option.bind_eq_some_iff.mp hmove
  obtain ⟨s₅, hbody, rfl⟩ := Option.map_eq_some_iff.mp hmove
  set c := (s.lnode head).tree
  obtain ⟨hl₁, hcnt₁, hth₁⟩ := lockTree_frame hlock
  obtain ⟨hl₂, hcnt₂, hth₂⟩ := setUpNode_frame env (s₁.setThread th { s₁.thread th with vruntime := v })
    c th w
  obtain ⟨hl₃, hcnt₃, hth₃⟩ := threadTreeInsert_frame hadd
  obtain ⟨hl₄, hcnt₄⟩ := unlockTree_frame s₂ c
  obtain ⟨hl₅, hcnt₅, hth₅⟩ := lockList_frame hlocked
  have hset : SameList s₁ (s₁.setThread th { s₁.thread th with vruntime := v }) :=
    ⟨rfl, rfl, fun _ => rfl⟩
  have hlist : SameList s s₄ :=
    ((((hl₁.trans hset).trans hl₂).trans hl₃).trans hl₄).trans hl₅
  obtain rfl := Option.some.inj ((hhead'.symm.trans hlist.head).trans hhead)
  refine ⟨head', s₄, s₅, _, hhead, ⟨hlist, fun i => ?_, fun x => ?_⟩, hbody, rfl⟩
  · rw [hcnt₅, hcnt₄, hcnt₃, hcnt₂, ← hcnt₁]
    rfl
  · have hx : (s₄.thread x).tree = _ := (congrArg (fun ths => (ths x).tree) (hth₅.trans hth₃)).trans
      (hth₂ x)
    rw [hx]
    by_cases hxt : x = th
    · rw [if_pos hxt, if_pos hxt]
    · rw [if_neg hxt, if_neg hxt]
      simp [Sched.setThread, hxt, hth₁]

/-- A thread leaves the tree of CPU `c`. -/
structure Left (s s' : Sched) (c : Nat) : Prop where
  list : SameList s s'
  cnt : ∀ i, (s'.cpuTrees i).threadCnt =
    if i = c then sub64 (s.cpuTrees c).threadCnt 1 else (s.cpuTrees i).threadCnt
  tree : ∀ x, (s'.thread x).tree = (s.thread x).tree

theorem threadTreeRemove_parts {fuel : Nat} (h : threadTreeRemove fuel s th = some s') :
    Left s s' (s.thread th).tree := by
  obtain ⟨r, hdel, rfl⟩ := Option.map_eq_some_iff.mp h
  obtain ⟨hlist, hcnt, htree⟩ := threadTreeDelete_frame hdel
  refine ⟨⟨hlist.lnode, hlist.head, fun i => (hlist.listPtr i).trans ?_⟩, fun i => (hcnt i).trans ?_,
    htree⟩
  · by_cases hi : i = (s.thread th).tree <;> simp [Sched.setTree, hi]
  · by_cases hi : i = (s.thread th).tree <;> simp [Sched.setTree, hi]

theorem schedulerDequeueThread_parts {fuel : Nat} (h : schedulerDequeueThread fuel s th = some s') :
    ∃ s₁ s₂, Left s s₁ (s.thread th).tree ∧
      moveLeftBody fuel s₁ (s.thread th).tree = some s₂ ∧ s' = s₂.unlockList := by
  obtain ⟨s₁, hlock, h⟩ := Option.bind_eq_some_iff.mp h
  obtain ⟨s₂, hremove, h⟩ := Option.bind_eq_some_iff.mp h
  obtain ⟨s₀, hmove, hprint⟩ := Option.bind_eq_some_iff.mp h
  obtain rfl := printCpuTreeList_eq hprint
  obtain ⟨s₃, hlocked, hmove⟩ := Option.bind_eq_some_iff.mp hmove
  obtain ⟨s₄, hbody, rfl⟩ := Option.map_eq_some_iff.mp hmove
  obtain ⟨hl₁, hcnt₁, hth₁⟩ := lockTree_frame hlock
  have hleft := threadTreeRemove_parts hremove
  rw [hth₁] at hleft
  obtain ⟨hl₃, hcnt₃⟩ := unlockTree_frame s₂ (s₂.thread th).tree
  obtain ⟨hl₄, hcnt₄, hth₄⟩ := lockList_frame hlocked
  have htree : (s₂.thread th).tree = (s.thread th).tree := by rw [hleft.tree, hth₁]
  rw [htree] at hbody
  refine ⟨s₃, s₄, ⟨((hl₁.trans hleft.list).trans hl₃).trans hl₄, fun i => ?_, fun x => ?_⟩, hbody, rfl⟩
  · rw [hcnt₄, hcnt₃, hleft.cnt, hcnt₁, hcnt₁]
  · rw [hth₄]
    exact (hleft.tree x).trans (by rw [hth₁])

end Calls

section Order

variable {α : Type*} {key : α → Nat} {front mid back : List α} {y : α}

/-- The longest prefix of a list whose members satisfy `p`. -/
theorem exists_prefix (p : α → Prop) [DecidablePred p] (rest : List α) :
    ∃ low high, rest = low ++ high ∧ (∀ x ∈ low, p x) ∧ ∀ x, high.head? = some x → ¬p x := by
  refine ⟨rest.takeWhile (p ·), rest.dropWhile (p ·), List.takeWhile_append_dropWhile.symm, ?_, ?_⟩
  · intro x hx
    simpa using List.mem_takeWhile_imp hx
  · intro x hx
    have h := List.head?_dropWhile_not (p ·) rest
    rw [hx] at h
    simpa using h

/-- The longest suffix of a list whose members satisfy `p`. -/
theorem exists_suffix (p : α → Prop) [DecidablePred p] (rest : List α) :
    ∃ front mid, rest = front ++ mid ∧ (∀ x ∈ mid, p x) ∧
      ∀ x, front.getLast? = some x → ¬p x := by
  obtain ⟨low, high, hrest, hlow, hhigh⟩ := exists_prefix p rest.reverse
  refine ⟨high.reverse, low.reverse, ?_, fun x hx => hlow x (by simpa using hx), fun x hx => ?_⟩
  · rw [← List.reverse_append, ← hrest, List.reverse_reverse]
  · exact hhigh x (by rwa [List.getLast?_reverse] at hx)

theorem pairwise_insert (h : (front ++ back).Pairwise fun a b => key a ≤ key b)
    (hfront : ∀ x, front.getLast? = some x → key x ≤ key y)
    (hback : ∀ x, back.head? = some x → key y ≤ key x) :
    (front ++ y :: back).Pairwise fun a b => key a ≤ key b := by
  obtain ⟨hf, hb, hfb⟩ := List.pairwise_append.mp h
  have hle : ∀ x ∈ front, key x ≤ key y := by
    intro x hx
    rcases List.eq_nil_or_concat front with rfl | ⟨front, z, rfl⟩
    · cases hx
    · rw [List.concat_eq_append] at hf hfront hx
      have hz := hfront z (by simp)
      rcases List.mem_append.mp hx with hx | hx
      · exact ((List.pairwise_append.mp hf).2.2 x hx z (by simp)).trans hz
      · obtain rfl : x = z := by simpa using hx
        exact hz
  have hge : ∀ x ∈ back, key y ≤ key x := by
    intro x hx
    cases back with
    | nil => cases hx
    | cons z back =>
        have hz := hback z rfl
        rcases List.mem_cons.mp hx with rfl | hx
        · exact hz
        · exact hz.trans ((List.pairwise_cons.mp hb).1 x hx)
  refine List.pairwise_append.mpr ⟨hf, List.pairwise_cons.mpr ⟨hge, hb⟩, fun x hx z hz => ?_⟩
  rcases List.mem_cons.mp hz with rfl | hz
  · exact hle x hx
  · exact hfb x hx z hz

end Order

/-- The list in order, and the numbers of threads that it is in order of. -/
structure CpuListInv (n : Nat) (s : Sched) (live : List Nat) : Prop where
  sorted : ListSorted n s
  cnt : ∀ i < n, (s.cpuTrees i).threadCnt = live.countP fun x => (s.thread x).tree = i
  tree : ∀ x ∈ live, (s.thread x).tree < n
  nodup : live.Nodup
  room : live.length < 2 ^ 64

/-- There is one CPU, or the CPUs do not all have the same number of threads. -/
def QueueSafe (n : Nat) (s : Sched) : Prop :=
  n = 1 ∨ ∃ i < n, ∃ j < n, (s.cpuTrees i).threadCnt < (s.cpuTrees j).threadCnt

/--
Not the case: exactly two CPUs have fewer threads than that of `th`, and the CPU
before it in the list has as many.
-/
def DequeueSafe (n : Nat) (s : Sched) (th : Nat) : Prop :=
  let c := (s.thread th).tree
  ¬((List.range n).countP (fun i => (s.cpuTrees i).threadCnt < (s.cpuTrees c).threadCnt) = 2 ∧
    ∃ p, s.prevOf (s.cpuTrees c).listPtr = some p ∧ s.cntOf p = (s.cpuTrees c).threadCnt)

instance : Decidable (QueueSafe n s) :=
  inferInstanceAs (Decidable (n = 1 ∨ ∃ i, i < n ∧ ∃ j, j < n ∧
    (s.cpuTrees i).threadCnt < (s.cpuTrees j).threadCnt))

instance : Decidable (DequeueSafe n s th) :=
  let c := (s.thread th).tree
  decidable_of_iff (¬((List.range n).countP
      (fun i => (s.cpuTrees i).threadCnt < (s.cpuTrees c).threadCnt) = 2 ∧
    (s.prevOf (s.cpuTrees c).listPtr).any fun p => s.cntOf p = (s.cpuTrees c).threadCnt))
    (by simp [DequeueSafe, c, Option.any_eq_true])

theorem SameList.symm (h : SameList s s') : SameList s' s :=
  ⟨h.lnode.symm, h.head.symm, fun i => (h.listPtr i).symm⟩

theorem SameList.cntOf (h : SameList s s')
    (hcnt : ∀ i, (s'.cpuTrees i).threadCnt = (s.cpuTrees i).threadCnt) (a : Nat) :
    s'.cntOf a = s.cntOf a := by
  rw [Sched.cntOf, h.lnode, hcnt, Sched.cntOf]

theorem SameList.listSorted_iff (h : SameList s s')
    (hcnt : ∀ i, (s'.cpuTrees i).threadCnt = (s.cpuTrees i).threadCnt) :
    ListSorted n s' ↔ ListSorted n s := by
  constructor
  · rintro ⟨cells, hl, hsorted⟩
    exact ⟨cells, h.symm.linked hl, by simpa only [h.cntOf hcnt] using hsorted⟩
  · rintro ⟨cells, hl, hsorted⟩
    exact ⟨cells, h.linked hl, by simpa only [h.cntOf hcnt] using hsorted⟩

theorem startCore_frame (env : SchedEnv) (s : Sched) (core : Nat) :
    SameList s (startCore env s.unlockList core) ∧
      (startCore env s.unlockList core).cpuTrees = s.cpuTrees ∧
      (startCore env s.unlockList core).thread = s.thread := by
  unfold startCore
  split
  · exact ⟨⟨rfl, rfl, fun _ => rfl⟩, rfl, rfl⟩
  split
  · exact ⟨⟨rfl, rfl, fun _ => rfl⟩, rfl, rfl⟩
  · exact ⟨⟨rfl, rfl, fun _ => rfl⟩, rfl, rfl⟩

/-- With the head's count raised, the list is in order again exactly when this was safe. -/
theorem moveSmallest_sorted {s₁ s₂ : Sched} {head : Nat} (hl : Linked n s cells)
    (hsorted : cells.Pairwise fun a b => s.cntOf a ≤ s.cntOf b) (hhead : s.cpuTreeList = some head)
    (hlist : SameList s s₁) (hcnt : ∀ i, (s₁.cpuTrees i).threadCnt =
      (s.cpuTrees i).threadCnt + if i = (s.lnode head).tree then 1 else 0)
    (hret : Returns (fun fuel => moveSmallestBody fuel s₁ head) s₂) :
    SameTrees s₁ s₂ ∧ (ListSorted n s₂ ↔ QueueSafe n s) := by
  obtain ⟨rest, rfl⟩ := List.head?_eq_some_iff.mp (hl.head.symm.trans hhead)
  have hl₁ := hlist.linked hl
  have hnd := List.nodup_cons.mp hl.nodup
  have hkey : ∀ x ∈ head :: rest, s₁.cntOf x = s.cntOf x + if x = head then 1 else 0 := by
    intro x hx
    have hx' : (s.lnode x).tree = (s.lnode head).tree ↔ x = head := by
      refine ⟨fun h => ?_, fun h => by rw [h]⟩
      rw [← (hl.tree hx).2, h, (hl.tree (by simp)).2]
    rw [Sched.cntOf, hlist.lnode, hcnt, Sched.cntOf]
    simp only [hx']
  have hkeyhead : s₁.cntOf head = s.cntOf head + 1 := by simpa using hkey head (by simp)
  have hkeyrest : ∀ x ∈ rest, s₁.cntOf x = s.cntOf x := by
    intro x hx
    have hne : x ≠ head := fun hc => hnd.1 (hc ▸ hx)
    simpa [hne] using hkey x (by simp [hx])
  obtain ⟨hleast, hrest⟩ := List.pairwise_cons.mp hsorted
  have hrest₁ : rest.Pairwise fun a b => s₁.cntOf a ≤ s₁.cntOf b :=
    hrest.imp_of_mem fun ha hb hab => by rwa [hkeyrest _ ha, hkeyrest _ hb]
  obtain ⟨low, high, hsplit, hlow, hhigh⟩ := exists_prefix (fun x => s₁.cntOf x < s₁.cntOf head) rest
  have hlow' : ∀ x ∈ low, s.cntOf x ≤ s.cntOf head := by
    intro x hx
    have := hlow x hx
    rw [hkeyhead, hkeyrest x (by simp [hsplit, hx])] at this
    omega
  have hlen : rest.length + 1 = n := by simpa using hl.nodes.length_eq
  -- safe means that not all nodes are passed
  have hsafe : QueueSafe n s ↔ low = [] ∨ high ≠ [] := by
    constructor
    · intro h
      by_contra hnot
      obtain ⟨hlowne, hhighnil⟩ := not_or.mp hnot
      rw [not_not.mp hhighnil, List.append_nil] at hsplit
      subst hsplit
      rcases h with hone | ⟨i, hi, j, hj, hij⟩
      · exact hlowne (List.length_eq_zero_iff.mp (by omega))
      · rw [← hl.cntOf hi, ← hl.cntOf hj] at hij
        rcases List.mem_cons.mp (hl.mem hj) with hjh | hjr
        · rcases List.mem_cons.mp (hl.mem hi) with hih | hir
          · rw [hih, hjh] at hij
            omega
          · have := hleast _ hir
            rw [hjh] at hij
            omega
        · have hle := hlow' _ hjr
          rcases List.mem_cons.mp (hl.mem hi) with hih | hir
          · rw [hih] at hij
            omega
          · have := hleast _ hir
            omega
    · intro h
      cases high with
      | nil =>
          have hlownil : low = [] := h.resolve_right fun hne => hne rfl
          left
          rw [hsplit, hlownil] at hlen
          simpa using hlen.symm
      | cons b high =>
          have hb := hhigh b rfl
          have hbrest : b ∈ rest := by simp [hsplit]
          rw [hkeyhead, hkeyrest b hbrest] at hb
          exact .inr ⟨_, (hl.tree (a := head) (by simp)).1, _, (hl.tree (a := b) (by simp [hbrest])).1,
            by rw [Sched.cntOf, Sched.cntOf] at hb; omega⟩
  subst hsplit
  have hhigh' : ∀ x, high.head? = some x → s₁.cntOf head ≤ s₁.cntOf x :=
    fun x hx => not_lt.mp (hhigh x hx)
  have hlast : ∀ x, low.getLast? = some x → s₁.cntOf x ≤ s₁.cntOf head :=
    fun x hx => (hlow x (List.mem_of_getLast? hx)).le
  have hnew := pairwise_insert hrest₁ hlast hhigh'
  by_cases hlownil : low = []
  · subst hlownil
    obtain rfl := hret.unique (moveSmallestBody_stay hl₁ hhigh)
    exact ⟨.refl _, fun _ => hsafe.mpr (.inl rfl), fun _ => ⟨_, hl₁, hnew⟩⟩
  obtain ⟨s₃, hret₃, hsame, hmove, hend⟩ := moveSmallestBody_move hl₁ hlownil hlow hhigh
  obtain rfl := hret.unique hret₃
  rw [hsafe]
  refine ⟨hsame, fun hls => ?_, fun h => ?_⟩
  · by_contra hnot
    obtain ⟨hhead₂, hprev₂⟩ := hend (not_not.mp (not_or.mp hnot).2)
    obtain ⟨cells', hl₂, -⟩ := hls
    obtain ⟨nh, hnh⟩ := Option.ne_none_iff_exists'.mp (mt List.head?_eq_none_iff.mp hlownil)
    have hnone := hl₂.links.prev_of_head (hl₂.head.symm.trans (hhead₂.trans hnh))
    rw [hprev₂ nh hnh] at hnone
    cases hnone
  · refine ⟨_, hmove (h.resolve_left hlownil), ?_⟩
    simpa only [hsame.cntOf] using hnew

/-- With the count of `c` lowered, the list is in order again exactly when this was safe. -/
theorem moveLeft_sorted {s₁ s₂ : Sched} (hl : Linked n s cells)
    (hsorted : cells.Pairwise fun a b => s.cntOf a ≤ s.cntOf b) (hc : (s.thread th).tree < n)
    (hpos : 0 < (s.cpuTrees (s.thread th).tree).threadCnt) (hlist : SameList s s₁)
    (hcnt : ∀ i, (s₁.cpuTrees i).threadCnt =
      if i = (s.thread th).tree then (s.cpuTrees (s.thread th).tree).threadCnt - 1
      else (s.cpuTrees i).threadCnt)
    (hret : Returns (fun fuel => moveLeftBody fuel s₁ (s.thread th).tree) s₂) :
    SameTrees s₁ s₂ ∧ (ListSorted n s₂ ↔ DequeueSafe n s th) := by
  set c := (s.thread th).tree with hcdef
  set l := (s.cpuTrees c).listPtr with hldef
  have hl₁ := hlist.linked hl
  have hlmem : l ∈ cells := hl.mem hc
  obtain ⟨before, back, rfl⟩ := List.append_of_mem hlmem
  have hcntl : s.cntOf l = (s.cpuTrees c).threadCnt := hl.cntOf hc
  have hkey : ∀ x ∈ before ++ l :: back, s₁.cntOf x = if x = l then s.cntOf l - 1 else s.cntOf x := by
    intro x hx
    have hx' : (s.lnode x).tree = c ↔ x = l := by
      refine ⟨fun h => ?_, fun h => by rw [h]; exact hl.owner c hc⟩
      rw [← (hl.tree hx).2, h]
    rw [Sched.cntOf, hlist.lnode, hcnt, hcntl]
    simp only [hx', Sched.cntOf]
  obtain ⟨hbnd, hlbnd, hdisj⟩ := List.nodup_append.mp hl.nodup
  have hkeyl : s₁.cntOf l = s.cntOf l - 1 := by simpa using hkey l (by simp)
  have hkeybefore : ∀ x ∈ before, s₁.cntOf x = s.cntOf x := by
    intro x hx
    have hne : x ≠ l := hdisj x hx l (by simp)
    simpa [hne] using hkey x (by simp [hx])
  have hkeyback : ∀ x ∈ back, s₁.cntOf x = s.cntOf x := by
    intro x hx
    have hne : x ≠ l := fun hc => (List.nodup_cons.mp hlbnd).1 (hc ▸ hx)
    simpa [hne] using hkey x (by simp [hx])
  have hcntl₁ : (s₁.cpuTrees c).threadCnt = s₁.cntOf l := by
    rw [hkeyl, hcntl, hcnt, if_pos rfl]
  obtain ⟨front, mid, rfl, hmid, hfront⟩ := exists_suffix (fun x => s₁.cntOf l < s₁.cntOf x) before
  rw [List.append_assoc] at hl hl₁ hsorted
  have hldef₁ : (s₁.cpuTrees c).listPtr = l := hlist.listPtr c
  obtain ⟨s₃, hret₃, hsame, hstay, hmove⟩ := moveLeftBody_spec hldef₁ hl₁
    (by rw [hcntl₁]; exact hmid) (by rw [hcntl₁]; exact hfront)
  obtain rfl := hret.unique hret₃
  -- `front` has fewer threads, `mid` has as many
  have hleft := List.pairwise_append.mp hsorted
  have hright := List.pairwise_append.mp hleft.2.1
  have hfewer : ∀ x ∈ front, s.cntOf x < s.cntOf l := by
    intro x hx
    obtain ⟨front', z, rfl⟩ := (List.eq_nil_or_concat front).resolve_left (List.ne_nil_of_mem hx)
    rw [List.concat_eq_append] at hx hfront hleft hkeybefore
    have hz := hfront z (by simp)
    rw [hkeyl, hkeybefore z (by simp)] at hz
    rcases List.mem_append.mp hx with hx | hx
    · have := (List.pairwise_append.mp hleft.1).2.2 x hx z (by simp)
      omega
    · obtain rfl : x = z := by simpa using hx
      omega
  have htie : ∀ x ∈ mid, s.cntOf x = s.cntOf l := by
    intro x hx
    have h := hmid x hx
    have hle := hright.2.2 x hx l (by simp)
    rw [hkeyl, hkeybefore x (by simp [hx])] at h
    omega
  have hmore : ∀ x ∈ back, s.cntOf l ≤ s.cntOf x := (List.pairwise_cons.mp hright.2.1).1
  have hcount : (List.range n).countP
      (fun i => (s.cpuTrees i).threadCnt < (s.cpuTrees c).threadCnt) = front.length := by
    have hmap : (List.range n).countP (fun i => (s.cpuTrees i).threadCnt < (s.cpuTrees c).threadCnt) =
        ((List.range n).map fun i => (s.cpuTrees i).listPtr).countP
          (fun a => s.cntOf a < s.cntOf l) := by
      rw [List.countP_map]
      refine List.countP_congr fun i hi => ?_
      simp [hl.cntOf (List.mem_range.mp hi), hcntl]
    have hzero : (mid ++ l :: back).countP (fun a => s.cntOf a < s.cntOf l) = 0 := by
      refine List.countP_eq_zero.mpr fun x hx => ?_
      simp only [decide_eq_true_eq, not_lt]
      rcases List.mem_append.mp hx with hx | hx
      · exact (htie x hx).ge
      · rcases List.mem_cons.mp hx with rfl | hx
        · exact le_rfl
        · exact hmore x hx
    rw [hmap, ← hl.nodes.countP_eq, List.countP_append, hzero, Nat.add_zero,
      List.countP_eq_length.mpr fun x hx => by simpa using hfewer x hx]
  have hprev : s.prevOf l = (front ++ mid).getLast? := by
    have := hl.links
    rw [← List.append_assoc] at this
    simpa using this.prev_of_append
  have hsafe : DequeueSafe n s th ↔ front.length ≠ 2 ∨ mid = [] := by
    have htied : (∃ p, s.prevOf l = some p ∧ s.cntOf p = (s.cpuTrees c).threadCnt) ↔ mid ≠ [] := by
      rw [hprev, ← hcntl]
      constructor
      · rintro ⟨p, hp, hcntp⟩ rfl
        rw [List.append_nil] at hp
        exact absurd (hfewer p (List.mem_of_getLast? hp)) (by omega)
      · intro hne
        obtain ⟨p, hp⟩ := Option.ne_none_iff_exists'.mp (mt List.getLast?_eq_none_iff.mp hne)
        exact ⟨p, by rw [List.getLast?_append, hp, Option.some_or],
          htie p (List.mem_of_getLast? hp)⟩
    rw [DequeueSafe, ← hcdef, ← hldef, hcount, htied, not_and_or, not_not]
  have hpair : (front ++ (mid ++ back)).Pairwise fun a b => s₁.cntOf a ≤ s₁.cntOf b := by
    have hsub : (front ++ (mid ++ back)).Sublist (front ++ (mid ++ l :: back)) :=
      ((List.sublist_cons_self l back).append_left mid).append_left front
    refine (hsorted.sublist hsub).imp_of_mem fun {a b} ha hb hab => ?_
    have hsame : ∀ x ∈ front ++ (mid ++ back), s₁.cntOf x = s.cntOf x := by
      intro x hx
      rw [← List.append_assoc] at hx
      rcases List.mem_append.mp hx with hx | hx
      · exact hkeybefore x hx
      · exact hkeyback x hx
    rwa [hsame a ha, hsame b hb]
  have hnew := pairwise_insert (y := l) hpair (fun x hx => not_lt.mp (hfront x hx)) (by
    intro x hx
    rcases List.mem_append.mp (List.mem_of_mem_head? hx) with hx | hx
    · exact (hmid x hx).le
    · have := hmore x hx
      rw [hkeyl, hkeyback x hx]
      omega)
  rw [hsafe]
  refine ⟨hsame, fun hls => ?_, fun h => ?_⟩
  · by_contra hnot
    obtain ⟨hlen, hmidne⟩ := not_or.mp hnot
    obtain ⟨cells', hl₂, hsorted₂⟩ := hls
    rw [hstay (not_not.mp hlen)] at hl₂ hsorted₂
    rw [hl₁.unique hl₂] at hsorted₂
    obtain ⟨m, hm⟩ := List.exists_mem_of_ne_nil mid hmidne
    have hle := (List.pairwise_append.mp (List.pairwise_append.mp hsorted₂).2.1).2.2 m hm l (by simp)
    exact absurd (hmid m hm) (not_lt.mpr hle)
  · by_cases hlen : front.length = 2
    · have hmidnil := h.resolve_left (not_not.mpr hlen)
      subst hmidnil
      rw [hstay hlen]
      exact ⟨_, hl₁, by simpa using hnew⟩
    · exact ⟨_, hmove hlen, by simpa only [hsame.cntOf] using hnew⟩

inductive CpuCall
  | queue (th : Nat)
  | dequeue (th : Nat)

namespace CpuCall

/-- A thread is queued while it is not, and dequeued while it is. -/
def Valid (live : List Nat) : CpuCall → Prop
  | queue th => th ∉ live ∧ live.length + 1 < 2 ^ 64
  | dequeue th => th ∈ live

instance : DecidablePred (Valid live)
  | queue _ => inferInstanceAs (Decidable (_ ∧ _))
  | dequeue _ => inferInstanceAs (Decidable (_ ∈ _))

def run (env : SchedEnv) (fuel : Nat) (s : Sched) : CpuCall → Option Sched
  | queue th => schedulerQueueThread env fuel s th
  | dequeue th => schedulerDequeueThread fuel s th

/-- The threads queued after a call. -/
def threads (live : List Nat) : CpuCall → List Nat
  | queue th => th :: live
  | dequeue th => live.erase th

def Safe (n : Nat) (s : Sched) : CpuCall → Prop
  | queue _ => QueueSafe n s
  | dequeue th => DequeueSafe n s th

instance : DecidablePred (Safe n s)
  | queue _ => inferInstanceAs (Decidable (QueueSafe n s))
  | dequeue th => inferInstanceAs (Decidable (DequeueSafe n s th))

theorem run_steady (env : SchedEnv) (s : Sched) (call : CpuCall) :
    Steady fun fuel => call.run env fuel s := by
  cases call with
  | queue th => exact schedulerQueueThread_steady env s th
  | dequeue th => exact schedulerDequeueThread_steady s th

end CpuCall

/-- The call returns, in the state `s'`. -/
def CpuReturns (env : SchedEnv) (s : Sched) (call : CpuCall) (s' : Sched) : Prop :=
  Returns (fun fuel => call.run env fuel s) s'

/-- `scheduler_init` gets different blocks for the nodes of the list. -/
def ListBlocks (env : SchedEnv) (s : Sched) : Prop :=
  ∀ i < env.coreNum, ∀ j < env.coreNum,
    env.kmalloc (s.kmallocs + i) = env.kmalloc (s.kmallocs + j) → i = j

/--
Runs of calls that are `ok`, from `scheduler_init` or from any state in which the
list is right.
-/
inductive CpuRun (env : SchedEnv) (ok : Sched → CpuCall → Prop) : Sched → List Nat → Prop
  | init (s : Sched) (blocks : ListBlocks env s) : CpuRun env ok (schedulerInit env s) []
  | resume {s : Sched} {live : List Nat} (inv : CpuListInv env.coreNum s live) : CpuRun env ok s live
  | call {s s' : Sched} {live : List Nat} {call : CpuCall} (run : CpuRun env ok s live)
      (valid : call.Valid live) (isOk : ok s call) (returns : CpuReturns env s call s') :
      CpuRun env ok s' (call.threads live)

theorem queue_step (h : CpuListInv n s live) (fresh : th ∉ live) (hroom : live.length + 1 < 2 ^ 64)
    (hret : CpuReturns env s (.queue th) s') :
    (ListSorted n s' ↔ QueueSafe n s) ∧ (ListSorted n s' → CpuListInv n s' (th :: live)) := by
  obtain ⟨fuel, hfuel⟩ := hret
  obtain ⟨head, s₁, s₂, core, hhead, hjoined, hbody, rfl⟩ :=
    schedulerQueueThread_parts (hfuel fuel le_rfl)
  obtain ⟨cells, hl, hsorted⟩ := h.sorted
  obtain ⟨hsame, hiff⟩ := moveSmallest_sorted hl hsorted hhead hjoined.list hjoined.cnt
    ((moveSmallestBody_steady s₁ head).returns fuel hbody)
  obtain ⟨hlist, htrees, hthread⟩ := startCore_frame env s₂ core
  have hheadmem : head ∈ cells := by
    obtain ⟨rest, rfl⟩ := List.head?_eq_some_iff.mp (hl.head.symm.trans hhead)
    simp
  have htree : ∀ x, ((startCore env s₂.unlockList core).thread x).tree =
      if x = th then (s.lnode head).tree else (s.thread x).tree := by
    intro x
    rw [hthread, hsame.thread, hjoined.tree]
  refine ⟨(hlist.listSorted_iff fun i => by rw [htrees]).trans hiff, fun hls => ⟨hls, ?_, ?_, ?_, ?_⟩⟩
  · intro i hi
    rw [htrees, hsame.cpuTrees, hjoined.cnt, h.cnt i hi, List.countP_cons, htree, if_pos rfl]
    congr 1
    · refine List.countP_congr fun x hx => ?_
      rw [htree, if_neg fun hxt : x = th => fresh (hxt ▸ hx)]
    · by_cases hic : i = (s.lnode head).tree <;> simp [hic, eq_comm]
  · intro x hx
    rw [htree]
    split
    · exact (hl.tree hheadmem).1
    · next hne => exact h.tree x ((List.mem_cons.mp hx).resolve_left hne)
  · exact List.nodup_cons.mpr ⟨fresh, h.nodup⟩
  · simpa using hroom

/-- A thread left its tree, whose node was moved: the list is right again exactly if this was safe. -/
theorem left_step {s₁ s₂ : Sched} {fuel : Nat} (h : CpuListInv n s live) (hth : th ∈ live)
    (hleft : Left s s₁ (s.thread th).tree)
    (hbody : moveLeftBody fuel s₁ (s.thread th).tree = some s₂) :
    (ListSorted n s₂.unlockList ↔ DequeueSafe n s th) ∧
      (ListSorted n s₂.unlockList → CpuListInv n s₂.unlockList (live.erase th)) := by
  obtain ⟨cells, hl, hsorted⟩ := h.sorted
  set c := (s.thread th).tree with hc
  have hcn : c < n := h.tree th hth
  have hpos : 0 < (s.cpuTrees c).threadCnt := by
    rw [h.cnt c hcn]
    exact List.countP_pos_iff.mpr ⟨th, hth, by simp [hc]⟩
  have hsub : sub64 (s.cpuTrees c).threadCnt 1 = (s.cpuTrees c).threadCnt - 1 := by
    refine sub64_of_le hpos ?_
    rw [h.cnt c hcn]
    exact List.countP_le_length.trans_lt h.room
  have hcnt : ∀ i, (s₁.cpuTrees i).threadCnt =
      if i = c then (s.cpuTrees c).threadCnt - 1 else (s.cpuTrees i).threadCnt := by
    intro i
    rw [hleft.cnt, hsub]
  obtain ⟨hsame, hiff⟩ := moveLeft_sorted hl hsorted hcn hpos hleft.list hcnt
    ((moveLeftBody_steady s₁ c).returns fuel hbody)
  have hlist : SameList s₂ s₂.unlockList := ⟨rfl, rfl, fun _ => rfl⟩
  have htree : ∀ x, (s₂.unlockList.thread x).tree = (s.thread x).tree := by
    intro x
    rw [← hleft.tree x, ← hsame.thread]
    rfl
  refine ⟨(hlist.listSorted_iff fun _ => rfl).trans hiff, fun hls => ⟨hls, ?_, ?_, ?_, ?_⟩⟩
  · intro i hi
    have hcount := (List.perm_cons_erase hth).countP_eq (fun x => (s.thread x).tree = i)
    rw [← h.cnt i hi, List.countP_cons, ← hc] at hcount
    have hcnt₂ : (s₂.unlockList.cpuTrees i).threadCnt = (s₁.cpuTrees i).threadCnt := by
      rw [← hsame.cpuTrees]
      rfl
    rw [hcnt₂, hcnt]
    simp only [htree]
    by_cases hic : i = c
    · subst hic
      simp only [decide_true, if_true] at hcount ⊢
      omega
    · rw [if_neg hic]
      simpa [Ne.symm hic] using hcount
  · intro x hx
    rw [htree]
    exact h.tree x (List.mem_of_mem_erase hx)
  · exact h.nodup.erase th
  · exact List.length_erase_le.trans_lt h.room

theorem dequeue_step (h : CpuListInv n s live) (hth : th ∈ live)
    (hret : CpuReturns env s (.dequeue th) s') :
    (ListSorted n s' ↔ DequeueSafe n s th) ∧
      (ListSorted n s' → CpuListInv n s' (live.erase th)) := by
  obtain ⟨fuel, hfuel⟩ := hret
  obtain ⟨s₁, s₂, hleft, hbody, rfl⟩ := schedulerDequeueThread_parts (hfuel fuel le_rfl)
  exact left_step h hth hleft hbody

theorem cpuCall_step (h : CpuListInv n s live) {call : CpuCall} (valid : call.Valid live)
    (hret : CpuReturns env s call s') :
    (ListSorted n s' ↔ call.Safe n s) ∧
      (ListSorted n s' → CpuListInv n s' (call.threads live)) := by
  cases call with
  | queue th => exact queue_step h valid.1 valid.2 hret
  | dequeue th => exact dequeue_step h valid hret

section Init

/-- What `scheduler_init` has built after `n` CPUs. -/
structure InitInv (env : SchedEnv) (base n : Nat) (s : Sched) : Prop where
  linked : ∃ cells, Linked n s cells ∧ ∀ a ∈ cells, ∃ i < n, env.kmalloc (base + i) = a
  cnt : ∀ i < n, (s.cpuTrees i).threadCnt = 0
  kmallocs : s.kmallocs = base + n

theorem schedulerInitCpu_eq (env : SchedEnv) (s : Sched) (i : Nat) :
    ∃ t : ThreadTree, t.threadCnt = 0 ∧ t.listPtr = env.kmalloc s.kmallocs ∧
      schedulerInitCpu env s i =
        { ((({ s.setTree i t with kmallocs := s.kmallocs + 1 } : Sched).setLnode
              (env.kmalloc s.kmallocs) ⟨i, s.cpuTreeList, none⟩).setListPrevOf s.cpuTreeList
                (some (env.kmalloc s.kmallocs))).setSleepPqueue i ThreadPqueue.init with
          cpuTreeList := some (env.kmalloc s.kmallocs) } := by
  refine ⟨{ s.cpuTrees i with
    threadCnt := 0
    timeSlice := 0
    root := none
    cpuNum := i
    lock := false
    listPtr := env.kmalloc s.kmallocs }, rfl, rfl, ?_⟩
  unfold schedulerInitCpu Sched.setListPrevOf
  cases hlist : s.cpuTreeList with
  | none =>
      simp only [Sched.setLnode, Sched.setTree, hlist]
  | some head =>
      simp only [Sched.setLnode, Sched.setTree, hlist]

/-- The node of CPU `n` comes before the nodes that are there. -/
theorem initInv_succ {base : Nat} (h : InitInv env base n s)
    (blocks : ∀ i < n, env.kmalloc (base + i) ≠ env.kmalloc (base + n)) :
    InitInv env base (n + 1) (schedulerInitCpu env s n) := by
  obtain ⟨cells, hl, hcells⟩ := h.linked
  obtain ⟨t, htcnt, htptr, heq⟩ := schedulerInitCpu_eq env s n
  set a := env.kmalloc s.kmallocs with ha
  have hnew : a ∉ cells := by
    intro hmem
    obtain ⟨i, hi, hia⟩ := hcells a hmem
    exact blocks i hi (by rw [hia, ha, h.kmallocs])
  have hcnt : ∀ i, ((schedulerInitCpu env s n).cpuTrees i) =
      if i = n then t else s.cpuTrees i := by
    intro i
    rw [heq]
    cases s.cpuTreeList <;> by_cases hi : i = n <;>
      simp [Sched.setSleepPqueue, Sched.setListPrevOf, Sched.setListPrev, Sched.setLnode,
        Sched.setTree, hi]
  have hnext : ∀ x, (schedulerInitCpu env s n).nextOf x =
      if x = a then s.cpuTreeList else s.nextOf x := by
    intro x
    rw [heq]
    refine (nextOf_setListPrevOf _ _ _ x).trans ?_
    by_cases hx : x = a <;> simp [Sched.nextOf, Sched.setLnode, Sched.setTree, hx]
  have hprev : ∀ x, (schedulerInitCpu env s n).prevOf x =
      if s.cpuTreeList = some x then some a else if x = a then none else s.prevOf x := by
    intro x
    rw [heq]
    refine (prevOf_setListPrevOf _ _ _ x).trans ?_
    by_cases hx : x = a <;> simp [Sched.prevOf, Sched.setLnode, Sched.setTree, hx]
  have howner : ∀ x, ((schedulerInitCpu env s n).lnode x).tree =
      if x = a then n else (s.lnode x).tree := by
    intro x
    rw [heq]
    refine ((SameTrees.refl _).setListPrevOf _ _ |>.owner x).trans ?_
    by_cases hx : x = a <;> simp [Sched.setLnode, Sched.setTree, hx]
  have hne : ∀ x ∈ cells, x ≠ a := fun x hx hxa => hnew (hxa ▸ hx)
  have hheadne : s.cpuTreeList ≠ some a := by
    rw [hl.head]
    exact fun hc => hnew (List.mem_of_mem_head? hc)
  have hptr : ∀ i ∈ List.range n, ((schedulerInitCpu env s n).cpuTrees i).listPtr =
      (s.cpuTrees i).listPtr := by
    intro i hi
    rw [hcnt, if_neg (List.mem_range.mp hi).ne]
  refine ⟨⟨a :: cells, ⟨⟨?_, ?_, ?_⟩, ?_, List.nodup_cons.mpr ⟨hnew, hl.nodup⟩, ?_, ?_⟩, ?_⟩, ?_, ?_⟩
  · rw [hprev, if_neg hheadne, if_pos rfl]
  · rw [hnext, if_pos rfl, hl.head]
    simp
  · refine hl.links.rehead (fun x hx => ?_) (fun x hx => ?_) fun x hx => ?_
    · rw [hnext, if_neg (hne x hx)]
    · rw [hprev, hl.head, if_pos hx]
    · have hxc := List.mem_of_mem_tail hx
      have hxh : s.cpuTreeList ≠ some x := by
        rw [hl.head]
        intro hc
        obtain ⟨rest, rfl⟩ := List.head?_eq_some_iff.mp hc
        exact (List.nodup_cons.mp hl.nodup).1 hx
      rw [hprev, if_neg hxh, if_neg (hne x hxc)]
  · rw [heq]
    rfl
  · rw [List.range_succ, List.map_append, List.map_congr_left hptr]
    simp only [List.map_cons, List.map_nil, hcnt, if_true, htptr]
    exact (hl.nodes.cons a).trans (List.perm_append_singleton a _).symm
  · intro i hi
    rcases Nat.lt_succ_iff_lt_or_eq.mp hi with hi | rfl
    · rw [hcnt, if_neg hi.ne, howner, if_neg (hne _ (hl.mem hi)), hl.owner i hi]
    · rw [hcnt, if_pos rfl, htptr, howner, if_pos rfl]
  · intro x hx
    rcases List.mem_cons.mp hx with rfl | hx
    · exact ⟨n, Nat.lt_succ_self n, by rw [ha, h.kmallocs]⟩
    · obtain ⟨i, hi, hix⟩ := hcells x hx
      exact ⟨i, Nat.lt_succ_of_lt hi, hix⟩
  · intro i hi
    rw [hcnt]
    split
    · exact htcnt
    · exact h.cnt i (by omega)
  · rw [heq]
    show (Sched.setListPrevOf _ _ _).kmallocs = _
    cases s.cpuTreeList <;> simp [Sched.setListPrevOf, Sched.setListPrev, Sched.setLnode, h.kmallocs,
      Nat.add_assoc]

theorem initInv_foldl (s : Sched) (n : Nat) (blocks : ∀ i < n, ∀ j < n,
      env.kmalloc (s.kmallocs + i) = env.kmalloc (s.kmallocs + j) → i = j) :
    InitInv env s.kmallocs n
      ((List.range n).foldl (schedulerInitCpu env) { s with cpuTreeList := none }) := by
  induction n with
  | zero => exact ⟨⟨[], ⟨trivial, rfl, by simp, by simp, by simp⟩, by simp⟩, by simp, rfl⟩
  | succ n ih =>
      rw [List.range_succ, List.foldl_append]
      refine initInv_succ (ih fun i hi j hj => blocks i (by omega) j (by omega)) fun i hi hij => ?_
      exact hi.ne (blocks i (by omega) n (by omega) hij)

theorem cpuListInv_init (s : Sched) (blocks : ListBlocks env s) :
    CpuListInv env.coreNum (schedulerInit env s) [] := by
  have h := initInv_foldl s env.coreNum blocks
  obtain ⟨cells, hl, -⟩ := h.linked
  have hframe : ∀ (t : Sched) (is : List Nat),
      SameList t (is.foldl (fun s i => s.setPrevThread i none) t) ∧
        (is.foldl (fun s i => s.setPrevThread i none) t).cpuTrees = t.cpuTrees := by
    intro t is
    induction is generalizing t with
    | nil => exact ⟨.refl t, rfl⟩
    | cons i is ih =>
        obtain ⟨hlist, htrees⟩ := ih (t.setPrevThread i none)
        have hstep : SameList t (t.setPrevThread i none) := ⟨rfl, rfl, fun _ => rfl⟩
        exact ⟨hstep.trans hlist, htrees⟩
  unfold schedulerInit
  obtain ⟨hlist, htrees⟩ := hframe { (List.range env.coreNum).foldl (schedulerInitCpu env)
    { s with cpuTreeList := none } with cpuTreeListLock := false } (List.range env.coreNum)
  have hl' := hlist.linked (SameList.linked (s := (List.range env.coreNum).foldl (schedulerInitCpu env)
    { s with cpuTreeList := none }) ⟨rfl, rfl, fun _ => rfl⟩ hl)
  have hzero : ∀ i < env.coreNum, _ := fun i hi =>
    (congrArg (fun trees => ThreadTree.threadCnt (trees i)) htrees).trans (h.cnt i hi)
  refine ⟨⟨cells, hl', ?_⟩, fun i hi => hzero i hi, by simp, by simp, by simp⟩
  refine List.Pairwise.imp_of_mem (R := fun _ _ => True) ?_ (List.pairwise_of_forall fun _ _ => trivial)
  intro a b ha hb _
  rw [← (hl'.tree ha).2, hl'.cntOf (hl'.tree ha).1]
  exact (hzero _ (hl'.tree ha).1).le.trans (Nat.zero_le _)

end Init

theorem cpuRun_inv {ok : Sched → CpuCall → Prop} (hok : ∀ s call, ok s call → call.Safe env.coreNum s)
    (run : CpuRun env ok s live) : CpuListInv env.coreNum s live := by
  induction run with
  | init s blocks => exact cpuListInv_init s blocks
  | resume inv => exact inv
  | call _ valid isOk returns ih =>
      obtain ⟨hiff, hinv⟩ := cpuCall_step ih valid returns
      exact hinv (hiff.mpr (hok _ _ isOk))

/--
In every run of safe calls the list holds the node of each CPU once, in order of
the numbers of threads, so that its head has the fewest; the next call that
returns leaves it so exactly when that call is safe.
-/
theorem cpu_list_sorted (run : CpuRun env (CpuCall.Safe env.coreNum ·) s live) :
    ListSorted env.coreNum s ∧
    (∀ head, s.cpuTreeList = some head →
      ∀ i < env.coreNum, s.cntOf head ≤ (s.cpuTrees i).threadCnt) ∧
    ∀ call s', call.Valid live → CpuReturns env s call s' →
      (ListSorted env.coreNum s' ↔ call.Safe env.coreNum s) := by
  have hinv := cpuRun_inv (fun _ _ h => h) run
  refine ⟨hinv.sorted, ?_, fun call s' valid hret => (cpuCall_step hinv valid hret).1⟩
  intro head hhead i hi
  obtain ⟨cells, hl, hsorted⟩ := hinv.sorted
  obtain ⟨rest, rfl⟩ := List.head?_eq_some_iff.mp (hl.head.symm.trans hhead)
  rw [← hl.cntOf hi]
  rcases List.mem_cons.mp (hl.mem hi) with hih | hir
  · rw [hih]
  · exact (List.pairwise_cons.mp hsorted).1 _ hir

section Examples

/-- Two CPUs, and a `kmalloc` that gives one block after the other. -/
def twoCpus : SchedEnv := ⟨fun k => 100 + k, 2, 1, fun _ => true⟩

theorem twoCpus_blocks : ListBlocks twoCpus blankSched :=
  fun _ _ _ _ h => by simpa [twoCpus] using h

theorem twoCpus_init {ok : Sched → CpuCall → Prop} :
    CpuRun twoCpus ok (schedulerInit twoCpus blankSched) [] := .init blankSched twoCpus_blocks

/-- `CpuListInv`, read off the nodes `cells` of the list. -/
theorem cpuListInv_of_cells (h : Linked n s cells ∧
      cells.Pairwise (fun a b => s.cntOf a ≤ s.cntOf b) ∧
      (∀ i < n, (s.cpuTrees i).threadCnt = live.countP fun x => (s.thread x).tree = i) ∧
      (∀ x ∈ live, (s.thread x).tree < n) ∧ live.Nodup ∧ live.length < 2 ^ 64) :
    CpuListInv n s live := by
  obtain ⟨hl, hsorted, hcnt, htree, hnodup, hroom⟩ := h
  exact ⟨⟨cells, hl, hsorted⟩, hcnt, htree, hnodup, hroom⟩

/-- A safe call that returns, or `none`. -/
def cpuStep (env : SchedEnv) (fuel : Nat) (r : Sched × List Nat) (call : CpuCall) :
    Option (Sched × List Nat) :=
  if call.Valid r.2 ∧ call.Safe env.coreNum r.1 then
    (call.run env fuel r.1).map fun s => (s, call.threads r.2)
  else none

theorem cpuRun_of_steps (fuel : Nat) (calls : List CpuCall)
    (run : CpuRun env (CpuCall.Safe env.coreNum ·) s live) {r : Sched × List Nat}
    (hr : calls.foldlM (cpuStep env fuel) (s, live) = some r) :
    CpuRun env (CpuCall.Safe env.coreNum ·) r.1 r.2 := by
  induction calls generalizing s live with
  | nil =>
      obtain rfl : (s, live) = r := Option.some.inj hr
      exact run
  | cons call calls ih =>
      rw [List.foldlM_cons] at hr
      obtain ⟨⟨s₁, live₁⟩, hstep, hr⟩ := Option.bind_eq_some_iff.mp hr
      rw [cpuStep] at hstep
      split at hstep
      · rename_i hcall
        obtain ⟨s', hrun, hs'⟩ := Option.map_eq_some_iff.mp hstep
        obtain ⟨rfl, rfl⟩ := Prod.mk.inj hs'
        exact ih (run.call hcall.1 hcall.2 ((call.run_steady env s).returns fuel hrun)) hr
      · cases hstep

/-- CPU 0 has the thread 1, and CPU 1 has none and stands first in the list. -/
def oneOnFirst : Option Sched := threadTreeAdd twoCpus 8 (schedulerInit twoCpus blankSched) 0 1

/-- A thread comes to CPU 1, that of CPU 0 leaves, which moves it to the front, and one comes there. -/
def threeCalls : List CpuCall := [.queue 2, .dequeue 1, .queue 3]

theorem oneOnFirst_right : oneOnFirst.map (fun s => decide (Linked 2 s [101, 100] ∧
    [101, 100].Pairwise (fun a b => s.cntOf a ≤ s.cntOf b) ∧
    (∀ i < 2, (s.cpuTrees i).threadCnt = [1].countP fun x => (s.thread x).tree = i) ∧
    (∀ x ∈ [1], (s.thread x).tree < 2) ∧ [1].Nodup ∧ [1].length < 2 ^ 64)) = some true := by
  decide +kernel

theorem threeCalls_run :
    (oneOnFirst.bind fun s => threeCalls.foldlM (cpuStep twoCpus 8) (s, [1])).map
      (fun r => (r.2, r.1.cpuTreeList)) = some ([3, 2], some 100) := by decide +kernel

theorem cpu_list_sorted_threeCalls : ∃ s₀ s, oneOnFirst = some s₀ ∧
    threeCalls.foldlM (cpuStep twoCpus 8) (s₀, [1]) = some (s, [3, 2]) ∧
    s.cpuTreeList = some 100 ∧ ListSorted 2 s ∧
    (∀ head, s.cpuTreeList = some head → ∀ i < 2, s.cntOf head ≤ (s.cpuTrees i).threadCnt) ∧
    ∀ call s', call.Valid [3, 2] → CpuReturns twoCpus s call s' →
      (ListSorted 2 s' ↔ call.Safe 2 s) := by
  obtain ⟨s₀, hs₀, hright⟩ := Option.map_eq_some_iff.mp oneOnFirst_right
  obtain ⟨⟨s, live⟩, hcalls, hfacts⟩ := Option.map_eq_some_iff.mp threeCalls_run
  obtain ⟨rfl, hhead⟩ := Prod.mk.inj hfacts
  rw [hs₀, Option.bind_some] at hcalls
  have hstart : CpuRun twoCpus (CpuCall.Safe 2 ·) s₀ [1] :=
    .resume (cpuListInv_of_cells (of_decide_eq_true hright))
  have hrun : CpuRun twoCpus (CpuCall.Safe 2 ·) s [3, 2] := cpuRun_of_steps 8 threeCalls hstart hcalls
  exact ⟨s₀, s, hs₀, hcalls, hhead, cpu_list_sorted hrun⟩

theorem not_listSorted (h : s.cpuTreeList.bind s.prevOf = some x) : ¬ListSorted n s := by
  rintro ⟨cells, hl, -⟩
  obtain ⟨head, hhead, hprev⟩ := Option.bind_eq_some_iff.mp h
  rw [hl.links.prev_of_head (hl.head.symm.trans hhead)] at hprev
  cases hprev

theorem twoCpus_queue :
    (schedulerQueueThread twoCpus 8 (schedulerInit twoCpus blankSched) 1).map
      (fun s => s.cpuTreeList.bind s.prevOf) = some (some 101) := by decide +kernel

/-- After the first thread was queued on two CPUs, the head of the list points back. -/
theorem cpu_list_stale_prev :
    ∃ s, CpuRun twoCpus (fun _ _ => True) s [1] ∧ s.cpuTreeList.bind s.prevOf = some 101 ∧
      ¬ListSorted 2 s := by
  obtain ⟨s, hqueue, hprev⟩ := Option.map_eq_some_iff.mp twoCpus_queue
  have hret : CpuReturns twoCpus (schedulerInit twoCpus blankSched) (.queue 1) s :=
    (schedulerQueueThread_steady _ _ _).returns 8 hqueue
  exact ⟨s, @CpuRun.call _ _ _ _ _ (.queue 1) twoCpus_init (by simp [CpuCall.Valid]) trivial hret, hprev,
    not_listSorted hprev⟩

end Examples

end UntitledOs.Mtask
