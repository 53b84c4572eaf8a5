import UntitledOs.Lib.LinkedList
import UntitledOs.Mtask.Scheduler

/-!
# The list of the CPUs

`cpu_tree_list` holds one node for each CPU, the one with the fewest threads
first.  A node whose count changed is linked in at another place.
-/

namespace UntitledOs.Mtask

open UntitledOs.Lib UntitledOs.RbTree

variable {env : SchedEnv} {s s' : Sched} {live cells low high front mid back : List Nat}
  {th a h l n c x : Nat} {v : Option Nat}

section Links

namespace Sched

/-- `next` of a list node. -/
def nextOf (s : Sched) (a : Nat) : Option Nat := (s.lnode a).next

/-- `prev` of a list node. -/
def prevOf (s : Sched) (a : Nat) : Option Nat := (s.lnode a).prev

@[simp] theorem nextOf_setListNext :
    (s.setListNext a v).nextOf x = if x = a then v else s.nextOf x := by
  by_cases hx : x = a
  · simp [hx, nextOf, setListNext, setLnode]
  · simp [hx, nextOf, setListNext, setLnode]

@[simp] theorem prevOf_setListNext : (s.setListNext a v).prevOf x = s.prevOf x := by
  by_cases hx : x = a
  · simp [hx, prevOf, setListNext, setLnode]
  · simp [hx, prevOf, setListNext, setLnode]

@[simp] theorem nextOf_setListPrev : (s.setListPrev a v).nextOf x = s.nextOf x := by
  by_cases hx : x = a
  · simp [hx, nextOf, setListPrev, setLnode]
  · simp [hx, nextOf, setListPrev, setLnode]

@[simp] theorem prevOf_setListPrev :
    (s.setListPrev a v).prevOf x = if x = a then v else s.prevOf x := by
  by_cases hx : x = a
  · simp [hx, prevOf, setListPrev, setLnode]
  · simp [hx, prevOf, setListPrev, setLnode]

@[simp] theorem cpuTreeList_setListNext : (s.setListNext a v).cpuTreeList = s.cpuTreeList := rfl

@[simp] theorem cpuTreeList_setListPrev : (s.setListPrev a v).cpuTreeList = s.cpuTreeList := rfl

@[simp] theorem nextOf_setHead : ({ s with cpuTreeList := v } : Sched).nextOf x = s.nextOf x := rfl

@[simp] theorem prevOf_setHead : ({ s with cpuTreeList := v } : Sched).prevOf x = s.prevOf x := rfl

end Sched

/-- `s'` is `s` apart from the links of the list. -/
structure SameTrees (s s' : Sched) : Prop where
  cpuTrees : s'.cpuTrees = s.cpuTrees
  owner : ∀ a, (s'.lnode a).tree = (s.lnode a).tree
  thread : s'.thread = s.thread

namespace SameTrees

theorem refl (s : Sched) : SameTrees s s := ⟨rfl, fun _ => rfl, rfl⟩

theorem setListNext (h : SameTrees s s') (a : Nat) (v : Option Nat) :
    SameTrees s (s'.setListNext a v) := by
  refine ⟨h.cpuTrees, fun x => ?_, h.thread⟩
  rw [← h.owner x]
  by_cases hx : x = a
  · simp [hx, Sched.setListNext, Sched.setLnode]
  · simp [hx, Sched.setListNext, Sched.setLnode]

theorem setListPrev (h : SameTrees s s') (a : Nat) (v : Option Nat) :
    SameTrees s (s'.setListPrev a v) := by
  refine ⟨h.cpuTrees, fun x => ?_, h.thread⟩
  rw [← h.owner x]
  by_cases hx : x = a
  · simp [hx, Sched.setListPrev, Sched.setLnode]
  · simp [hx, Sched.setListPrev, Sched.setLnode]

theorem setHead (h : SameTrees s s') (v : Option Nat) :
    SameTrees s { s' with cpuTreeList := v } := ⟨h.cpuTrees, h.owner, h.thread⟩

theorem cntOf (h : SameTrees s s') (a : Nat) : s'.cntOf a = s.cntOf a := by
  rw [Sched.cntOf, Sched.cntOf, h.owner, h.cpuTrees]

end SameTrees

end Links

/-- `cells` are the nodes of the `n` CPUs, linked in this order. -/
structure Linked (n : Nat) (s : Sched) (cells : List Nat) : Prop where
  links : LinkedList s.nextOf s.prevOf cells
  head : s.cpuTreeList = cells.head?
  nodup : cells.Nodup
  nodes : cells.Perm ((List.range n).map fun i => (s.cpuTrees i).listPtr)
  owner : ∀ i < n, (s.lnode (s.cpuTrees i).listPtr).tree = i

instance : Decidable (Linked n s cells) :=
  decidable_of_iff (LinkedList s.nextOf s.prevOf cells ∧ s.cpuTreeList = cells.head? ∧
      cells.Nodup ∧ cells.Perm ((List.range n).map fun i => (s.cpuTrees i).listPtr) ∧
      ∀ i < n, (s.lnode (s.cpuTrees i).listPtr).tree = i)
    ⟨fun ⟨links, head, nodup, nodes, owner⟩ => ⟨links, head, nodup, nodes, owner⟩,
      fun h => ⟨h.links, h.head, h.nodup, h.nodes, h.owner⟩⟩

/-- The list is in order of the numbers of threads. -/
def ListSorted (n : Nat) (s : Sched) : Prop :=
  ∃ cells, Linked n s cells ∧ cells.Pairwise fun a b => s.cntOf a ≤ s.cntOf b

namespace Linked

theorem relink (hl : Linked n s cells) (hsame : SameTrees s s') {cells' : List Nat}
    (hperm : cells'.Perm cells) (hhead : s'.cpuTreeList = cells'.head?)
    (hlinks : LinkedList s'.nextOf s'.prevOf cells') : Linked n s' cells' := by
  refine ⟨hlinks, hhead, hperm.nodup_iff.mpr hl.nodup, ?_, fun i hi => ?_⟩
  · rw [hsame.cpuTrees]
    exact hperm.trans hl.nodes
  · rw [hsame.owner, hsame.cpuTrees]
    exact hl.owner i hi

theorem unique (hl : Linked n s cells) {cells' : List Nat} (hl' : Linked n s cells') :
    cells' = cells :=
  Segment.unique hl'.links hl.links (hl'.head.symm.trans hl.head)

end Linked

section MoveSmallest

/-- The loop of `cpu_tree_list_move_smallest` stops at the first node with as many threads. -/
theorem moveSmallestLoop_spec (fuel : Nat) (hfuel : low.length < fuel) {before : Option Nat}
    (hlow : ∀ x ∈ low, s.cntOf x < s.cntOf h)
    (hhigh : ∀ x, high.head? = some x → ¬s.cntOf x < s.cntOf h)
    (hseg : Segment s.nextOf s.prevOf before (low ++ high) none) :
    moveSmallestLoop s h fuel before (low ++ high).head? =
      some (low.getLast?.or before, high.head?) := by
  induction low generalizing fuel before with
  | nil =>
      obtain ⟨fuel, rfl⟩ : ∃ k, fuel = k + 1 := ⟨fuel - 1, by omega⟩
      cases high with
      | nil => rfl
      | cons b high =>
          have hb := hhigh b rfl
          simp [moveSmallestLoop, hb]
  | cons b low ih =>
      obtain ⟨fuel, rfl⟩ : ∃ k, fuel = k + 1 := ⟨fuel - 1, by omega⟩
      have hb := hlow b (by simp)
      have hnext : (s.lnode b).next = (low ++ high).head? := by
        simpa [Sched.nextOf] using hseg.2.1
      rw [List.cons_append, List.head?_cons, moveSmallestLoop, if_pos hb, hnext,
        ih fuel (by simpa using hfuel) (fun x hx => hlow x (by simp [hx])) hseg.2.2]
      cases low with
      | nil => simp
      | cons b' low => simp [List.getLast?_cons]

theorem moveSmallestBody_stay (hl : Linked n s (h :: high))
    (hhigh : ∀ x, high.head? = some x → ¬s.cntOf x < s.cntOf h) :
    Returns (fun fuel => moveSmallestBody fuel s h) s := by
  have hnext : (s.lnode h).next = high.head? := by simpa [Sched.nextOf] using hl.links.2.1
  unfold moveSmallestBody
  cases high with
  | nil =>
      simp only [hnext, List.head?_nil]
      exact Returns.const s
  | cons cur high =>
      have hprev : (s.lnode cur).prev = some h := hl.links.2.2.1
      refine ⟨1, fun fuel hfuel => ?_⟩
      have hloop := @moveSmallestLoop_spec _ [] _ h fuel (by simp; omega) _ (by simp)
        hhigh hl.links.2.2
      simp only [List.nil_append, List.head?_cons] at hloop
      simp only [hnext, List.head?_cons, hprev]
      rw [hloop]
      simp [hprev]

/-- Some nodes are passed: the head comes to stand behind them. -/
theorem moveSmallestBody_move (hl : Linked n s (h :: (low ++ high))) (hne : low ≠ [])
    (hlow : ∀ x ∈ low, s.cntOf x < s.cntOf h)
    (hhigh : ∀ x, high.head? = some x → ¬s.cntOf x < s.cntOf h) :
    ∃ s', Returns (fun fuel => moveSmallestBody fuel s h) s' ∧ SameTrees s s' ∧
      (high ≠ [] → Linked n s' (low ++ h :: high)) ∧
      (high = [] → s'.cpuTreeList = low.head? ∧ ∀ x, low.head? = some x → s'.prevOf x = some h) := by
  obtain ⟨nh, hnh⟩ := Option.ne_none_iff_exists'.mp (mt List.head?_eq_none_iff.mp hne)
  obtain ⟨p, hp⟩ := Option.ne_none_iff_exists'.mp (mt List.getLast?_eq_none_iff.mp hne)
  have hnext : (s.lnode h).next = some nh := by
    have := hl.links.2.1
    simpa [hnh, Sched.nextOf] using this
  have hprevnh : (s.lnode nh).prev = some h := by
    have := hl.links.2.2.prev_of_head (a := nh) (by simp [hnh])
    simpa [Sched.prevOf] using this
  have hloop : ∀ fuel, low.length < fuel →
      moveSmallestLoop s h fuel (some h) (some nh) = some (some p, high.head?) := by
    intro fuel hfuel
    have := moveSmallestLoop_spec fuel hfuel hlow hhigh hl.links.2.2
    simpa [hnh, hp] using this
  have hnd := List.nodup_cons.mp hl.nodup
  have hlowmem : ∀ x ∈ low, x ≠ h := fun x hx hxh => hnd.1 (hxh ▸ List.mem_append_left _ hx)
  have hph : p ≠ h := hlowmem p (List.mem_of_getLast? hp)
  have hnhh : nh ≠ h := hlowmem nh (List.mem_of_mem_head? hnh)
  cases high with
  | nil =>
      set s' : Sched := { ((s.setListNext p (some h)).setListNext h none).setListPrev h (some p) with
        cpuTreeList := some nh } with hs'
      refine ⟨s', ⟨low.length + 1, fun fuel hfuel => ?_⟩, ?_, fun h => absurd rfl h, fun _ => ⟨?_, ?_⟩⟩
      · unfold moveSmallestBody
        simp only [hnext, hprevnh]
        rw [hloop fuel (by omega)]
        rfl
      · exact ((((SameTrees.refl s).setListNext _ _).setListNext _ _).setListPrev _ _).setHead _
      · exact hnh.symm
      · intro x hx
        obtain rfl := Option.some.inj (hnh.symm.trans hx)
        rw [← Sched.prevOf] at hprevnh
        simpa [hs', hnhh] using hprevnh
  | cons cur high =>
      have hcurh : cur ≠ h := fun hc => hnd.1 (by simp [hc])
      have hdisj := (List.nodup_append.mp hnd.2).2.2
      have hcurnh : nh ≠ cur := hdisj nh (List.mem_of_mem_head? hnh) cur (by simp)
      have hcurp : p ≠ cur := hdisj p (List.mem_of_getLast? hp) cur (by simp)
      have hprevcur : s.prevOf cur = some p := by
        have := (Segment.append_iff.mp hl.links.2.2).2.1
        simpa [hp] using this
      set s' : Sched := { ((((s.setListNext p (some h)).setListNext h (some cur)).setListPrev h
        (some p)).setListPrev cur (some h)).setListPrev nh none with cpuTreeList := some nh } with hs'
      have hsame : SameTrees s s' := (((((SameTrees.refl s).setListNext _ _).setListNext _ _).setListPrev
        _ _).setListPrev _ _).setListPrev _ _ |>.setHead _
      refine ⟨s', ⟨low.length + 1, fun fuel hfuel => ?_⟩, hsame, fun _ => ?_, fun h => nomatch h⟩
      · have hprevcur' : (((s.setListNext p (some h)).setListNext h (some cur)).lnode cur).prev =
            some p := by
          rw [← Sched.prevOf]
          simpa using hprevcur
        unfold moveSmallestBody
        simp only [hnext, hprevnh]
        rw [hloop fuel (by omega)]
        rw [Sched.prevOf] at hprevcur
        simp only [List.head?_cons, Option.bind_some, hprevcur, ne_eq, Option.some.injEq, hph,
          not_false_eq_true, if_true, Option.map_some, hprevcur', hs']
      · refine hl.relink hsame List.perm_middle (by simp [hs', hnh]) ?_
        refine @Segment.swap _ _ _ _ _ _ _ [] _ [h] _ hl.links hl.nodup (by simp) hne ?_ ?_ ?_ ?_ ?_
          ?_ ?_ ?_
        · simp
        · intro x hx
          obtain rfl := Option.some.inj (hp.symm.trans hx)
          simp [hs', hph]
        · intro x hx
          obtain rfl : h = x := by simpa using hx
          simp [hs']
        · intro x hx
          obtain rfl := Option.some.inj (hnh.symm.trans hx)
          simp [hs']
        · intro x hx
          obtain rfl : h = x := by simpa using hx
          simp [hs', hnhh.symm, hcurh.symm, hp]
        · intro x hx
          obtain rfl : cur = x := by simpa using hx
          simp [hs', hcurnh.symm]
        · intro x _ hxh hxp
          have hxh : x ≠ h := by simpa [eq_comm] using hxh
          have hxp : x ≠ p := fun hc => hxp (hc ▸ hp)
          simp [hs', hxh, hxp]
        · intro x hxh hxn hxc
          have hxh : x ≠ h := by simpa [eq_comm] using hxh
          have hxn : x ≠ nh := fun hc => hxn (hc ▸ hnh)
          have hxc : x ≠ cur := by simpa [eq_comm] using hxc
          simp [hs', hxh, hxn, hxc]

end MoveSmallest

section MoveLeft

/-- The loop of `cpu_tree_list_move_left` stops at the last node without more threads. -/
theorem moveLeftLoop_spec (fuel : Nat) (hfuel : mid.length < fuel) {cnt : Nat} {after : Option Nat}
    (hmid : ∀ x ∈ mid, cnt < s.cntOf x)
    (hfront : ∀ x, front.getLast? = some x → ¬cnt < s.cntOf x)
    (hseg : Segment s.nextOf s.prevOf none (front ++ mid) after) :
    moveLeftLoop s cnt fuel (front ++ mid).getLast? = some front.getLast? := by
  induction mid using List.reverseRecOn generalizing fuel after with
  | nil =>
      obtain ⟨fuel, rfl⟩ : ∃ k, fuel = k + 1 := ⟨fuel - 1, by omega⟩
      rw [List.append_nil]
      cases hlast : front.getLast? with
      | none => rfl
      | some b =>
          have hb := hfront b hlast
          simp [moveLeftLoop, hb]
  | append_singleton mid b ih =>
      obtain ⟨fuel, rfl⟩ : ∃ k, fuel = k + 1 := ⟨fuel - 1, by omega⟩
      rw [← List.append_assoc] at hseg ⊢
      have hb := hmid b (by simp)
      have hprev : (s.lnode b).prev = (front ++ mid).getLast? := by
        simpa [Sched.prevOf] using hseg.prev_of_append
      rw [List.getLast?_append, List.getLast?_singleton, Option.some_or, moveLeftLoop, if_pos hb, hprev]
      exact ih fuel (by simpa using hfuel) (fun x hx => hmid x (by simp [hx]))
        (Segment.append_iff.mp hseg).1

theorem moveLeftBody_first (hl : Linked n s ((s.cpuTrees c).listPtr :: back)) :
    Returns (fun fuel => moveLeftBody fuel s c) s := by
  have hprev : (s.lnode (s.cpuTrees c).listPtr).prev = none := hl.links.1
  unfold moveLeftBody
  simp only [hprev]
  exact Returns.const s

/-- `if(o) o->prev = v` -/
def Sched.setListPrevOf (s : Sched) (o v : Option Nat) : Sched :=
  match o with
  | none => s
  | some a => s.setListPrev a v

@[simp] theorem nextOf_setListPrevOf (s : Sched) (o v : Option Nat) (x : Nat) :
    (s.setListPrevOf o v).nextOf x = s.nextOf x := by
  cases o <;> simp [Sched.setListPrevOf]

@[simp] theorem prevOf_setListPrevOf (s : Sched) (o v : Option Nat) (x : Nat) :
    (s.setListPrevOf o v).prevOf x = if o = some x then v else s.prevOf x := by
  cases o <;> simp [Sched.setListPrevOf, eq_comm]

theorem SameTrees.setListPrevOf (h : SameTrees s s') (o v : Option Nat) :
    SameTrees s (s'.setListPrevOf o v) := by
  cases o with
  | none => exact h
  | some a => exact h.setListPrev a v

@[simp] theorem cpuTreeList_setListPrevOf (s : Sched) (o v : Option Nat) :
    (s.setListPrevOf o v).cpuTreeList = s.cpuTreeList := by
  cases o <;> rfl

theorem unlinkLnode_eq {p : Nat} (hlp : l ≠ p) :
    unlinkLnode s l p =
      (s.setListNext p (s.nextOf l)).setListPrevOf (s.nextOf l) (s.prevOf l) := by
  have hnext : ((s.setListNext p (s.nextOf l)).lnode l).next = s.nextOf l := by
    rw [← Sched.nextOf]
    simp [hlp]
  have hprev : ((s.setListNext p (s.nextOf l)).lnode l).prev = s.prevOf l := by
    rw [← Sched.prevOf]
    simp
  exact congrArg₂ (Sched.setListPrevOf (s.setListNext p (s.nextOf l))) hnext hprev

/-- The first nodes all have more threads: the node comes to stand before them. -/
theorem moveLeftBody_front (hl : Linked n s (mid ++ (s.cpuTrees c).listPtr :: back))
    (hne : mid ≠ []) (hmid : ∀ x ∈ mid, (s.cpuTrees c).threadCnt < s.cntOf x) :
    ∃ s', Returns (fun fuel => moveLeftBody fuel s c) s' ∧ SameTrees s s' ∧
      Linked n s' ((s.cpuTrees c).listPtr :: (mid ++ back)) := by
  set l := (s.cpuTrees c).listPtr with hldef
  obtain ⟨m, hm⟩ := Option.ne_none_iff_exists'.mp (mt List.head?_eq_none_iff.mp hne)
  obtain ⟨p, hp⟩ := Option.ne_none_iff_exists'.mp (mt List.getLast?_eq_none_iff.mp hne)
  have hprev : s.prevOf l = some p := by simpa [hp] using hl.links.prev_of_append
  have hnext : s.nextOf l = back.head? := by simpa using hl.links.next_of_append
  obtain ⟨-, hndl, hdisj⟩ := List.nodup_append.mp hl.nodup
  have hpl : l ≠ p := (hdisj p (List.mem_of_getLast? hp) l (by simp)).symm
  have hml : m ≠ l := hdisj m (List.mem_of_mem_head? hm) l (by simp)
  have hlist : s.cpuTreeList = some m := by
    rw [hl.head]
    simp [hm]
  have hloop : ∀ fuel, mid.length < fuel →
      moveLeftLoop s (s.cpuTrees c).threadCnt fuel (some p) = some none := by
    intro fuel hfuel
    have := @moveLeftLoop_spec _ [] _ fuel hfuel _ _ hmid (by simp)
      (Segment.append_iff.mp hl.links).1
    simpa [hp] using this
  set s' : Sched := { (((unlinkLnode s l p).setListNext l (some m)).setListPrev l none).setListPrev m
    (some l) with cpuTreeList := some l } with hs'
  have hunlink := unlinkLnode_eq (s := s) hpl
  have hsame : SameTrees s s' := by
    rw [hs', hunlink]
    exact (((((SameTrees.refl s).setListNext _ _).setListPrevOf _ _).setListNext _ _).setListPrev
      _ _).setListPrev _ _ |>.setHead _
  refine ⟨s', ⟨mid.length + 1, fun fuel hfuel => ?_⟩, hsame, ?_⟩
  · have hlist' : (unlinkLnode s l p).cpuTreeList = some m := by
      rw [hunlink, cpuTreeList_setListPrevOf]
      exact hlist
    have hprev' : (s.lnode l).prev = some p := hprev
    unfold moveLeftBody
    simp only [← hldef, hprev']
    rw [hloop fuel (by omega)]
    simp only [Option.bind_some, hlist']
    rw [show (((unlinkLnode s l p).setListNext l (some m)).setListPrev l none).cpuTreeList = some m
      from hlist']
    rfl
  · refine hl.relink hsame ?_ rfl ?_
    · exact List.perm_middle.symm
    · refine @Segment.swap _ _ _ _ _ _ _ [] _ _ [l] hl.links hl.nodup hne (by simp) ?_ ?_ ?_ ?_ ?_
          ?_ ?_ ?_
      · simp
      · intro x hx
        obtain rfl : l = x := by simpa using hx
        simp [hs', hm]
      · intro x hx
        obtain rfl := Option.some.inj (hp.symm.trans hx)
        simp [hs', hunlink, hpl.symm, hnext]
      · intro x hx
        obtain rfl : l = x := by simpa using hx
        simp [hs', hml.symm]
      · intro x hx
        obtain rfl := Option.some.inj (hm.symm.trans hx)
        simp [hs']
      · intro x hx
        have hxb := List.mem_of_mem_head? hx
        have hxl : x ≠ l := fun hc => (List.nodup_cons.mp hndl).1 (hc ▸ hxb)
        have hxm : x ≠ m := (hdisj m (List.mem_of_mem_head? hm) x (by simp [hxb])).symm
        simp [hs', hunlink, hxl, hxm, hnext, hx, hprev, hp]
      · intro x _ hxp hxl
        have hxp : x ≠ p := fun hc => hxp (hc ▸ hp)
        have hxl : x ≠ l := by simpa [eq_comm] using hxl
        simp [hs', hunlink, hxl, hxp]
      · intro x hxm hxl hxb
        have hxm : x ≠ m := fun hc => hxm (hc ▸ hm)
        have hxl : x ≠ l := by simpa [eq_comm] using hxl
        simp [hs', hunlink, hxl, hxm, hnext, hxb]

/-- The last of `front` is not the second node of the list. -/
theorem prev_ne_head {cur : Nat} {rest : List Nat} (hl : Linked n s (front ++ cur :: rest))
    (hlen : front.length ≠ 1) : s.prevOf cur ≠ s.cpuTreeList := by
  rw [hl.head, show s.prevOf cur = front.getLast? by simpa using hl.links.prev_of_append]
  intro heq
  match front, hlen, hl.nodup, heq with
  | [], _, _, heq => simp at heq
  | a :: b :: front, _, hnd, heq =>
      have ha : a ∈ b :: front := by
        refine List.mem_of_getLast? ?_
        simpa using heq
      simp only [List.cons_append, List.nodup_cons, List.mem_cons, List.mem_append] at hnd
      simp only [List.mem_cons] at ha
      tauto

theorem prev_eq_head {cur first : Nat} {rest : List Nat} (hl : Linked n s (first :: cur :: rest)) :
    s.prevOf cur = s.cpuTreeList := by
  rw [hl.head]
  exact hl.links.2.2.1

/-- The loop stops at the node behind which the node is to stand. -/
theorem moveLeftBody_loop {cur p : Nat}
    (hl : Linked n s ((front ++ [cur]) ++ (mid ++ l :: back))) (hp : (cur :: mid).getLast? = some p)
    (hmid : ∀ x ∈ mid, (s.cpuTrees c).threadCnt < s.cntOf x)
    (hcur : ¬(s.cpuTrees c).threadCnt < s.cntOf cur) (fuel : Nat) (hfuel : mid.length < fuel) :
    moveLeftLoop s (s.cpuTrees c).threadCnt fuel (some p) = some (some cur) := by
  have hl' := hl.links
  rw [← List.append_assoc] at hl'
  have hloop := moveLeftLoop_spec fuel hfuel hmid (by simpa using hcur) (Segment.append_iff.mp hl').1
  have hlast : ((front ++ [cur]) ++ mid).getLast? = some p := by
    rw [List.append_assoc, List.getLast?_append, List.singleton_append, hp, Option.some_or]
  rw [hlast] at hloop
  simpa using hloop

/-- The node is moved behind `cur`, unless `cur` is the second one of the list. -/
theorem moveLeftBody_behind {cur : Nat} (hldef : (s.cpuTrees c).listPtr = l)
    (hl : Linked n s ((front ++ [cur]) ++ (mid ++ l :: back)))
    (hmid : ∀ x ∈ mid, (s.cpuTrees c).threadCnt < s.cntOf x)
    (hcur : ¬(s.cpuTrees c).threadCnt < s.cntOf cur) :
    ∃ s', Returns (fun fuel => moveLeftBody fuel s c) s' ∧ SameTrees s s' ∧
      (front.length = 1 → s' = s) ∧
      (front.length ≠ 1 → Linked n s' ((front ++ [cur]) ++ (l :: (mid ++ back)))) := by
  obtain ⟨p, hp⟩ : ∃ p, (cur :: mid).getLast? = some p :=
    Option.ne_none_iff_exists'.mp (mt List.getLast?_eq_none_iff.mp (by simp))
  have hloop := moveLeftBody_loop hl hp hmid hcur
  have hl' : Linked n s (front ++ (cur :: mid) ++ l :: back) := by simpa using hl
  have hprev : s.prevOf l = some p := by
    have := hl'.links.prev_of_append
    rwa [List.getLast?_append, hp, Option.some_or, Option.some_or] at this
  have hnext : s.nextOf l = back.head? := by simpa using hl'.links.next_of_append
  have hprev' : (s.lnode l).prev = some p := hprev
  by_cases hlen : front.length = 1
  · obtain ⟨first, rfl⟩ := List.length_eq_one_iff.mp hlen
    have hhead : (s.lnode cur).prev = s.cpuTreeList := prev_eq_head (by simpa using hl)
    refine ⟨s, ⟨mid.length + 1, fun fuel hfuel => ?_⟩, SameTrees.refl s, fun _ => rfl,
      fun h => absurd hlen h⟩
    unfold moveLeftBody
    simp only [hldef, hprev']
    rw [hloop fuel (by omega)]
    simp [hhead]
  have hhead : (s.lnode cur).prev ≠ s.cpuTreeList := prev_ne_head (by simpa using hl) hlen
  obtain ⟨-, hndl, hdisj⟩ := List.nodup_append.mp hl'.nodup
  have hpl : l ≠ p := (hdisj p (by simp [List.mem_of_getLast? hp]) l (by simp)).symm
  have hcl : cur ≠ l := hdisj cur (by simp) l (by simp)
  set s₁ := ((unlinkLnode s l p).setListNext l ((unlinkLnode s l p).nextOf cur)).setListPrev l
    (some cur) with hs₁
  set s' : Sched := (s₁.setListPrevOf (s₁.nextOf cur) (some l)).setListNext cur (some l) with hs'
  have hunlink := unlinkLnode_eq (s := s) hpl
  have hsame : SameTrees s s' := by
    rw [hs', hs₁, hunlink]
    exact (((((SameTrees.refl s).setListNext _ _).setListPrevOf _ _).setListNext _ _).setListPrev
      _ _).setListPrevOf _ _ |>.setListNext _ _
  refine ⟨s', ⟨mid.length + 1, fun fuel hfuel => ?_⟩, hsame, fun h => absurd h hlen, fun _ => ?_⟩
  · unfold moveLeftBody
    simp only [hldef, hprev']
    rw [hloop fuel (by omega)]
    simp only [Option.bind_some, ne_eq, hhead, not_false_eq_true, if_true]
    rfl
  set nx := if cur = p then back.head? else s.nextOf cur with hnx
  have hnx₀ : (unlinkLnode s l p).nextOf cur = nx := by simp [hunlink, hnext, hnx]
  have hnx₁ : s₁.nextOf cur = nx := by simp [hs₁, hcl, hnx₀]
  have hnext' : ∀ x, s'.nextOf x = if x = cur then some l else if x = l then nx
      else if x = p then back.head? else s.nextOf x := by
    intro x
    rw [hs', Sched.nextOf_setListNext, nextOf_setListPrevOf, hs₁, Sched.nextOf_setListPrev,
      Sched.nextOf_setListNext, hnx₀, hunlink]
    simp [hnext]
  have hprevs : ∀ x, s'.prevOf x = if nx = some x then some l else if x = l then some cur
      else if back.head? = some x then some p else s.prevOf x := by
    intro x
    rw [hs', Sched.prevOf_setListNext, prevOf_setListPrevOf, hnx₁, hs₁, Sched.prevOf_setListPrev,
      Sched.prevOf_setListNext, hunlink]
    simp [hnext, hprev]
  refine hl.relink hsame ((List.perm_middle.symm).append_left _) ?_ ?_
  · rw [hs', Sched.cpuTreeList_setListNext, cpuTreeList_setListPrevOf, hs₁, hunlink]
    have := hl.head
    simpa using this
  cases mid with
  | nil =>
      obtain rfl : cur = p := by simpa using hp
      rw [if_pos rfl] at hnx
      have hcl' : s.nextOf cur = some l := by
        have := hl.links
        rw [List.append_assoc] at this
        simpa using this.next_of_append
      have hback : ∀ x, back.head? = some x → s.prevOf x = some l := fun x hx =>
        (Segment.append_iff.mp hl'.links).2.2.2.prev_of_head hx
      refine Segment.congr hl.links (fun x hx => ?_) fun x hx => ?_
      · rw [hnext']
        split_ifs with hxc hxl
        · rw [hxc, hcl']
        · rw [hxl, hnx, hnext]
        · rfl
      · rw [hprevs, hnx]
        split_ifs with hxb hxl
        · rw [hback x hxb]
        · rw [hxl, hprev]
        · rfl
  | cons m mid =>
      have hp' : (m :: mid).getLast? = some p := by simpa using hp
      have hnd := (List.nodup_append.mp hl'.nodup).1
      have hnd := (List.nodup_append.mp hnd).2.1
      have hpc : p ≠ cur := fun hc => (List.nodup_cons.mp hnd).1 (hc ▸ List.mem_of_getLast? hp')
      have hcm : s.nextOf cur = some m := by
        have := hl.links
        rw [List.append_assoc] at this
        simpa using this.next_of_append
      rw [if_neg hpc.symm, hcm] at hnx
      have hml : m ≠ l := hdisj m (by simp) l (by simp)
      refine @Segment.swap _ _ _ _ _ _ _ (front ++ [cur]) _ _ [l] hl.links hl.nodup (by simp)
        (by simp) ?_ ?_ ?_ ?_ ?_ ?_ ?_ ?_
      · intro x hx
        obtain rfl : cur = x := by simpa using hx
        simp [hnext']
      · intro x hx
        obtain rfl : l = x := by simpa using hx
        simp [hnext', hcl.symm, hnx]
      · intro x hx
        obtain rfl := Option.some.inj (hp'.symm.trans hx)
        simp [hnext', hpc, hpl.symm]
      · intro x hx
        obtain rfl : l = x := by simpa using hx
        simp [hprevs, hnx, hml]
      · intro x hx
        obtain rfl : m = x := by simpa using hx
        simp [hprevs, hnx]
      · intro x hx
        have hxb := List.mem_of_mem_head? hx
        have hxl : x ≠ l := fun hc => (List.nodup_cons.mp hndl).1 (hc ▸ hxb)
        have hxm : m ≠ x := hdisj m (by simp) x (by simp [hxb])
        simp [hprevs, hnx, hxl, hxm, hx, hp']
      · intro x hxc hxp hxl
        have hxc : x ≠ cur := by simpa [eq_comm] using hxc
        have hxl : x ≠ l := by simpa [eq_comm] using hxl
        have hxp : x ≠ p := fun hc => hxp (hc ▸ hp')
        simp [hnext', hxc, hxl, hxp]
      · intro x hxm hxl hxb
        have hxm : m ≠ x := by simpa using hxm
        have hxl : x ≠ l := by simpa [eq_comm] using hxl
        simp [hprevs, hnx, hxl, hxm, hxb]

/-- `cpu_tree_list_move_left`, for a node behind `front` and then `mid`. -/
theorem moveLeftBody_spec (hldef : (s.cpuTrees c).listPtr = l)
    (hl : Linked n s (front ++ (mid ++ l :: back)))
    (hmid : ∀ x ∈ mid, (s.cpuTrees c).threadCnt < s.cntOf x)
    (hfront : ∀ x, front.getLast? = some x → ¬(s.cpuTrees c).threadCnt < s.cntOf x) :
    ∃ s', Returns (fun fuel => moveLeftBody fuel s c) s' ∧ SameTrees s s' ∧
      (front.length = 2 → s' = s) ∧
      (front.length ≠ 2 → Linked n s' (front ++ (l :: (mid ++ back)))) := by
  subst hldef
  rcases List.eq_nil_or_concat front with rfl | ⟨front, cur, rfl⟩
  · by_cases hne : mid = []
    · subst hne
      exact ⟨s, moveLeftBody_first hl, SameTrees.refl s, fun _ => rfl, fun _ => hl⟩
    · obtain ⟨s', hret, hsame, hlinked⟩ := moveLeftBody_front hl hne hmid
      exact ⟨s', hret, hsame, fun h => by simp at h, fun _ => hlinked⟩
  · rw [List.concat_eq_append] at hl hfront
    obtain ⟨s', hret, hsame, hstay, hmove⟩ := moveLeftBody_behind rfl hl hmid (hfront cur (by simp))
    refine ⟨s', hret, hsame, fun h => hstay (by simpa using h), fun h => ?_⟩
    rw [List.concat_eq_append]
    exact hmove (by simpa using h)

end MoveLeft

end UntitledOs.Mtask
