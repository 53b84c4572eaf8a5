import Mathlib.Data.Tree.Basic
import Mathlib.Data.List.Nodup
import Mathlib.Data.List.Perm.Lattice

/-!
# Binary trees in a store of cells

A tree in memory is given by two child links and a parent link of each cell.
`Linked m parent t` says that the links `m` hold the shape `t`, whose nodes are
the cells themselves, below `parent`.  A program edits a tree at one place deep
inside it, so the part around that place is a `Context`: a tree with a hole.
-/

namespace UntitledOs.Lib

variable {α : Type*}

inductive Side
  | left
  | right
  deriving DecidableEq, Repr

namespace Side

def other : Side → Side
  | left => right
  | right => left

@[simp] theorem other_other (d : Side) : d.other.other = d := by
  cases d <;> rfl

@[simp] theorem other_ne (d : Side) : d.other ≠ d := by
  cases d <;> decide

@[simp] theorem ne_other (d : Side) : d ≠ d.other := by
  cases d <;> decide

theorem eq_or_other (d e : Side) : e = d ∨ e = d.other := by
  cases d <;> cases e <;> decide

theorem eq_other_of_ne {d e : Side} (h : e ≠ d) : e = d.other :=
  (eq_or_other d e).resolve_left h

end Side

/-- The tree with root `a` that has `t` on side `d` and `s` on the other side. -/
def join (d : Side) (t : BinaryTree α) (a : α) (s : BinaryTree α) : BinaryTree α :=
  match d with
  | .left => .node a t s
  | .right => .node a s t

def root : BinaryTree α → Option α
  | .nil => none
  | .node a _ _ => some a

def inorder : BinaryTree α → List α
  | .nil => []
  | .node a l r => inorder l ++ a :: inorder r

@[simp] theorem root_nil : root (.nil : BinaryTree α) = none := rfl

@[simp] theorem root_node (a : α) (l r : BinaryTree α) : root (.node a l r) = some a := rfl

@[simp] theorem root_join (d : Side) (t : BinaryTree α) (a : α) (s : BinaryTree α) :
    root (join d t a s) = some a := by
  cases d <;> rfl

@[simp] theorem inorder_nil : inorder (.nil : BinaryTree α) = [] := rfl

@[simp] theorem inorder_node (a : α) (l r : BinaryTree α) :
    inorder (.node a l r) = inorder l ++ a :: inorder r := rfl

theorem root_mem {t : BinaryTree α} {a : α} (h : root t = some a) : a ∈ inorder t := by
  cases t with
  | nil => simp at h
  | node b l r => simp_all

theorem root_eq_none {t : BinaryTree α} : root t = none ↔ t = .nil := by
  cases t <;> simp

theorem inorder_eq_nil {t : BinaryTree α} : inorder t = [] ↔ t = .nil := by
  cases t <;> simp

/-- A tree with a root is a node, seen from either side. -/
theorem eq_join_of_root {t : BinaryTree α} {a : α} (h : root t = some a) (d : Side) :
    ∃ u v, t = join d u a v := by
  cases t with
  | nil => simp at h
  | node b l r =>
      obtain rfl : b = a := by simpa using h
      cases d with
      | left => exact ⟨l, r, rfl⟩
      | right => exact ⟨r, l, rfl⟩

theorem inorder_join_perm (d : Side) (t : BinaryTree α) (a : α) (s : BinaryTree α) :
    (inorder (join d t a s)).Perm (a :: (inorder t ++ inorder s)) := by
  cases d with
  | left => exact List.perm_middle
  | right => exact List.perm_middle.trans (List.perm_append_comm.cons a)

theorem mem_inorder_join {d : Side} {t s : BinaryTree α} {a x : α} :
    x ∈ inorder (join d t a s) ↔ x = a ∨ x ∈ inorder t ∨ x ∈ inorder s := by
  rw [(inorder_join_perm d t a s).mem_iff]
  simp

/-- A rotation keeps the in-order sequence. -/
theorem inorder_rotate (d : Side) (t u v : BinaryTree α) (p s : α) :
    inorder (join d (join d t p u) s v) = inorder (join d t p (join d u s v)) := by
  cases d <;> simp [join]

/-- A tree with a hole: the way from the hole up to the root. -/
inductive Context (α : Type*)
  | top
  | step (outer : Context α) (d : Side) (parent : α) (sibling : BinaryTree α)

namespace Context

def plug : Context α → BinaryTree α → BinaryTree α
  | top, t => t
  | step c d p s, t => c.plug (join d t p s)

/-- The cell the hole hangs on. -/
def owner : Context α → Option α
  | top => none
  | step _ _ p _ => some p

/-- The child link that points into the hole. -/
def slot : Context α → Option (Side × α)
  | top => none
  | step _ d p _ => some (d, p)

def depth : Context α → Nat
  | top => 0
  | step c _ _ _ => c.depth + 1

def before : Context α → List α
  | top => []
  | step c .left _ _ => c.before
  | step c .right p s => c.before ++ (inorder s ++ [p])

def after : Context α → List α
  | top => []
  | step c .left p s => p :: inorder s ++ c.after
  | step c .right _ _ => c.after

def cells : Context α → List α
  | top => []
  | step c _ p s => p :: (inorder s ++ c.cells)

@[simp] theorem plug_top (t : BinaryTree α) : plug top t = t := rfl

theorem plug_step (c : Context α) (d : Side) (p : α) (s t : BinaryTree α) :
    (step c d p s).plug t = c.plug (join d t p s) := rfl

@[simp] theorem owner_top : owner (top : Context α) = none := rfl

@[simp] theorem owner_step (c : Context α) (d : Side) (p : α) (s : BinaryTree α) :
    (step c d p s).owner = some p := rfl

@[simp] theorem slot_top : slot (top : Context α) = none := rfl

@[simp] theorem slot_step (c : Context α) (d : Side) (p : α) (s : BinaryTree α) :
    (step c d p s).slot = some (d, p) := rfl

theorem inorder_plug (c : Context α) (t : BinaryTree α) :
    inorder (c.plug t) = c.before ++ (inorder t ++ c.after) := by
  induction c generalizing t with
  | top => simp [before, after]
  | step c d p s ih =>
      rw [plug_step, ih]
      cases d <;> simp [before, after, join]

/-- A rotation at `g` towards the hole keeps the in-order sequence. -/
theorem inorder_turn (c : Context α) (d : Side) (v s r : BinaryTree α) (g q : α) :
    inorder (((c.step d q r).step d g s).plug v) =
      inorder ((c.step d g (join d s q r)).plug v) := by
  simp only [plug_step]
  rw [inorder_plug, inorder_rotate, ← inorder_plug]

theorem cells_perm (c : Context α) : (c.before ++ c.after).Perm c.cells := by
  induction c with
  | top => simp [before, after, cells]
  | step c d p s ih =>
      cases d with
      | left =>
          refine List.perm_middle.trans ((List.Perm.cons p ?_))
          exact List.perm_append_comm_assoc .. |>.trans (ih.append_left _)
      | right =>
          simp only [before, after, cells, List.append_assoc]
          refine (List.perm_append_comm_assoc ..).trans ?_
          refine .trans ?_ List.perm_middle
          exact (List.perm_middle.trans (ih.cons p)).append_left (inorder s)

theorem inorder_plug_perm (c : Context α) (t : BinaryTree α) :
    (inorder (c.plug t)).Perm (inorder t ++ c.cells) := by
  rw [inorder_plug]
  exact (List.perm_append_comm_assoc ..).trans (c.cells_perm.append_left _)

theorem mem_inorder_plug {c : Context α} {t : BinaryTree α} {x : α} :
    x ∈ inorder (c.plug t) ↔ x ∈ inorder t ∨ x ∈ c.cells := by
  rw [(c.inorder_plug_perm t).mem_iff]
  simp

theorem nodup_plug {c : Context α} {t : BinaryTree α} :
    (inorder (c.plug t)).Nodup ↔ (inorder t ++ c.cells).Nodup :=
  (c.inorder_plug_perm t).nodup_iff

theorem root_plug (c : Context α) {t s : BinaryTree α} (h : root t = root s) :
    root (c.plug t) = root (c.plug s) := by
  induction c generalizing t s with
  | top => exact h
  | step c d p r ih => exact ih (by simp)

theorem owner_mem {c : Context α} {p : α} (h : c.owner = some p) : p ∈ c.cells := by
  cases c with
  | top => simp at h
  | step c d q s => simp_all [cells]

theorem owner_of_slot {c : Context α} {d : Side} {p : α} (h : c.slot = some (d, p)) :
    c.owner = some p := by
  cases c <;> simp_all

/-- Every cell of a tree is the root of a subtree in some context. -/
theorem exists_plug {t : BinaryTree α} {a : α} (h : a ∈ inorder t) (d : Side) :
    ∃ c u v, t = plug c (join d u a v) := by
  suffices ∀ c : Context α, ∃ c' u v, c.plug t = plug c' (join d u a v) from this top
  induction t with
  | nil => simp at h
  | node b l r ihl ihr =>
      intro c
      rw [inorder_node, List.mem_append, List.mem_cons] at h
      rcases h with hl | rfl | hr
      · exact ihl hl (c.step .left b r)
      · cases d with
        | left => exact ⟨c, l, r, rfl⟩
        | right => exact ⟨c, r, l, rfl⟩
      · exact ihr hr (c.step .right b l)

theorem depth_lt (c : Context α) (t : BinaryTree α) :
    c.depth + (inorder t).length ≤ (inorder (c.plug t)).length := by
  rw [(c.inorder_plug_perm t).length_eq, List.length_append]
  suffices c.depth ≤ c.cells.length by omega
  induction c with
  | top => simp [depth]
  | step c d p s ih => simp only [depth, cells, List.length_cons, List.length_append]; omega

end Context

/-- The links of a store of tree cells. -/
structure Links (α : Type*) where
  child : Side → α → Option α
  parent : α → Option α

def Linked (m : Links α) : Option α → BinaryTree α → Prop
  | _, .nil => True
  | up, .node a l r =>
      m.parent a = up ∧ m.child .left a = root l ∧ m.child .right a = root r ∧
        Linked m (some a) l ∧ Linked m (some a) r

instance decidableLinked [DecidableEq α] (m : Links α) :
    (up : Option α) → (t : BinaryTree α) → Decidable (Linked m up t)
  | _, .nil => inferInstanceAs (Decidable True)
  | up, .node a l r =>
      have := decidableLinked m (some a) l
      have := decidableLinked m (some a) r
      inferInstanceAs (Decidable (m.parent a = up ∧ m.child .left a = root l ∧
        m.child .right a = root r ∧ Linked m (some a) l ∧ Linked m (some a) r))

def Context.Linked (m : Links α) : Context α → Option α → Prop
  | .top, _ => True
  | .step c d p s, hole =>
      m.parent p = c.owner ∧ m.child d p = hole ∧ m.child d.other p = root s ∧
        Lib.Linked m (some p) s ∧ c.Linked m (some p)

section Linked

variable {m m' : Links α} {up up' hole hole' : Option α} {t s u v : BinaryTree α}
  {c : Context α} {a p q x : α} {d e : Side}

@[simp] theorem linked_nil : Linked m up .nil := trivial

theorem linked_join :
    Linked m up (join d t a s) ↔
      m.parent a = up ∧ m.child d a = root t ∧ m.child d.other a = root s ∧
        Linked m (some a) t ∧ Linked m (some a) s := by
  cases d with
  | left => rfl
  | right => simp only [join, Linked, Side.other]; tauto

theorem linked_plug :
    Linked m none (c.plug t) ↔ c.Linked m (root t) ∧ Linked m c.owner t := by
  induction c generalizing t with
  | top => simp [Context.Linked]
  | step c d p s ih =>
      rw [Context.plug_step, ih, linked_join, root_join, Context.Linked]
      simp only [Context.owner_step]
      tauto

/-- A linked tree is still linked, below `up'`, when only its root was moved there. -/
theorem Linked.edit (h : Linked m up t) (hnodup : (inorder t).Nodup)
    (hchild : ∀ x ∈ inorder t, ∀ e, m'.child e x = m.child e x)
    (hroot : ∀ x, root t = some x → m'.parent x = up')
    (hparent : ∀ x ∈ inorder t, root t ≠ some x → m'.parent x = m.parent x) :
    Linked m' up' t := by
  induction t generalizing up up' with
  | nil => trivial
  | node a l r ihl ihr =>
      obtain ⟨-, hl, hr, hll, hlr⟩ := h
      rw [inorder_node] at hnodup hchild hparent
      obtain ⟨hnl, hnr, hdis⟩ := List.nodup_append.mp hnodup
      rw [List.nodup_cons] at hnr
      have hne : ∀ x ∈ inorder l ++ inorder r, a ≠ x := by
        intro x hx
        rcases List.mem_append.mp hx with hx | hx
        · exact (hdis x hx a (by simp)).symm
        · rintro rfl; exact hnr.1 hx
      refine ⟨hroot a rfl, ?_, ?_, ?_, ?_⟩
      · rw [hchild a (by simp), hl]
      · rw [hchild a (by simp), hr]
      · refine ihl hll hnl (fun x hx => hchild x (by simp [hx])) ?_ ?_
        · intro x hx
          have hmem := root_mem hx
          rw [hparent x (by simp [hmem]) (by simpa using hne x (by simp [hmem]))]
          cases l with
          | nil => simp at hx
          | node b l r => simp only [root_node, Option.some.injEq] at hx; exact hx ▸ hll.1
        · intro x hx _
          exact hparent x (by simp [hx]) (by simpa using hne x (by simp [hx]))
      · refine ihr hlr hnr.2 (fun x hx => hchild x (by simp [hx])) ?_ ?_
        · intro x hx
          have hmem := root_mem hx
          rw [hparent x (by simp [hmem]) (by simpa using hne x (by simp [hmem]))]
          cases r with
          | nil => simp at hx
          | node b l r => simp only [root_node, Option.some.injEq] at hx; exact hx ▸ hlr.1
        · intro x hx _
          exact hparent x (by simp [hx]) (by simpa using hne x (by simp [hx]))

theorem Linked.congr (h : Linked m up t)
    (hchild : ∀ x ∈ inorder t, ∀ e, m'.child e x = m.child e x)
    (hparent : ∀ x ∈ inorder t, m'.parent x = m.parent x) :
    Linked m' up t := by
  induction t generalizing up with
  | nil => trivial
  | node a l r ihl ihr =>
      obtain ⟨ha, hl, hr, hll, hlr⟩ := h
      refine ⟨?_, ?_, ?_, ?_, ?_⟩
      · rw [hparent a (by simp), ha]
      · rw [hchild a (by simp), hl]
      · rw [hchild a (by simp), hr]
      · exact ihl hll (fun x hx => hchild x (by simp [hx])) fun x hx => hparent x (by simp [hx])
      · exact ihr hlr (fun x hx => hchild x (by simp [hx])) fun x hx => hparent x (by simp [hx])

/-- A context whose hole is filled anew: only the link into the hole may change. -/
theorem Context.Linked.refill (h : c.Linked m hole) (hnodup : c.cells.Nodup)
    (hslot : ∀ e x, c.slot = some (e, x) → m'.child e x = hole')
    (hchild : ∀ x ∈ c.cells, ∀ e, c.slot ≠ some (e, x) → m'.child e x = m.child e x)
    (hparent : ∀ x ∈ c.cells, m'.parent x = m.parent x) :
    c.Linked m' hole' := by
  induction c generalizing hole hole' with
  | top => trivial
  | step c d p s ih =>
      obtain ⟨hp, hd, ho, hs, hc⟩ := h
      rw [Context.cells, List.nodup_cons] at hnodup
      obtain ⟨hps, hnodup⟩ := hnodup
      have hne : ∀ x ∈ inorder s ++ c.cells, p ≠ x := by
        rintro x hx rfl; exact hps hx
      have hkeep : ∀ x ∈ inorder s ++ c.cells, ∀ e, m'.child e x = m.child e x := by
        intro x hx e
        refine hchild x (List.mem_cons_of_mem _ hx) e ?_
        simp [hne x hx]
      refine ⟨?_, hslot d p rfl, ?_, ?_, ?_⟩
      · rw [hparent p (by simp [Context.cells]), hp]
      · rw [hchild p (by simp [Context.cells]) _ (by simp), ho]
      · exact hs.congr (fun x hx => hkeep x (by simp [hx]))
          fun x hx => hparent x (by simp [Context.cells, hx])
      · refine ih hc (List.nodup_append.mp hnodup).2.1 ?_ ?_ ?_
        · intro e x hx
          have hown := Context.owner_of_slot hx
          rw [hkeep x (by simp [Context.owner_mem hown])]
          cases c with
          | top => simp at hx
          | step c d' p' s' =>
              obtain ⟨rfl, rfl⟩ : d' = e ∧ p' = x := by simpa using hx
              exact hc.2.1
        · intro x hx e _
          exact hkeep x (by simp [hx]) e
        · intro x hx
          exact hparent x (by simp [Context.cells, hx])

/-- A cell's parent link tells its context's owner. -/
theorem Linked.child_mem (h : Linked m up t) (ha : a ∈ inorder t)
    (hx : m.child d a = some x) : x ∈ inorder t := by
  induction t generalizing up with
  | nil => simp at ha
  | node b l r ihl ihr =>
      obtain ⟨-, hl, hr, hll, hlr⟩ := h
      rw [inorder_node, List.mem_append, List.mem_cons] at ha
      rcases ha with ha | rfl | ha
      · simp [ihl hll ha]
      · cases d with
        | left => simp [root_mem (hl ▸ hx)]
        | right => simp [root_mem (hr ▸ hx)]
      · simp [ihr hlr ha]

theorem Linked.parent_mem (h : Linked m none t) (ha : a ∈ inorder t)
    (hp : m.parent a = some p) : p ∈ inorder t := by
  obtain ⟨c, u, v, rfl⟩ := Context.exists_plug ha .left
  rw [linked_plug, linked_join] at h
  rw [h.2.1] at hp
  simp [Context.mem_inorder_plug, Context.owner_mem hp]

/--
A rotation at `p` towards side `d` on the links: the subtree `s` on the other
side comes up, its `d`-side subtree `u` moves over to `p`.
-/
theorem Linked.rotate
    (h : Linked m none (c.plug (join d t p (join d u q v))))
    (hnodup : (inorder (c.plug (join d t p (join d u q v)))).Nodup)
    (hpc : m'.child d.other p = root u) (hqc : m'.child d q = some p)
    (hpp : m'.parent p = some q) (hqp : m'.parent q = c.owner)
    (hup : ∀ x, root u = some x → m'.parent x = some p)
    (hslot : ∀ e x, c.slot = some (e, x) → m'.child e x = some q)
    (hchild : ∀ e x, ¬(x = p ∧ e = d.other) → ¬(x = q ∧ e = d) →
      c.slot ≠ some (e, x) → m'.child e x = m.child e x)
    (hparent : ∀ x, x ≠ p → x ≠ q → root u ≠ some x → m'.parent x = m.parent x) :
    Linked m' none (c.plug (join d (join d t p u) q v)) := by
  rw [linked_plug, linked_join, linked_join, root_join, root_join] at h
  obtain ⟨hc, -, hpd, -, ht, -, -, hqo, hu, hv⟩ := h
  have hnd : (p :: q :: (inorder t ++ inorder u ++ inorder v ++ c.cells)).Nodup := by
    rw [Context.nodup_plug] at hnodup
    refine (List.Perm.nodup_iff ?_).mp hnodup
    refine ((inorder_join_perm d t p _).append_right _).trans ?_
    refine List.Perm.cons p ?_
    refine (((inorder_join_perm d u q v).append_left _).append_right _).trans ?_
    refine (List.perm_middle.append_right _).trans ?_
    simp
  have hp : p ∉ q :: (inorder t ++ inorder u ++ inorder v ++ c.cells) := (List.nodup_cons.mp hnd).1
  have hq : q ∉ inorder t ++ inorder u ++ inorder v ++ c.cells :=
    (List.nodup_cons.mp (List.nodup_cons.mp hnd).2).1
  simp only [List.mem_cons, List.mem_append, not_or] at hp hq
  obtain ⟨hpq, ⟨⟨hpt, hpu⟩, hpv⟩, hpx⟩ := hp
  obtain ⟨⟨⟨hqt, hqu⟩, hqv⟩, hqx⟩ := hq
  have hrest := (List.nodup_cons.mp (List.nodup_cons.mp hnd).2).2
  simp only [List.nodup_append, List.mem_append] at hrest
  obtain ⟨⟨⟨hnt, hnu, hdtu⟩, hnv, hdv⟩, hnc, hdc⟩ := hrest
  have hslot' : ∀ x, x ∉ c.cells → ∀ e, c.slot ≠ some (e, x) := by
    intro x hx e hs
    exact hx (Context.owner_mem (Context.owner_of_slot hs))
  have hroot : ∀ x, x ∉ inorder u → root u ≠ some x := fun x hx hr => hx (root_mem hr)
  rw [linked_plug, linked_join, linked_join, root_join, root_join]
  refine ⟨?_, hqp, hqc, ?_, ⟨hpp, ?_, hpc, ?_, ?_⟩, ?_⟩
  · refine hc.refill hnc hslot ?_ ?_
    · intro x hx e hs
      refine hchild e x ?_ ?_ hs
      · rintro ⟨rfl, -⟩; exact hpx hx
      · rintro ⟨rfl, -⟩; exact hqx hx
    · intro x hx
      refine hparent x ?_ ?_ (hroot x fun hxu => hdc x (.inl (.inr hxu)) x hx rfl)
      · rintro rfl; exact hpx hx
      · rintro rfl; exact hqx hx
  · rw [hchild _ _ (by simp [Ne.symm hpq]) (by simp) (hslot' q hqx _), hqo]
  · rw [hchild _ _ (by simp) (by simp [hpq]) (hslot' p hpx _), hpd]
  · refine ht.congr ?_ ?_
    · intro x hx e
      refine hchild e x ?_ ?_ (hslot' x (fun hxc => hdc x (.inl (.inl hx)) x hxc rfl) e)
      · rintro ⟨rfl, -⟩; exact hpt hx
      · rintro ⟨rfl, -⟩; exact hqt hx
    · intro x hx
      refine hparent x ?_ ?_ (hroot x fun hxu => hdtu x hx x hxu rfl)
      · rintro rfl; exact hpt hx
      · rintro rfl; exact hqt hx
  · refine hu.edit hnu ?_ hup ?_
    · intro x hx e
      refine hchild e x ?_ ?_ (hslot' x (fun hxc => hdc x (.inl (.inr hx)) x hxc rfl) e)
      · rintro ⟨rfl, -⟩; exact hpu hx
      · rintro ⟨rfl, -⟩; exact hqu hx
    · intro x hx hr
      refine hparent x ?_ ?_ hr
      · rintro rfl; exact hpu hx
      · rintro rfl; exact hqu hx
  · refine hv.congr ?_ ?_
    · intro x hx e
      refine hchild e x ?_ ?_ (hslot' x (fun hxc => hdc x (.inr hx) x hxc rfl) e)
      · rintro ⟨rfl, -⟩; exact hpv hx
      · rintro ⟨rfl, -⟩; exact hqv hx
    · intro x hx
      refine hparent x ?_ ?_ (hroot x fun hxu => hdv x (.inr hxu) x hx rfl)
      · rintro rfl; exact hpv hx
      · rintro rfl; exact hqv hx

end Linked

end UntitledOs.Lib
