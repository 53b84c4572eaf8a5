import UntitledOs.RbTree.Balance
import UntitledOs.Vmemory.Runs

/-!
# Freed memory coalesces

In a run in which every free finds its neighbours below the new node, no two free
regions ever lie side by side, and when every block has been freed the tree is one
region again.
-/

namespace UntitledOs.Vmemory

open UntitledOs.Lib UntitledOs.RbTree

variable {kmalloc : Nat → Nat} {limit : Nat} {m m' : Allocator} {live rs rs' : List Region}
  {t : Tree Region Unit} {cells cells' : List Nat} {n size b : Nat} {r w x y : Region}
  {ret : Option Nat}

section Regions

/-- No region is empty, and none begins where another ends. -/
structure Separated (rs : List Region) : Prop where
  pos : ∀ x ∈ rs, 0 < x.size
  apart : ∀ x ∈ rs, ∀ y ∈ rs, x.addr + x.size ≠ y.addr

theorem at_eq_one : r.at b = 1 ↔ r.addr ≤ b ∧ b < r.addr + r.size := by
  unfold Region.at
  split <;> simp [*]

theorem exists_of_cover (h : 0 < cover rs b) : ∃ x ∈ rs, x.addr ≤ b ∧ b < x.addr + x.size := by
  induction rs with
  | nil => simp at h
  | cons x rs ih =>
      rw [cover_cons] at h
      by_cases hx : x.addr ≤ b ∧ b < x.addr + x.size
      · exact ⟨x, by simp, hx⟩
      · have hzero : x.at b = 0 := if_neg hx
        obtain ⟨y, hy, hb⟩ := ih (by omega)
        exact ⟨y, List.mem_cons_of_mem _ hy, hb⟩

theorem eq_of_cover (hle : cover rs b ≤ 1) (hx : x ∈ rs) (hy : y ∈ rs)
    (hbx : x.addr ≤ b ∧ b < x.addr + x.size) (hby : y.addr ≤ b ∧ b < y.addr + y.size) : x = y := by
  by_contra hne
  have hyerase : y ∈ rs.erase x := (List.mem_erase_of_ne (Ne.symm hne)).mpr hy
  have hperm := cover_perm (List.perm_cons_erase hx) b
  have hrest := at_le_cover (b := b) hyerase
  rw [cover_cons, at_eq_one.mpr hbx] at hperm
  rw [at_eq_one.mpr hby] at hrest
  omega

theorem Partitions.cover_le (h : Partitions limit (rs ++ live)) (b : Nat) :
    cover rs b + cover live b ≤ 1 := by
  have hb := h b
  rw [cover_append] at hb
  split at hb <;> omega

theorem Separated.same (h : Separated rs) (hle : ∀ b, cover rs b ≤ 1) (hx : x ∈ rs) (hy : y ∈ rs)
    (hbx : x.addr ≤ b ∧ b < x.addr + x.size) (hby : y.addr ≤ b + 1 ∧ b + 1 < y.addr + y.size) :
    x = y := by
  rcases Nat.lt_or_ge (b + 1) (x.addr + x.size) with hlt | hge
  · exact eq_of_cover (hle (b + 1)) hx hy ⟨by omega, hlt⟩ hby
  · rcases Nat.lt_or_ge b y.addr with hlow | hlow
    · exact absurd (show x.addr + x.size = y.addr by omega) (h.apart x hx y hy)
    · exact eq_of_cover (hle b) hx hy hbx ⟨hlow, by omega⟩

/-- What a call that allocates leaves of separated regions is separated. -/
theorem Separated.cut (h : Separated rs) (hpart : Partitions limit (rs ++ live))
    (hpart' : Partitions limit (rs' ++ grow live size ret)) (hpos : 0 < size)
    (hends : EndsFrom rs rs' ret) : Separated rs' := by
  refine ⟨fun x hx => (hends h.pos x hx).1, fun x hx y hy heq => ?_⟩
  have hypos := (hends h.pos y hy).1
  have hfree : 1 ≤ cover rs' y.addr := by
    have hle := at_le_cover (b := y.addr) hy
    rwa [at_eq_one.mpr ⟨le_rfl, by omega⟩] at hle
  have hsum := hpart'.cover_le y.addr
  rcases (hends h.pos x hx).2 with ⟨z, hz, hend⟩ | hret
  · -- the byte was free before, so that `z` ended where a free region went on
    have hgrow : cover live y.addr ≤ cover (grow live size ret) y.addr := by
      cases ret <;> simp [grow]
    have hold := hpart y.addr
    have hnew := hpart' y.addr
    rw [cover_append] at hold hnew
    have hwas : 0 < cover rs y.addr := by omega
    obtain ⟨y', hy', hb⟩ := exists_of_cover hwas
    have hzpos := h.pos z hz
    have hle : ∀ b, cover rs b ≤ 1 := fun b => by have := hpart.cover_le b; omega
    have hsame := h.same hle hz hy' (b := y.addr - 1) ⟨by omega, by omega⟩
      ⟨by omega, by omega⟩
    rw [← hsame] at hb
    omega
  · rw [hret, cover_grow, heq, at_eq_one.mpr ⟨le_rfl, by simp only; omega⟩] at hsum
    omega

end Regions

section Free

/-- A free region of `rs` beside `r` has the new node `n` of the tree above it. -/
def BelowNew (t : Tree Region Unit) (n : Nat) (rs : List Region) (r : Region) : Prop :=
  (∀ y ∈ rs, y.addr + y.size = r.addr → t.child .left n ≠ none) ∧
    ∀ y ∈ rs, r.addr + r.size = y.addr → t.child .right n ≠ none

theorem Separated.freed (h : Separated rs) (hpos : 0 < r.size) (hself : t.item n = r)
    (hwide : Widened t rs n w) (hbelow : BelowNew t n rs r)
    (hmem : ∀ x ∈ rs', x = w ∨ x ∈ rs) : Separated rs' := by
  obtain ⟨hleft, hleft', hright, hright'⟩ := hwide
  rw [hself] at hleft hleft' hright hright'
  have hlow : w.addr ≤ r.addr ∧ ∀ y ∈ rs, y.addr + y.size ≠ w.addr := by
    by_cases hchild : t.child .left n = none
    · have heq := hleft hchild
      exact ⟨heq.le, fun y hy hend => hbelow.1 y hy (hend.trans heq) hchild⟩
    · obtain ⟨z, hz, hend, heq⟩ := hleft' hchild
      exact ⟨by omega, fun y hy hend => h.apart y hy z hz (hend.trans heq)⟩
  have hhigh : r.addr + r.size ≤ w.addr + w.size ∧ ∀ y ∈ rs, w.addr + w.size ≠ y.addr := by
    by_cases hchild : t.child .right n = none
    · have heq := hright hchild
      exact ⟨heq.ge, fun y hy hend => hbelow.2 y hy (heq.symm.trans hend) hchild⟩
    · obtain ⟨z, hz, hend, heq⟩ := hright' hchild
      exact ⟨by omega, fun y hy hend => h.apart z hz y hy (heq.symm.trans hend)⟩
  refine ⟨fun x hx => ?_, fun x hx y hy => ?_⟩
  · rcases hmem x hx with rfl | hold
    · omega
    · exact h.pos x hold
  · rcases hmem x hx with rfl | hx <;> rcases hmem y hy with rfl | hy
    · omega
    · exact hhigh.2 y hy
    · exact hlow.2 x hx
    · exact h.apart x hx y hy

/-- A neighbour that is not below the new node stays a region of its own. -/
theorem BelowNew.of_freed (h : Separated rs') (hpos : ∀ x ∈ rs, 0 < x.size) (hr : 0 < r.size)
    (hself : t.item n = r) (hwide : Widened t rs n w) (hmem : ∀ x ∈ rs', x = w ∨ x ∈ rs)
    (hle : ∀ b, cover rs b + r.at b ≤ 1) (hcover : ∀ b, cover rs' b = r.at b + cover rs b) :
    BelowNew t n rs r := by
  have hle' : ∀ b, cover rs' b ≤ 1 := fun b => by rw [hcover]; have := hle b; omega
  -- a byte of the block lies in `w`, one of a neighbour in some region
  have hblock : ∀ b, r.addr ≤ b → b < r.addr + r.size →
      w ∈ rs' ∧ w.addr ≤ b ∧ b < w.addr + w.size := by
    intro b hlow hhigh
    have hfree : 0 < cover rs' b := by
      rw [hcover, at_eq_one.mpr ⟨hlow, hhigh⟩]
      omega
    obtain ⟨x, hx, hb⟩ := exists_of_cover hfree
    obtain rfl : x = w := by
      refine (hmem x hx).resolve_right fun hold => ?_
      have hone := hle b
      have hxle := at_le_cover (b := b) hold
      rw [at_eq_one.mpr ⟨hlow, hhigh⟩] at hone
      rw [at_eq_one.mpr hb] at hxle
      omega
    exact ⟨hx, hb⟩
  have hside : ∀ y ∈ rs, ∀ b, y.addr ≤ b → b < y.addr + y.size →
      ∃ x ∈ rs', x.addr ≤ b ∧ b < x.addr + x.size := by
    intro y hy b hlow hhigh
    have hyle := at_le_cover (b := b) hy
    rw [at_eq_one.mpr ⟨hlow, hhigh⟩] at hyle
    exact exists_of_cover (by rw [hcover]; omega)
  refine ⟨fun y hy hend hnone => ?_, fun y hy hend hnone => ?_⟩
  · have hypos := hpos y hy
    have haddr := hwide.left_none hnone
    rw [hself] at haddr
    have hsucc : r.addr - 1 + 1 = r.addr := by omega
    obtain ⟨hw, hbw⟩ := hblock r.addr le_rfl (by omega)
    obtain ⟨x, hx, hbx⟩ := hside y hy (r.addr - 1) (by omega) (by omega)
    have hsame := h.same hle' hx hw hbx (by rwa [hsucc])
    rw [hsame] at hbx
    omega
  · have hypos := hpos y hy
    have haddr := hwide.right_none hnone
    rw [hself] at haddr
    have hsucc : y.addr - 1 + 1 = y.addr := by omega
    obtain ⟨hw, hbw⟩ := hblock (y.addr - 1) (by omega) (by omega)
    obtain ⟨x, hx, hbx⟩ := hside y hy y.addr le_rfl (by omega)
    have hsame := h.same hle' hw hx hbw (by rwa [hsucc])
    rw [← hsame] at hbx
    omega

end Free

section Runs

/-- Free regions and blocks partition the memory, and no two free regions are side by side. -/
def Coalesced (limit : Nat) (m : Allocator) (live : List Region) : Prop :=
  ∃ cells, HoldsCells m.tree cells ∧ Partitions limit (cells.map m.tree.item ++ live) ∧
    Separated (cells.map m.tree.item)

/-- The invariant of a run: `Coalesced`, with what the calls rely on. -/
structure CoalesceInv (limit : Nat) (m : Allocator) (live : List Region) : Prop where
  inv : AllocInv limit m live
  separated : ∀ cells, HoldsCells m.tree cells → Separated (cells.map m.tree.item)

theorem CoalesceInv.coalesced (h : CoalesceInv limit m live) : Coalesced limit m live := by
  obtain ⟨cells, hfree, hpart⟩ := h.inv.tree
  exact ⟨cells, hfree.holds, hpart, h.separated cells hfree.holds⟩

theorem Coalesced.single (h : Coalesced limit m []) (hpos : 0 < limit) :
    ∃ n, HoldsCells m.tree [n] ∧ m.tree.item n = ⟨0, limit⟩ := by
  obtain ⟨cells, hcells, hpart, hsep⟩ := h
  have hle : ∀ b, cover (cells.map m.tree.item) b ≤ 1 := fun b => by
    have := hpart.cover_le b
    omega
  rw [List.append_nil] at hpart
  have hcovered : ∀ b < limit, ∃ x ∈ cells.map m.tree.item, x.addr ≤ b ∧ b < x.addr + x.size := by
    intro b hb
    exact exists_of_cover (by rw [hpart, if_pos hb]; omega)
  obtain ⟨x, hx, hzero⟩ := hcovered 0 hpos
  have hall : ∀ b < limit, x.addr ≤ b ∧ b < x.addr + x.size := by
    intro b hb
    induction b with
    | zero => exact hzero
    | succ b ih =>
        obtain ⟨y, hy, hby⟩ := hcovered (b + 1) hb
        rwa [hsep.same hle hx hy (ih (by omega)) hby]
  have hend : x.addr + x.size ≤ limit := by
    by_contra hlt
    have hone := at_le_cover (b := limit) hx
    rw [hpart, if_neg (lt_irrefl limit), at_eq_one.mpr ⟨by omega, by omega⟩] at hone
    omega
  have hlast := hall (limit - 1) (by omega)
  obtain ⟨n, hn, rfl⟩ := List.mem_map.mp hx
  have hitem : m.tree.item n = ⟨0, limit⟩ := by
    generalize m.tree.item n = x at *
    obtain ⟨addr, size⟩ := x
    simp only [Region.mk.injEq] at *
    omega
  refine ⟨n, ?_, hitem⟩
  have hempty : cells.erase n = [] := by
    refine List.eq_nil_iff_forall_not_mem.mpr fun a ha => ?_
    have hapos := hsep.pos _ (List.mem_map_of_mem (List.mem_of_mem_erase ha))
    have hmem : m.tree.item a ∈ (cells.erase n).map m.tree.item := List.mem_map_of_mem ha
    have hself := at_le_cover (b := (m.tree.item a).addr) hmem
    rw [at_eq_one.mpr ⟨le_rfl, by omega⟩] at hself
    have hboth := cover_erase (t := m.tree) hn (m.tree.item a).addr
    have hbelow : (m.tree.item a).addr < limit := by
      by_contra hge
      rw [hpart, if_neg hge] at hboth
      omega
    rw [hitem, at_eq_one.mpr ⟨by simp, by simpa using hbelow⟩, hpart, if_pos hbelow] at hboth
    omega
  have hperm := List.perm_cons_erase hn
  rw [hempty, List.perm_singleton] at hperm
  rwa [hperm] at hcells

/--
Each free neighbour of the block `r` is found: in the tree `alloc_tree_insert` makes,
the new node has a child on its side.
-/
def NeighboursBelow (kmalloc : Nat → Nat) (m : Allocator) (r : Region) : Prop :=
  ∀ t cells, Returns (fun fuel => allocTreeInsert fuel
      (setRegion m.tree (nextNode kmalloc m) r.addr r.size) (nextNode kmalloc m)) t →
    HoldsCells m.tree cells → BelowNew t (nextNode kmalloc m) (cells.map m.tree.item) r

/-- The calls of a run that coalesces. -/
def CoalesceOk (kmalloc : Nat → Nat) (m : Allocator) : AllocEvent → Prop
  | .free r => FreeSafe kmalloc m r ∧ NeighboursBelow kmalloc m r
  | event => StepSafe kmalloc m event

/-- `allocator_free` of `r` returns, adds its bytes to the free ones and leaves no neighbours. -/
def FreeCoalesces (kmalloc : Nat → Nat) (limit : Nat) (m : Allocator) (live : List Region)
    (r : Region) : Prop :=
  ∃ m', Returns (fun fuel => allocatorFree kmalloc fuel m r.addr r.size) m' ∧
    (∀ cells cells', HoldsCells m.tree cells → HoldsCells m'.tree cells' → ∀ b,
      cover (cells'.map m'.tree.item) b = r.at b + cover (cells.map m.tree.item) b) ∧
    Coalesced limit m' (live.erase r)

theorem CoalesceInv.free_iff (h : CoalesceInv limit m live) (hlimit : limit < 2 ^ 63)
    (hr : r ∈ live) (hsafe : FreeSafe kmalloc m r) :
    (∃ m', Returns (fun fuel => allocatorFree kmalloc fuel m r.addr r.size) m' ∧
      AllocInv limit m' (live.erase r) ∧
      (NeighboursBelow kmalloc m r → CoalesceInv limit m' (live.erase r))) ∧
    (FreeCoalesces kmalloc limit m live r ↔ NeighboursBelow kmalloc m r) := by
  obtain ⟨cells, hfree, hpart⟩ := h.inv.tree
  have hcells := hfree.holds
  have hsep := h.separated cells hcells
  have hpos := h.inv.live_pos r hr
  obtain ⟨m', t, cells', w, hret, hinv, hcells', hins, hself, hwide, hmem, hcover⟩ :=
    allocatorFree_regions h.inv hlimit hr hsafe hcells
  have hbelow : NeighboursBelow kmalloc m r ↔
      BelowNew t (nextNode kmalloc m) (cells.map m.tree.item) r := by
    refine ⟨fun hall => hall t cells hins hcells, fun hbelow t' c hins' hc => ?_⟩
    rwa [hins'.unique hins, hc.unique hcells]
  have hkeeps : NeighboursBelow kmalloc m r → CoalesceInv limit m' (live.erase r) := by
    refine fun hb => ⟨hinv, fun c hc => ?_⟩
    rw [hc.unique hcells']
    exact hsep.freed hpos hself hwide (hbelow.mp hb) hmem
  refine ⟨⟨m', hret, hinv, hkeeps⟩, fun hcoal => hbelow.mpr ?_, fun hb => ?_⟩
  · obtain ⟨m₁, hret₁, -, c, hc, -, hsep'⟩ := hcoal
    obtain rfl := hret.unique hret₁
    rw [hc.unique hcells'] at hsep'
    refine .of_freed hsep' hsep.pos hpos hself hwide hmem (fun b => ?_) hcover
    have hle := hpart.cover_le b
    have hlive := at_le_cover (b := b) hr
    omega
  · refine ⟨m', hret, fun c c' hc hc' => ?_, (hkeeps hb).coalesced⟩
    rwa [hc.unique hcells, hc'.unique hcells']

theorem CoalesceInv.cut (h : CoalesceInv limit m live) (h' : AllocInv limit m' (grow live size ret))
    (hpos : 0 < size) (hends : EndsKept m m' ret) : CoalesceInv limit m' (grow live size ret) := by
  obtain ⟨cells, hfree, hpart⟩ := h.inv.tree
  obtain ⟨cells', hfree', hpart'⟩ := h'.tree
  refine ⟨h', fun c hc => ?_⟩
  rw [hc.unique hfree'.holds]
  exact (h.separated cells hfree.holds).cut hpart hpart' hpos
    (hends cells cells' hfree.holds hfree'.holds)

theorem coalesceStep (h : CoalesceInv limit m live) (hlimit : limit < 2 ^ 63) {event : AllocEvent}
    (hvalid : event.Valid live) (hok : CoalesceOk kmalloc m event) :
    ∃ s, AllocReturns kmalloc m live event s ∧ CoalesceInv limit s.1 s.2 := by
  cases event with
  | alloc size =>
      obtain ⟨m', ret, hret, hinv, hends⟩ := allocatorAlloc_spec h.inv hlimit hvalid.1 hok
      exact ⟨_, hret.map _, h.cut hinv hvalid.1 hends⟩
  | allocAlign size align =>
      obtain ⟨m', ret, hret, hinv, hends⟩ := allocatorAllocAlign_spec h.inv hlimit hvalid.1.1 hok
      exact ⟨_, hret.map _, h.cut hinv hvalid.1.1 hends⟩
  | allocAddr size addr =>
      obtain ⟨m', ret, hret, hinv, hends⟩ := allocatorAllocAddr_spec h.inv hlimit hvalid.1.1 hok
      exact ⟨_, hret.map _, h.cut hinv hvalid.1.1 hends⟩
  | free r =>
      obtain ⟨⟨m', hret, -, hkeeps⟩, -⟩ := h.free_iff hlimit hvalid hok.1
      exact ⟨_, hret.map _, hkeeps hok.2⟩

theorem coalesceInv_init (hpos : 0 < limit) (hlimit : limit < 2 ^ 63) (m : Allocator) :
    CoalesceInv limit (allocatorInit kmalloc limit m) [] := by
  refine ⟨allocInv_init hlimit m, fun cells hcells => ?_⟩
  obtain ⟨n, hn, hitem⟩ := allocatorInit_cells kmalloc limit m
  rw [Nat.mod_eq_of_lt hlimit] at hitem
  rw [hcells.unique hn, List.map_singleton, hitem]
  exact ⟨by simpa using hpos, by simp; omega⟩

theorem coalesceRun_inv (hpos : 0 < limit) (hlimit : limit < 2 ^ 63)
    (hrun : AllocRun kmalloc (CoalesceOk kmalloc) limit m live) : CoalesceInv limit m live := by
  induction hrun with
  | init m => exact coalesceInv_init hpos hlimit m
  | step _ valid isOk returns ih =>
      obtain ⟨s, hret, hinv⟩ := coalesceStep ih hlimit valid isOk
      exact returns.unique hret ▸ hinv

/--
In every run whose frees find their neighbours no two free regions are side by side,
and once every block is freed the tree is the whole memory as one region.  The next
free that can be made coalesces exactly if it finds its neighbours too.
-/
theorem allocator_coalesces (hpos : 0 < limit) (hlimit : limit < 2 ^ 63)
    (hrun : AllocRun kmalloc (CoalesceOk kmalloc) limit m live) :
    Coalesced limit m live ∧
      (live = [] → ∃ n, HoldsCells m.tree [n] ∧ m.tree.item n = ⟨0, limit⟩) ∧
      ∀ r ∈ live, FreeSafe kmalloc m r →
        (FreeCoalesces kmalloc limit m live r ↔ NeighboursBelow kmalloc m r) := by
  have hinv := coalesceRun_inv hpos hlimit hrun
  refine ⟨hinv.coalesced, ?_, fun r hr hsafe => (hinv.free_iff hlimit hr hsafe).2⟩
  rintro rfl
  exact hinv.coalesced.single hpos

section Check

instance (t : Tree Region Unit) (n : Nat) (rs : List Region) (r : Region) :
    Decidable (BelowNew t n rs r) :=
  inferInstanceAs (Decidable (_ ∧ _))

/-- `CoalesceOk`, read off the tree. -/
def coalesceOkCheck (kmalloc : Nat → Nat) (fuel : Nat) (m : Allocator) (event : AllocEvent) : Bool :=
  stepSafeCheck kmalloc fuel m event &&
    match event with
    | .free r =>
        let n := nextNode kmalloc m
        (allocTreeInsert fuel (setRegion m.tree n r.addr r.size) n).any fun t =>
          (m.tree.readCells fuel).any fun cells =>
            decide (BelowNew t n (cells.map m.tree.item) r)
    | _ => true

theorem coalesceOk_of_check {fuel : Nat} {event : AllocEvent}
    (h : coalesceOkCheck kmalloc fuel m event = true) : CoalesceOk kmalloc m event := by
  obtain ⟨hsafe, hbelow⟩ := Bool.and_eq_true _ _ |>.mp h
  have hsafe := stepSafe_of_check hsafe
  cases event with
  | alloc size => exact hsafe
  | allocAlign size align => exact hsafe
  | allocAddr size addr => exact hsafe
  | free r =>
      refine ⟨hsafe, fun t cells hins hcells => ?_⟩
      obtain ⟨t', hins', hbelow⟩ := (Option.any_eq_true _ _).mp hbelow
      obtain ⟨cells', hread, hbelow⟩ := (Option.any_eq_true _ _).mp hbelow
      obtain rfl := hins.unique ((Tree.insert_steady allocTreeKind _ _).returns fuel hins')
      rw [hcells.unique (HoldsCells.of_readCells hread)]
      exact of_decide_eq_true hbelow

end Check

theorem secondPage_run :
    (([.allocAddr 4096 4096] : List AllocEvent).foldlM (checkedAlloc (fun k => k + 1)
      (coalesceOkCheck (fun k => k + 1) 20) 20) (fourPages, [])).map (fun s =>
        (s.2, (s.1.tree.readCells 20).map fun cells => cells.map s.1.tree.item,
          coalesceOkCheck (fun k => k + 1) 20 s.1 (.free ⟨4096, 4096⟩))) =
      some ([⟨4096, 4096⟩], some [⟨0, 4096⟩, ⟨8192, 8192⟩], true) := by decide +kernel

/-- The second of four pages is allocated; freed it is merged with the free regions on both
sides, and the memory is one region again. -/
theorem allocator_coalesces_secondPage :
    ∃ m cells, HoldsCells m.tree cells ∧ cells.map m.tree.item = [⟨0, 4096⟩, ⟨8192, 8192⟩] ∧
      FreeCoalesces (fun k => k + 1) 16384 m [⟨4096, 4096⟩] ⟨4096, 4096⟩ ∧
      ∃ m' n, Returns (fun fuel => allocatorFree (fun k => k + 1) fuel m 4096 4096) m' ∧
        HoldsCells m'.tree [n] ∧ m'.tree.item n = ⟨0, 16384⟩ := by
  obtain ⟨⟨m, live⟩, hcalls, hfacts⟩ := Option.map_eq_some_iff.mp secondPage_run
  simp only [Prod.mk.injEq] at hfacts
  obtain ⟨rfl, hread, hcheck⟩ := hfacts
  obtain ⟨cells, hread, hitems⟩ := Option.map_eq_some_iff.mp hread
  have hrun : AllocRun (fun k => k + 1) (CoalesceOk fun k => k + 1) 16384 m [⟨4096, 4096⟩] :=
    allocRun_of_steps (fun _ _ => coalesceOk_of_check) [.allocAddr 4096 4096]
      (.init blankAllocator) hcalls
  have hok : CoalesceOk (fun k => k + 1) m (.free ⟨4096, 4096⟩) := coalesceOk_of_check hcheck
  have hcoal := ((allocator_coalesces (by decide) (by decide) hrun).2.2 ⟨4096, 4096⟩ (by simp)
    hok.1).mpr hok.2
  obtain ⟨m', hfree, -⟩ := id hcoal
  have hrun' : AllocRun (fun k => k + 1) (CoalesceOk fun k => k + 1) 16384 m' [] :=
    @AllocRun.step _ _ _ _ _ (.free ⟨4096, 4096⟩) _ hrun (by decide) hok (hfree.map fun m => (m, []))
  obtain ⟨n, hn, hitem⟩ := (allocator_coalesces (by decide) (by decide) hrun').2.1 rfl
  exact ⟨m, cells, .of_readCells hread, hitems, hcoal, m', n, hfree, hn, hitem⟩

/-- The first 64 bytes of a page allocated and freed: the new node is a leaf. -/
theorem allocator_free_keeps_apart :
    ∃ m, AllocRun (fun k => k + 1) (fun _ _ => True) 4096 m [] ∧ ¬ Coalesced 4096 m [] := by
  have hfree : ((allocStep (fun k => k + 1) 3 (onePage, []) (.alloc 64)).bind fun s =>
      (allocStep (fun k => k + 1) 3 s (.free ⟨0, 64⟩)).map fun s' =>
        (s.2, s'.2, (s'.1.root.bind fun n => s'.1.tree.child .left n).isSome)) =
      some ([⟨0, 64⟩], [], true) := by decide +kernel
  obtain ⟨⟨m₁, live⟩, hret, hfree⟩ := Option.bind_eq_some_iff.mp hfree
  obtain ⟨⟨m₂, live'⟩, hret', heq⟩ := Option.map_eq_some_iff.mp hfree
  simp only [Prod.mk.injEq] at heq
  obtain ⟨rfl, rfl, hchild⟩ := heq
  have hrun : AllocRun (fun k => k + 1) (fun _ _ => True) 4096 m₁ [⟨0, 64⟩] :=
    @AllocRun.step _ _ _ _ _ (.alloc 64) _ (.init blankAllocator) (by decide) trivial
      ((allocStep_steady _ _ _).returns 3 hret)
  have hrun' : AllocRun (fun k => k + 1) (fun _ _ => True) 4096 m₂ [] :=
    @AllocRun.step _ _ _ _ _ (.free ⟨0, 64⟩) _ hrun (by decide) trivial
      ((allocStep_steady _ _ _).returns 3 hret')
  refine ⟨m₂, hrun', fun h => ?_⟩
  obtain ⟨n, ⟨s, hs, hholds⟩, -⟩ := h.single (by decide)
  cases s with
  | nil => cases hs
  | node a l r =>
      have hlen := congrArg List.length hs
      simp only [inorder_node, List.length_append, List.length_cons, List.length_nil] at hlen
      obtain rfl : l = .nil := inorder_eq_nil.mp (List.length_eq_zero_iff.mp (by omega))
      have hroot : m₂.root = some a := hholds.root
      have hleft : m₂.tree.child .left a = none := hholds.linked.2.1
      rw [hroot, Option.bind_some, hleft] at hchild
      cases hchild

end Runs

end UntitledOs.Vmemory
