import UntitledOs.Vmemory.Failure

/-!
# Owners of frames

`map_phys` ignores what `allocator_alloc_addr` returns, so a range that is not
inside one free region is mapped without being taken out.  A run of successful
calls is followed with the ranges that `map_phys` mapped and the regions that the
allocator gave to `map_alloc`.
-/

namespace UntitledOs.Vmemory

open UntitledOs.Lib UntitledOs.RbTree

/-- A call of `allocator_alloc_align`. -/
structure AllocCall where
  before : Allocator
  size : Nat
  align : Nat
  ret : Option Nat

def AllocCall.grant (c : AllocCall) : List Region := (c.ret.map fun addr => ⟨addr, c.size⟩).toList

def grants (calls : List AllocCall) : List Region := calls.flatMap AllocCall.grant

/-! The loops of `map_alloc` again, with the calls of the allocator that they make. -/

def allocLoopCalls (env : VmemEnv) (fuel size : Nat) :
    List Nat → Vmem → Option ((Vmem × LoopEnd) × List AllocCall)
  | [], s => some ((s, .finished), [])
  | v :: vs, s =>
      (allocatorAllocAlign env.kmalloc fuel s.phys size size).bind fun r =>
        let call : AllocCall := ⟨s.phys, size, size, r.2⟩
        match r.2 with
        | none => some (({ s with phys := r.1 }, .noFrame (vs.length + 1)), [call])
        | some paddr =>
            let r := mapPage env { s with phys := r.1 } size v paddr
            if r.2 = 0 then
              (allocLoopCalls env fuel size vs r.1).map fun x => (x.1, call :: x.2)
            else some ((r.1, .returned r.2), [call])

def mapAllocPagesCalls (env : VmemEnv) (fuel : Nat) (s : Vmem) (vaddr usize : Nat) :
    Option ((Vmem × Int) × List AllocCall) :=
  let head := headVaddrs usize vaddr
  (allocLoopCalls env fuel pageSize head s).bind fun r =>
    if r.1.2.code ≠ 0 then some ((r.1.1, r.1.2.code), r.2)
    else
      let usize := usize - head.length
      let vaddr := u64 (vaddr + head.length * pageSize)
      (allocLoopCalls env fuel pageSize2
        (loopVaddrs pageSize2 (usize / (pageSize2 / pageSize)) vaddr) r.1.1).bind fun r' =>
          match r'.1.2 with
          | .returned code => some ((r'.1.1, code), r.2 ++ r'.2)
          | stop =>
              (allocLoopCalls env fuel pageSize (tailVaddrs usize vaddr stop) r'.1.1).map fun q =>
                ((q.1.1, q.1.2.code), r.2 ++ r'.2 ++ q.2)

def mapAllocCalls (env : VmemEnv) (fuel : Nat) (s : Vmem) (vaddr usize flags : Nat) :
    Option ((Vmem × Int) × List AllocCall) :=
  let usize := unitsOf usize flags
  if has flags vmemFlagMaintainContinuity then
    let size := u64 (usize * pageSize)
    (allocatorAllocAlign env.kmalloc fuel s.phys size pageSize).map fun r =>
      (match r.2 with
        | none => ({ s with phys := r.1 }, vmemErrNospace)
        | some paddr => mapChunks env (rangeChunks usize vaddr paddr) { s with phys := r.1 },
        [⟨s.phys, size, pageSize, r.2⟩])
  else mapAllocPagesCalls env fuel s vaddr usize

variable {env : VmemEnv} {s s' : Vmem} {limit fuel size : Nat} {live phys alloc : List Region}

theorem allocLoopCalls_fst (env : VmemEnv) (fuel size : Nat) (vs : List Nat) (s : Vmem) :
    (allocLoopCalls env fuel size vs s).map Prod.fst = allocLoop env fuel size vs s := by
  induction vs generalizing s with
  | nil => rfl
  | cons v vs ih =>
      unfold allocLoopCalls allocLoop
      rw [Option.map_bind]
      congr 1
      funext r
      obtain ⟨a, ret⟩ := r
      cases ret with
      | none => rfl
      | some paddr =>
          simp only [Function.comp_apply]
          split
          · rw [← ih, Option.map_map]
            rfl
          · rfl

/-- Leaving the calls of the allocator out gives `map_alloc`. -/
theorem mapAllocCalls_fst (env : VmemEnv) (fuel : Nat) (s : Vmem) (vaddr usize flags : Nat) :
    (mapAllocCalls env fuel s vaddr usize flags).map Prod.fst =
      mapAlloc env fuel s vaddr usize flags := by
  unfold mapAllocCalls mapAlloc
  simp only
  split
  · rw [Option.map_map]
    rfl
  · unfold mapAllocPagesCalls mapAllocPages
    simp only
    rw [← allocLoopCalls_fst, Option.map_bind, Option.bind_map]
    congr 1
    funext r
    simp only [Function.comp_apply]
    split
    · rfl
    · rw [← allocLoopCalls_fst, Option.map_bind, Option.bind_map]
      congr 1
      funext r'
      obtain ⟨⟨s', stop⟩, calls⟩ := r'
      cases stop with
      | returned code => rfl
      | finished =>
          simp only [Function.comp_apply]
          rw [← allocLoopCalls_fst, Option.map_map, Option.map_map]
          rfl
      | noFrame rounds =>
          simp only [Function.comp_apply]
          rw [← allocLoopCalls_fst, Option.map_map, Option.map_map]
          rfl

section Free

theorem FreeInv.congr {m : Allocator} {live' : List Region} (h : FreeInv limit m live)
    (hcover : ∀ b, cover live' b = cover live b) : FreeInv limit m live' := by
  obtain ⟨cells, hfree, hpart⟩ := h
  refine ⟨cells, hfree, fun b => ?_⟩
  rw [← hpart b, cover_append, cover_append, hcover]

/-- The allocator may be called like this. -/
def AllocCall.Safe (kmalloc : Nat → Nat) (c : AllocCall) : Prop :=
  AllocAlignSafe kmalloc c.before c.size c.align

theorem allocAlign_free {kmalloc : Nat → Nat} {m : Allocator} {align : Nat}
    (h : FreeInv limit m live) (hlimit : limit < 2 ^ 63)
    (hsafe : AllocAlignSafe kmalloc m size align) {r : Allocator × Option Nat}
    (hret : allocatorAllocAlign kmalloc fuel m size align = some r) :
    FreeInv limit r.1 ((⟨m, size, align, r.2⟩ : AllocCall).grant ++ live) := by
  obtain ⟨m', ret, hret', hinv, -⟩ := allocatorAllocAlign_free h hlimit hsafe
  obtain rfl := ((allocatorAllocAlign_steady kmalloc m size align).returns fuel hret).unique hret'
  exact hinv

theorem allocLoopCalls_free (hlimit : limit < 2 ^ 63) {vs : List Nat} (h : FreeInv limit s.phys live)
    {r : (Vmem × LoopEnd) × List AllocCall} (hret : allocLoopCalls env fuel size vs s = some r)
    (hsafe : ∀ c ∈ r.2, c.Safe env.kmalloc) : FreeInv limit r.1.1.phys (grants r.2 ++ live) := by
  induction vs generalizing s live r with
  | nil =>
      obtain rfl := Option.some.inj hret
      exact h
  | cons v vs ih =>
      unfold allocLoopCalls at hret
      obtain ⟨⟨a, ret⟩, hcall, hret⟩ := Option.bind_eq_some_iff.mp hret
      cases ret with
      | none =>
          obtain rfl := Option.some.inj hret
          exact allocAlign_free h hlimit (hsafe _ (List.mem_singleton.mpr rfl)) hcall
      | some paddr =>
          simp only at hret
          split at hret
          · obtain ⟨q, hq, rfl⟩ := Option.map_eq_some_iff.mp hret
            have hfirst := allocAlign_free h hlimit (hsafe _ (List.mem_cons_self ..)) hcall
            have hrest := ih (by rw [phys_mapPage]; exact hfirst) hq fun c hc =>
              hsafe c (List.mem_cons_of_mem _ hc)
            refine hrest.congr fun b => ?_
            simp only [grants, List.flatMap_cons, cover_append]
            omega
          · obtain rfl := Option.some.inj hret
            have hfirst := allocAlign_free h hlimit (hsafe _ (List.mem_singleton.mpr rfl)) hcall
            simp only [phys_mapPage]
            simpa [grants] using hfirst

theorem phys_mapChunks (env : VmemEnv) (cs : List Chunk) (s : Vmem) :
    (mapChunks env cs s).1.phys = s.phys := by
  induction cs generalizing s with
  | nil => rfl
  | cons c cs ih =>
      unfold mapChunks
      simp only
      split
      · rw [ih, phys_mapPage]
      · exact phys_mapPage env s c.size c.vaddr c.paddr

/-- `map_alloc` takes what it hands out from the free regions. -/
theorem mapAllocCalls_free (hlimit : limit < 2 ^ 63) (h : FreeInv limit s.phys live)
    {vaddr usize flags : Nat} {r : (Vmem × Int) × List AllocCall}
    (hret : mapAllocCalls env fuel s vaddr usize flags = some r)
    (hsafe : ∀ c ∈ r.2, c.Safe env.kmalloc) : FreeInv limit r.1.1.phys (grants r.2 ++ live) := by
  unfold mapAllocCalls at hret
  simp only at hret
  split at hret
  · obtain ⟨⟨a, ret⟩, hcall, rfl⟩ := Option.map_eq_some_iff.mp hret
    have hfirst := allocAlign_free h hlimit (hsafe _ (List.mem_singleton.mpr rfl)) hcall
    cases ret with
    | none => simpa [grants] using hfirst
    | some paddr =>
        simp only [phys_mapChunks]
        simpa [grants] using hfirst
  · unfold mapAllocPagesCalls at hret
    obtain ⟨⟨⟨s₁, stop₁⟩, calls₁⟩, hhead, hret⟩ := Option.bind_eq_some_iff.mp hret
    simp only at hret
    split at hret
    · obtain rfl := Option.some.inj hret
      exact allocLoopCalls_free hlimit h hhead hsafe
    · obtain ⟨⟨⟨s₂, stop₂⟩, calls₂⟩, hlarge, hret⟩ := Option.bind_eq_some_iff.mp hret
      have htail (stop : LoopEnd)
          (hret : ((allocLoopCalls env fuel pageSize (tailVaddrs
            (unitsOf usize flags - (headVaddrs (unitsOf usize flags) vaddr).length)
            (u64 (vaddr + (headVaddrs (unitsOf usize flags) vaddr).length * pageSize)) stop) s₂).map
              fun q => ((q.1.1, q.1.2.code), calls₁ ++ calls₂ ++ q.2)) = some r) :
          FreeInv limit r.1.1.phys (grants r.2 ++ live) := by
        obtain ⟨q, hq, rfl⟩ := Option.map_eq_some_iff.mp hret
        have h₁ := allocLoopCalls_free hlimit h hhead fun c hc => hsafe c (by simp [hc])
        have h₂ := allocLoopCalls_free hlimit h₁ hlarge fun c hc => hsafe c (by simp [hc])
        have h₃ := allocLoopCalls_free hlimit h₂ hq fun c hc => hsafe c (by simp [hc])
        refine h₃.congr fun b => ?_
        simp only [grants, List.flatMap_append, cover_append]
        omega
      cases stop₂ with
      | returned code =>
          obtain rfl := Option.some.inj hret
          have h₁ := allocLoopCalls_free hlimit h hhead fun c hc => hsafe c (by simp [hc])
          have h₂ := allocLoopCalls_free hlimit h₁ hlarge fun c hc => hsafe c (by simp [hc])
          refine h₂.congr fun b => ?_
          simp only [grants, List.flatMap_append, cover_append]
          omega
      | finished => exact htail .finished hret
      | noFrame rounds => exact htail (.noFrame rounds) hret

theorem FreeInv.cover_le {m : Allocator} (h : FreeInv limit m live) (b : Nat) :
    cover live b ≤ if b < limit then 1 else 0 := by
  obtain ⟨cells, -, hpart⟩ := h
  rw [← hpart b, cover_append]
  omega

/-- A byte of a free region. -/
def FreeByte (m : Allocator) (b : Nat) : Prop :=
  ∃ cells, HoldsCells m.tree cells ∧ cover (cells.map m.tree.item) b ≠ 0

theorem FreeInv.cover_eq_one {m : Allocator} (h : FreeInv limit m live) {b : Nat} (hb : b < limit)
    (hfree : ¬ FreeByte m b) : cover live b = 1 := by
  obtain ⟨cells, hcells, hpart⟩ := h
  have hzero : cover (cells.map m.tree.item) b = 0 := by
    by_contra hne
    exact hfree ⟨cells, hcells.holds, hne⟩
  have hone := hpart b
  rw [cover_append, hzero, if_pos hb] at hone
  omega

end Free

/-- The range of a `map_phys`. -/
def physRange (paddr usize flags : Nat) : Region := ⟨paddr, unitsOf usize flags * pageSize⟩

/-- What a `map_phys` needs to own its range: the range is made of frames, and it lies
inside one region that the search finds, or no byte of it is free or was handed out. -/
structure PhysOwned (env : VmemEnv) (s : Vmem) (alloc : List Region) (paddr usize flags : Nat) :
    Prop where
  aligned : paddr % pageSize = 0
  inside : paddr + unitsOf usize flags * pageSize < 2 ^ 64
  safe : AllocAddrSafe env.kmalloc s.phys (unitsOf usize flags * pageSize) paddr
  region : (∃ n, Returns (fun fuel => allocTreeFindContaining fuel s.phys.tree paddr
      (unitsOf usize flags * pageSize)) (some n)) ∨
    ∀ b, (physRange paddr usize flags).at b ≠ 0 → ¬ FreeByte s.phys b ∧ cover alloc b = 0

/-- Runs of successful calls from `allocator_init` on, with the ranges that `map_phys`
mapped and the regions that were handed out to `map_alloc`. -/
inductive OwnerRun (env : VmemEnv) (okPhys : Vmem → List Region → Nat → Nat → Nat → Prop)
    (okAlloc : AllocCall → Prop) (limit : Nat) : Vmem → List Region → List Region → Prop
  | init (s : Vmem) (m : Allocator) : OwnerRun env okPhys okAlloc limit
      { s with phys := allocatorInit env.kmalloc limit m } [] []
  | mapPhys {s s' : Vmem} {phys alloc : List Region} {vaddr paddr usize flags : Nat}
      (run : OwnerRun env okPhys okAlloc limit s phys alloc)
      (isOk : okPhys s alloc paddr usize flags)
      (returns : Returns (fun fuel => mapPhys env fuel s vaddr paddr usize flags) (s', 0)) :
      OwnerRun env okPhys okAlloc limit s' (physRange paddr usize flags :: phys) alloc
  | mapAlloc {s s' : Vmem} {phys alloc : List Region} {vaddr usize flags : Nat}
      {calls : List AllocCall} (run : OwnerRun env okPhys okAlloc limit s phys alloc)
      (returns : Returns (fun fuel => mapAllocCalls env fuel s vaddr usize flags) ((s', 0), calls))
      (isOk : ∀ c ∈ calls, okAlloc c) :
      OwnerRun env okPhys okAlloc limit s' phys (grants calls ++ alloc)

/-- No frame has a byte of both. -/
def FramesApart (phys alloc : List Region) : Prop :=
  ∀ b c, cover phys b ≠ 0 → cover alloc c ≠ 0 → b / pageSize ≠ c / pageSize

/-- A byte mapped by `map_phys` is neither free nor handed out. -/
structure OwnerInv (limit : Nat) (m : Allocator) (phys alloc : List Region) : Prop where
  owned : ∃ live, FreeInv limit m live ∧ ∀ b, cover alloc b ≤ cover live b ∧
    (cover phys b ≠ 0 → cover alloc b = 0 ∧ (b < limit → cover live b = 1))
  aligned : ∀ p ∈ phys, p.addr % pageSize = 0 ∧ p.size % pageSize = 0

theorem cover_ne_zero {rs : List Region} {b : Nat} : cover rs b ≠ 0 ↔ ∃ r ∈ rs, r.at b ≠ 0 := by
  unfold cover
  rw [ne_eq, List.sum_eq_zero_iff]
  simp

theorem OwnerInv.framesApart {m : Allocator} (h : OwnerInv limit m phys alloc) :
    FramesApart phys alloc := by
  intro b c hb hc hframe
  obtain ⟨p, hp, hbyte⟩ := cover_ne_zero.mp hb
  obtain ⟨haddr, hsize⟩ := h.aligned p hp
  -- the frame of `b` lies in `p` as a whole
  have hsame : p.at c ≠ 0 := by
    unfold Region.at at hbyte ⊢
    unfold pageSize at haddr hsize hframe
    split at hbyte
    · next hin =>
        rw [if_pos (by omega)]
        exact one_ne_zero
    · exact absurd rfl hbyte
  obtain ⟨live, -, hall⟩ := h.owned
  exact hc ((hall c).2 (cover_ne_zero.mpr ⟨p, hp, hsame⟩)).1

theorem ownerInv_init (hlimit : limit < 2 ^ 63) {kmalloc : Nat → Nat} (m : Allocator) :
    OwnerInv limit (allocatorInit kmalloc limit m) [] [] :=
  ⟨⟨[], (allocInv_init hlimit m).tree, fun b => by simp⟩, by simp⟩

theorem OwnerInv.mapPhys (h : OwnerInv limit s.phys phys alloc) (hlimit : limit < 2 ^ 63)
    {vaddr paddr usize flags : Nat} (hok : PhysOwned env s alloc paddr usize flags)
    (hret : Returns (fun fuel => Vmemory.mapPhys env fuel s vaddr paddr usize flags) (s', 0)) :
    OwnerInv limit s'.phys (physRange paddr usize flags :: phys) alloc := by
  obtain ⟨live, hfree, hall⟩ := h.owned
  have hin := hok.inside
  obtain ⟨m', ret, hcall, hfree', -, hfound⟩ := allocatorAllocAddr_free hfree hlimit hok.safe
  have hphys : s'.phys = m' := by
    have hsize : u64 (unitsOf usize flags * pageSize) = unitsOf usize flags * pageSize :=
      u64_of_lt (by omega)
    have hmap : Returns (fun fuel => Vmemory.mapPhys env fuel s vaddr paddr usize flags)
        (mapChunks env (rangeChunks (unitsOf usize flags) vaddr paddr) { s with phys := m' }) := by
      unfold Vmemory.mapPhys
      simp only [hsize]
      exact hcall.map fun r =>
        mapChunks env (rangeChunks (unitsOf usize flags) vaddr paddr) { s with phys := r.1 }
    have hend := congrArg (fun r => r.1.phys) (hret.unique hmap)
    simp only [phys_mapChunks] at hend
    exact hend
  rw [hphys]
  have hgrow : ∀ b, cover live b ≤ cover (grow live (unitsOf usize flags * pageSize) ret) b := by
    intro b
    unfold grow
    rw [cover_append]
    omega
  refine ⟨⟨_, hfree', fun b => ⟨(hall b).1.trans (hgrow b), fun hb => ?_⟩⟩, fun p hp => ?_⟩
  · have hle := hfree'.cover_le b
    have hg := hgrow b
    rw [cover_cons] at hb
    by_cases hold : cover phys b = 0
    · have hbyte : (physRange paddr usize flags).at b ≠ 0 := by omega
      rcases hok.region with ⟨n, hn⟩ | hnone
      · rw [hfound n hn, cover_grow] at hle ⊢
        have hin : (⟨paddr, unitsOf usize flags * pageSize⟩ : Region).at b ≠ 0 := hbyte
        have halloc := (hall b).1
        split at hle
        · exact ⟨by omega, fun _ => by omega⟩
        · omega
      · obtain ⟨hnofree, halloc⟩ := hnone b hbyte
        refine ⟨halloc, fun hlt => ?_⟩
        have hone := hfree.cover_eq_one hlt hnofree
        rw [if_pos hlt] at hle
        omega
    · obtain ⟨halloc, hone⟩ := (hall b).2 hold
      refine ⟨halloc, fun hlt => ?_⟩
      have := hone hlt
      rw [if_pos hlt] at hle
      omega
  · rcases List.mem_cons.mp hp with rfl | hp
    · exact ⟨hok.aligned, Nat.mul_mod_left _ _⟩
    · exact h.aligned p hp

theorem OwnerInv.mapAlloc (h : OwnerInv limit s.phys phys alloc) (hlimit : limit < 2 ^ 63)
    {vaddr usize flags : Nat} {calls : List AllocCall}
    (hret : Returns (fun fuel => mapAllocCalls env fuel s vaddr usize flags) ((s', 0), calls))
    (hsafe : ∀ c ∈ calls, c.Safe env.kmalloc) :
    OwnerInv limit s'.phys phys (grants calls ++ alloc) := by
  obtain ⟨live, hfree, hall⟩ := h.owned
  obtain ⟨fuel, hfuel⟩ := hret
  have hfree' := mapAllocCalls_free hlimit hfree (hfuel fuel (le_refl fuel)) hsafe
  refine ⟨⟨_, hfree', fun b => ?_⟩, h.aligned⟩
  have hle := hfree'.cover_le b
  have hb := hall b
  simp only [cover_append] at hle ⊢
  refine ⟨by omega, fun hphys => ?_⟩
  obtain ⟨halloc, hone⟩ := hb.2 hphys
  split at hle
  · next hlt =>
      have := hone hlt
      exact ⟨by omega, fun _ => by omega⟩
  · next hge => exact ⟨by omega, fun hlt => absurd hlt hge⟩

/-- In every run whose calls are owned no frame has two owners. -/
theorem ownerRun_framesApart (hlimit : limit < 2 ^ 63)
    (hrun : OwnerRun env (PhysOwned env) (AllocCall.Safe env.kmalloc) limit s phys alloc) :
    FramesApart phys alloc := by
  have hinv : OwnerInv limit s.phys phys alloc := by
    induction hrun with
    | init s m => exact ownerInv_init hlimit m
    | mapPhys run isOk returns ih => exact ih.mapPhys hlimit isOk returns
    | mapAlloc run returns isOk ih => exact ih.mapAlloc hlimit returns isOk
  exact hinv.framesApart

section Small

theorem allocLoopCalls_steady (env : VmemEnv) (size : Nat) (vs : List Nat) (s : Vmem) :
    Steady fun fuel => allocLoopCalls env fuel size vs s := by
  induction vs generalizing s with
  | nil => exact Steady.const _
  | cons v vs ih =>
      refine (allocatorAllocAlign_steady _ _ _ _).bind fun ⟨a, ret⟩ => ?_
      cases ret with
      | none => exact Steady.const _
      | some paddr =>
          simp only
          split
          · exact (ih _).map _
          · exact Steady.const _

theorem mapAllocCalls_steady (env : VmemEnv) (s : Vmem) (vaddr usize flags : Nat) :
    Steady fun fuel => mapAllocCalls env fuel s vaddr usize flags := by
  unfold mapAllocCalls
  simp only
  split
  · exact (allocatorAllocAlign_steady _ _ _ _).map _
  · refine (allocLoopCalls_steady _ _ _ _).bind fun r => ?_
    split
    · exact Steady.const _
    · refine (allocLoopCalls_steady _ _ _ _).bind fun ⟨⟨s', stop⟩, calls⟩ => ?_
      cases stop with
      | returned code => exact Steady.const _
      | finished => exact (allocLoopCalls_steady _ _ _ _).map _
      | noFrame rounds => exact (allocLoopCalls_steady _ _ _ _).map _

/-- A new handle over a memory of four frames. -/
def fourFrames : Vmem := { newHandle with phys := allocatorInit smallHeap.kmalloc 16384 newHandle.phys }

theorem physOwned_device : PhysOwned smallHeap fourFrames [] 0x800000 1 0 := by
  have hnone : Returns (fun fuel => allocTreeFindContaining fuel fourFrames.phys.tree 0x800000
      (unitsOf 1 0 * pageSize)) none :=
    (descend_steady _ _ _ _).returns 5 (by decide +kernel)
  have hsafe : AllocAddrSafe smallHeap.kmalloc fourFrames.phys (unitsOf 1 0 * pageSize) 0x800000 :=
    fun n hn => nomatch hn.unique hnone
  refine ⟨by decide, by decide, hsafe, Or.inr fun b hb => ⟨?_, rfl⟩⟩
  rintro ⟨cells, hcells, hcover⟩
  obtain ⟨n, hn, hitem⟩ := allocatorInit_cells smallHeap.kmalloc 16384 newHandle.phys
  obtain rfl := hcells.unique hn
  have hfree : (⟨0, 16384⟩ : Region).at b ≠ 0 := by
    intro hzero
    apply hcover
    simp only [fourFrames, List.map_cons, List.map_nil, cover_cons, cover_nil, hitem]
    exact hzero
  unfold physRange Region.at at hb
  unfold Region.at at hfree
  rw [show unitsOf 1 0 * pageSize = 4096 by decide] at hb
  simp only [ne_eq, ite_eq_right_iff, one_ne_zero, imp_false, not_not] at hb hfree
  omega

/-- `AllocCall.Safe`, read off the tree. -/
def AllocCall.safeCheck (kmalloc : Nat → Nat) (fuel : Nat) (c : AllocCall) : Bool :=
  stepSafeCheck kmalloc fuel c.before (.allocAlign c.size c.align)

theorem physOwned_of_check {paddr usize flags : Nat} (haligned : paddr % pageSize = 0)
    (hinside : paddr + unitsOf usize flags * pageSize < 2 ^ 64)
    (hsafe : stepSafeCheck env.kmalloc fuel s.phys
      (.allocAddr (unitsOf usize flags * pageSize) paddr) = true)
    (hregion : (allocTreeFindContaining fuel s.phys.tree paddr
      (unitsOf usize flags * pageSize)).any Option.isSome = true) :
    PhysOwned env s alloc paddr usize flags := by
  refine ⟨haligned, hinside, stepSafe_of_check hsafe, .inl ?_⟩
  obtain ⟨found, hfound, hsome⟩ := (Option.any_eq_true _ _).mp hregion
  obtain ⟨n, rfl⟩ := Option.isSome_iff_exists.mp hsome
  exact ⟨n, (descend_steady _ _ _ _).returns fuel hfound⟩

/-- Device memory is mapped, `map_alloc` takes two frames and `map_phys` the last one. -/
theorem threeMappings_run :
    ((mapPhys smallHeap 20 fourFrames 0x400000 0x800000 1 0).bind fun r₁ =>
      (mapAllocCalls smallHeap 20 r₁.1 0x401000 2 0).bind fun r₂ =>
        (mapPhys smallHeap 20 r₂.1.1 0x403000 0x3000 1 0).map fun r₃ =>
          decide (r₁.2 = 0 ∧ r₂.1.2 = 0 ∧ r₃.2 = 0 ∧ grants r₂.2 = [⟨0, 4096⟩, ⟨4096, 4096⟩] ∧
            r₂.2.all (AllocCall.safeCheck smallHeap.kmalloc 20) = true ∧
            stepSafeCheck smallHeap.kmalloc 20 r₂.1.1.phys
              (.allocAddr (unitsOf 1 0 * pageSize) 0x3000) = true ∧
            (allocTreeFindContaining 20 r₂.1.1.phys.tree 0x3000
              (unitsOf 1 0 * pageSize)).any Option.isSome = true)) = some true := by
  decide +kernel

/-- The frames of the two `map_phys` calls stay apart from those that `map_alloc` took. -/
theorem ownerRun_threeMappings :
    16384 < 2 ^ 63 ∧ ∃ s, OwnerRun smallHeap (PhysOwned smallHeap)
        (AllocCall.Safe smallHeap.kmalloc) 16384 s
        [physRange 0x3000 1 0, physRange 0x800000 1 0] [⟨0, 4096⟩, ⟨4096, 4096⟩] ∧
      FramesApart [physRange 0x3000 1 0, physRange 0x800000 1 0] [⟨0, 4096⟩, ⟨4096, 4096⟩] := by
  obtain ⟨⟨s₁, code₁⟩, hdevice, hcalls⟩ := Option.bind_eq_some_iff.mp threeMappings_run
  obtain ⟨⟨⟨s₂, code₂⟩, calls⟩, halloc, hcalls⟩ := Option.bind_eq_some_iff.mp hcalls
  obtain ⟨⟨s₃, code₃⟩, hphys, hfacts⟩ := Option.map_eq_some_iff.mp hcalls
  obtain ⟨rfl, rfl, rfl, hgrants, hsafe, haddr, hfound⟩ := of_decide_eq_true hfacts
  have hinit : OwnerRun smallHeap (PhysOwned smallHeap) (AllocCall.Safe smallHeap.kmalloc) 16384
      fourFrames [] [] := .init newHandle newHandle.phys
  have hrun₁ := hinit.mapPhys physOwned_device ((mapPhys_steady _ _ _ _ _ _).returns 20 hdevice)
  have hrun₂ := hrun₁.mapAlloc ((mapAllocCalls_steady _ _ _ _ _).returns 20 halloc) fun c hc =>
    stepSafe_of_check (List.all_eq_true.mp hsafe c hc)
  have hrun₃ := hrun₂.mapPhys (physOwned_of_check (by decide) (by decide) haddr hfound)
    ((mapPhys_steady _ _ _ _ _ _).returns 20 hphys)
  rw [hgrants] at hrun₃
  exact ⟨by decide, s₃, hrun₃, ownerRun_framesApart (by decide) hrun₃⟩

/-- A frame is handed out, and then mapped by `map_phys` without an error. -/
theorem ownerRun_sharesFrame :
    ∃ s phys alloc, OwnerRun smallHeap (fun _ _ _ _ _ => True) (fun _ => True) 16384 s phys alloc ∧
      ¬ FramesApart phys alloc := by
  have hcall : ((mapAllocCalls smallHeap 5 fourFrames 0x400000 1 0).bind fun r =>
      (mapPhys smallHeap 5 r.1.1 0x401000 0 1 0).map fun q => (r.1.2, grants r.2, q.2)) =
      some (0, [⟨0, 4096⟩], 0) := by decide +kernel
  obtain ⟨⟨⟨s₁, code₁⟩, calls⟩, halloc, hcall⟩ := Option.bind_eq_some_iff.mp hcall
  obtain ⟨⟨s₂, code₂⟩, hphys, hres⟩ := Option.map_eq_some_iff.mp hcall
  simp only [Prod.mk.injEq] at hres
  obtain ⟨rfl, hgrants, rfl⟩ := hres
  have hinit : OwnerRun smallHeap (fun _ _ _ _ _ => True) (fun _ => True) 16384 fourFrames [] [] :=
    .init newHandle newHandle.phys
  have hfirst := hinit.mapAlloc ((mapAllocCalls_steady _ _ _ _ _).returns 5 halloc)
    fun _ _ => trivial
  have hsecond := hfirst.mapPhys trivial ((mapPhys_steady _ _ _ _ _ _).returns 5 hphys)
  refine ⟨s₂, _, _, hsecond, fun h => ?_⟩
  rw [hgrants] at h
  exact h 0 0 (by decide) (by decide) rfl

end Small

end UntitledOs.Vmemory
