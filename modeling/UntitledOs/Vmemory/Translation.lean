import UntitledOs.Vmemory.Mapping
import UntitledOs.Vmemory.Runs

/-!
# Runs of the page tables

A run creates a handle and maps and unmaps ranges.  As long as no 4 KiB page is
mapped through a directory entry with the page-size bit, the tables stay a tree,
and `map_phys` translates what it is asked to.
-/

namespace UntitledOs.Vmemory

open UntitledOs.Lib

variable {env : VmemEnv} {s s' : Vmem} {v p w n size : Nat} {vs : List Nat} {cs : List Chunk}

inductive VmemEvent
  | mapPhys (vaddr paddr usize flags : Nat)
  | mapAlloc (vaddr usize flags : Nat)
  | unmap (vaddr usize flags : Nat)

def vmemStep (env : VmemEnv) (fuel : Nat) (s : Vmem) : VmemEvent → Option (Vmem × Int)
  | .mapPhys vaddr paddr usize flags => mapPhys env fuel s vaddr paddr usize flags
  | .mapAlloc vaddr usize flags => mapAlloc env fuel s vaddr usize flags
  | .unmap vaddr usize flags => unmap env fuel s vaddr usize flags

/-- The directory entry over `w` has no page-size bit, now or from earlier. -/
def Small (s : Vmem) (w : Nat) : Prop := has (s.pdeAt w) pflagPsize = false

/-- Every 4 KiB page that is mapped goes through such an entry. -/
def ChunksSmall (env : VmemEnv) : List Chunk → Vmem → Prop
  | [], _ => True
  | c :: cs, s =>
      let r := mapPage env s c.size c.vaddr c.paddr
      r.2 = 0 → (c.size = pageSize → Small s c.vaddr) ∧ ChunksSmall env cs r.1

/-- The same of the rounds of `MAP_PAGE_ALLOC`. -/
def LoopSmall (env : VmemEnv) (fuel : Nat) : List Nat → Vmem → Prop
  | [], _ => True
  | v :: vs, s =>
      ∀ a paddr, allocatorAllocAlign env.kmalloc fuel s.phys pageSize pageSize =
          some (a, some paddr) →
        let r := mapPage env { s with phys := a } pageSize v paddr
        r.2 = 0 → Small s v ∧ LoopSmall env fuel vs r.1

/-- `map_alloc` goes on behind a loop that ends so. -/
def LoopEnd.GoesOn : LoopEnd → Prop
  | .returned _ => False
  | _ => True

/-- The same of the two loops of `map_alloc` over 4 KiB pages. -/
def AllocSmall (env : VmemEnv) (s : Vmem) (vaddr usize : Nat) : Prop :=
  let head := headVaddrs usize vaddr
  let usize := usize - head.length
  let vaddr := u64 (vaddr + head.length * pageSize)
  ∀ fuel, LoopSmall env fuel head s ∧
    ∀ r r', allocLoop env fuel pageSize head s = some r → r.2.code = 0 →
      allocLoop env fuel pageSize2 (loopVaddrs pageSize2 (usize / (pageSize2 / pageSize)) vaddr)
        r.1 = some r' → r'.2.GoesOn → LoopSmall env fuel (tailVaddrs usize vaddr r'.2) r'.1

/-- What a call needs to keep the tables a tree. -/
def KeepsTables (env : VmemEnv) (s : Vmem) : VmemEvent → Prop
  | .mapPhys vaddr paddr usize flags =>
      ∀ fuel r, allocatorAllocAddr env.kmalloc fuel s.phys (u64 (unitsOf usize flags * pageSize))
          paddr = some r →
        ChunksSmall env (rangeChunks (unitsOf usize flags) vaddr paddr) { s with phys := r.1 }
  | .mapAlloc vaddr usize flags =>
      if has flags vmemFlagMaintainContinuity then
        ∀ fuel a paddr, allocatorAllocAlign env.kmalloc fuel s.phys
            (u64 (unitsOf usize flags * pageSize)) pageSize = some (a, some paddr) →
          ChunksSmall env (rangeChunks (unitsOf usize flags) vaddr paddr) { s with phys := a }
      else AllocSmall env s vaddr (unitsOf usize flags)
  | .unmap _ _ _ => True

/-- The runs of a handle from its creation on. -/
inductive VmemRun (env : VmemEnv) (ok : Vmem → VmemEvent → Prop) : Vmem → Prop
  | create (s : Vmem) (created : (createMemHndl env s).2 = 0) :
      VmemRun env ok (createMemHndl env s).1
  | step {s : Vmem} {event : VmemEvent} {r : Vmem × Int} (run : VmemRun env ok s)
      (isOk : ok s event) (returns : Returns (fun fuel => vmemStep env fuel s event) r) :
      VmemRun env ok r.1

section Step

theorem mapPage_inv (h : TableInv env s) (hs : TableSupply env)
    (hsize : size = pageSize ∨ size = pageSize2)
    (hv : (mapPage env s size v p).2 = 0 → size = pageSize → Small s v) :
    TableInv env (mapPage env s size v p).1 := by
  rcases hsize with rfl | rfl
  · cases hpsize : has (s.pdeAt v) pflagPsize with
    | false =>
        rcases mapPage_small h hs hpsize p with ⟨hop, -⟩ | ⟨s₁, -, -, hinv, -⟩
        · exact hop.inv
        · exact hinv
    | true =>
        refine mapPage_fails_inv h hs hpsize fun hret => ?_
        have hsmall := hv hret rfl
        rw [Small, hpsize] at hsmall
        cases hsmall
  · exact (mapPage_large h hs v p).2.1

theorem mapChunks_inv (h : TableInv env s) (hs : TableSupply env)
    (hsize : ∀ c ∈ cs, c.size = pageSize ∨ c.size = pageSize2) (hsmall : ChunksSmall env cs s) :
    TableInv env (mapChunks env cs s).1 := by
  induction cs generalizing s with
  | nil => exact h
  | cons c cs ih =>
      have hinv := mapPage_inv h hs (hsize c (by simp)) fun hret => (hsmall hret).1
      rw [mapChunks]
      split
      · next hret => exact ih hinv (fun d hd => hsize d (by simp [hd])) (hsmall hret).2
      · exact hinv

theorem rangeChunks_size (n v p : Nat) :
    ∀ c ∈ rangeChunks n v p, c.size = pageSize ∨ c.size = pageSize2 := by
  have hhead : ∀ k v p, ∀ c ∈ headChunks k v p, c.size = pageSize := by
    intro k
    induction k with
    | zero => simp [headChunks]
    | succ k ih =>
        intro v p c hc
        rw [headChunks] at hc
        split at hc
        · rcases List.mem_cons.mp hc with rfl | hc
          · rfl
          · exact ih _ _ c hc
        · simp at hc
  intro c hc
  simp only [rangeChunks, loopChunks, List.mem_append, List.mem_map] at hc
  rcases hc with (hc | ⟨i, -, rfl⟩) | ⟨i, -, rfl⟩
  · exact .inl (hhead _ _ _ c hc)
  · exact .inr rfl
  · exact .inl rfl

theorem allocLoop_small (h : TableInv env s) (hs : TableSupply env) {fuel : Nat}
    (hsmall : LoopSmall env fuel vs s) {r : Vmem × LoopEnd}
    (hret : allocLoop env fuel pageSize vs s = some r) : TableInv env r.1 := by
  induction vs generalizing s with
  | nil =>
      obtain rfl := Option.some.inj hret
      exact h
  | cons v vs ih =>
      rw [allocLoop] at hret
      obtain ⟨⟨a, q⟩, halloc, hret⟩ := Option.bind_eq_some_iff.mp hret
      cases q with
      | none =>
          obtain rfl := Option.some.inj hret
          exact h.setPhys a
      | some q =>
          have hround := hsmall a q halloc
          have hinv : TableInv env (mapPage env { s with phys := a } pageSize v q).1 :=
            mapPage_inv (h.setPhys a) hs (.inl rfl) fun hzero _ => (hround hzero).1
          dsimp only at hret
          split at hret
          · next hzero => exact ih hinv (hround hzero).2 hret
          · obtain rfl := Option.some.inj hret
            exact hinv

theorem allocLoop_large (h : TableInv env s) (hs : TableSupply env)
    {fuel : Nat} {r : Vmem × LoopEnd} (hret : allocLoop env fuel pageSize2 vs s = some r) :
    TableInv env r.1 := by
  induction vs generalizing s with
  | nil =>
      obtain rfl := Option.some.inj hret
      exact h
  | cons v vs ih =>
      rw [allocLoop] at hret
      obtain ⟨⟨a, q⟩, -, hret⟩ := Option.bind_eq_some_iff.mp hret
      cases q with
      | none =>
          obtain rfl := Option.some.inj hret
          exact h.setPhys a
      | some q =>
          have hinv := (mapPage_large (h.setPhys a) hs v q).2.1
          dsimp only at hret
          split at hret
          · exact ih hinv hret
          · obtain rfl := Option.some.inj hret
            exact hinv

theorem mapAllocPages_inv (h : TableInv env s) (hs : TableSupply env) {fuel : Nat}
    (hsmall : AllocSmall env s v n) {r : Vmem × Int}
    (hret : mapAllocPages env fuel s v n = some r) : TableInv env r.1 := by
  obtain ⟨hhead, htail⟩ := hsmall fuel
  rw [mapAllocPages] at hret
  obtain ⟨r₁, hr₁, hret⟩ := Option.bind_eq_some_iff.mp hret
  have hinv₁ := allocLoop_small h hs hhead hr₁
  split at hret
  · obtain rfl := Option.some.inj hret
    exact hinv₁
  rename_i hcode
  obtain ⟨⟨s₂, stop⟩, hr₂, hret⟩ := Option.bind_eq_some_iff.mp hret
  have hinv₂ := allocLoop_large hinv₁ hs hr₂
  have htail' := htail r₁ _ hr₁ (not_not.mp hcode) hr₂
  cases stop with
  | returned code =>
      obtain rfl := Option.some.inj hret
      exact hinv₂
  | finished =>
      obtain ⟨r₃, hr₃, rfl⟩ := Option.map_eq_some_iff.mp hret
      exact allocLoop_small hinv₂ hs (htail' trivial) hr₃
  | noFrame rounds =>
      obtain ⟨r₃, hr₃, rfl⟩ := Option.map_eq_some_iff.mp hret
      exact allocLoop_small hinv₂ hs (htail' trivial) hr₃

theorem unmapPages_inv (h : TableInv env s) {fuel : Nat} {ps : List (Nat × Nat)} {r : Vmem × Int}
    (hret : unmapPages env fuel ps s = some r) : TableInv env r.1 := by
  induction ps generalizing s with
  | nil =>
      obtain rfl := Option.some.inj hret
      exact h
  | cons c ps ih =>
      rw [unmapPages] at hret
      obtain ⟨r', hr', hret⟩ := Option.bind_eq_some_iff.mp hret
      have hinv := h.unmapPage hr'
      split at hret
      · exact ih hinv hret
      · obtain rfl := Option.some.inj hret
        exact hinv

theorem vmemStep_inv (h : TableInv env s) (hs : TableSupply env) {event : VmemEvent} {fuel : Nat}
    (hok : KeepsTables env s event) {r : Vmem × Int} (hret : vmemStep env fuel s event = some r) :
    TableInv env r.1 := by
  cases event with
  | mapPhys vaddr paddr usize flags =>
      obtain ⟨a, ha, rfl⟩ := Option.map_eq_some_iff.mp hret
      exact mapChunks_inv (h.setPhys a.1) hs (rangeChunks_size _ _ _) (hok fuel a ha)
  | mapAlloc vaddr usize flags =>
      simp only [vmemStep, mapAlloc] at hret
      rw [KeepsTables] at hok
      split at hret
      · rename_i hcont
        rw [if_pos hcont] at hok
        obtain ⟨⟨a, q⟩, ha, rfl⟩ := Option.map_eq_some_iff.mp hret
        cases q with
        | none => exact h.setPhys a
        | some q => exact mapChunks_inv (h.setPhys a) hs (rangeChunks_size _ _ _) (hok fuel a q ha)
      · rename_i hcont
        rw [if_neg hcont] at hok
        exact mapAllocPages_inv h hs hok hret
  | unmap vaddr usize flags => exact unmapPages_inv h hret

end Step

theorem table_of_blank (hblank : ∀ i, s.cell [] i = 0) (i : Fin 512) (p : List (Fin 512)) :
    s.table (i :: p) = none := by
  induction p generalizing i with
  | nil => rw [Vmem.table_cons_of_some (TableInv.table_root s), hblank, nextTable_zero]
  | cons j p ih => exact Vmem.table_cons_of_none (ih j)

theorem cell_of_blank (hblank : ∀ i, s.cell [] i = 0) (p : List (Fin 512)) (i : Fin 512) :
    s.cell p i = 0 := by
  cases p with
  | nil => exact hblank i
  | cons j p => exact Vmem.cell_of_none (table_of_blank hblank j p)

theorem tableInv_of_blank (hroot : s.pml4 % 4096 = 0) (hblank : ∀ i, s.cell [] i = 0)
    (hsupply : ∃ k < s.tables, env.kmallocAlign k = some s.pml4) : TableInv env s := by
  have hnil : ∀ p f, s.table p = some f → p = [] := by
    intro p f hf
    cases p with
    | nil => rfl
    | cons i p =>
        rw [table_of_blank hblank] at hf
        cases hf
  refine ⟨hroot, ⟨fun _ _ hp hq => ?_⟩, fun p f _ hf => ?_,
    fun p i _ => .inl (cell_of_blank hblank p i), fun p i _ => .inl (cell_of_blank hblank p i)⟩
  · rw [hnil _ _ hp, hnil _ _ hq]
  · obtain rfl := hnil p f hf
    obtain rfl : s.pml4 / 4096 = f := Option.some.inj hf
    rwa [Nat.mul_div_cancel' (Nat.dvd_of_mod_eq_zero hroot)]

theorem createMemHndl_blank (hs : TableSupply env) (s : Vmem) (h : (createMemHndl env s).2 = 0)
    (i : Fin 512) : (createMemHndl env s).1.cell [] i = 0 := by
  unfold createMemHndl at h ⊢
  cases ht : env.kmallocAlign s.tables with
  | none =>
      rw [ht] at h
      exact absurd h (show vmemErrNospace ≠ 0 by decide)
  | some t =>
      obtain ⟨g, -, rfl⟩ := hs.frame _ _ ht
      rw [Vmem.cell_of_table (TableInv.table_root _)]
      have hi := i.isLt
      exact if_pos ⟨by simp only [Vmem.clearTable]; omega, by simp only [Vmem.clearTable]; omega⟩

theorem createMemHndl_inv (hs : TableSupply env) (s : Vmem) (h : (createMemHndl env s).2 = 0) :
    TableInv env (createMemHndl env s).1 := by
  have hblank := createMemHndl_blank hs s h
  unfold createMemHndl at h hblank ⊢
  cases ht : env.kmallocAlign s.tables with
  | none =>
      rw [ht] at h
      exact absurd h (show vmemErrNospace ≠ 0 by decide)
  | some t =>
      simp only [ht] at hblank
      obtain ⟨g, -, rfl⟩ := hs.frame _ _ ht
      exact tableInv_of_blank (Nat.mul_mod_right 4096 g) hblank ⟨s.tables, Nat.lt_succ_self _, ht⟩

theorem vmemRun_inv (hs : TableSupply env) (hrun : VmemRun env (KeepsTables env) s) :
    TableInv env s := by
  induction hrun with
  | create s created => exact createMemHndl_inv hs s created
  | step _ isOk returns ih =>
      obtain ⟨fuel, hfuel⟩ := returns
      exact vmemStep_inv ih hs isOk (hfuel fuel le_rfl)

/--
What `map_phys` needs to translate its range: the range fits the address space,
and every mapping it makes is safe in the state before the call.
-/
def MapSafe (s : Vmem) (v p n : Nat) : Prop :=
  n ≤ 2 ^ 36 ∧ ∀ c ∈ rangeChunks n v p, ChunkSafe s c

/-- A heap that gives a thousand frames from 1 MiB on. -/
def smallHeap : VmemEnv where
  kmallocAlign k := if k < 1000 then some (4096 * (256 + k)) else none
  kmalloc k := k + 1

theorem smallHeap_supply : TableSupply smallHeap where
  frame k t ht := by
    simp only [smallHeap] at ht
    split at ht
    · exact ⟨256 + k, by omega, (Option.some.inj ht).symm⟩
    · cases ht
  inj j k t hj hk := by
    simp only [smallHeap] at hj hk
    split at hj
    · split at hk
      · have heq := (Option.some.inj hj).trans (Option.some.inj hk).symm
        omega
      · cases hk
    · cases hj

/-- A new handle over empty memory. -/
def newHandle : Vmem := (createMemHndl smallHeap ⟨fun _ => 0, 0, 0, blankAllocator⟩).1

theorem newHandle_run {ok : Vmem → VmemEvent → Prop} : VmemRun smallHeap ok newHandle :=
  .create _ (by decide)

theorem newHandle_blank : ∀ p i, newHandle.cell p i = 0 :=
  cell_of_blank (createMemHndl_blank smallHeap_supply _ (by decide))

theorem newHandle_translate (w : Nat) : newHandle.translate w = none := by
  have hinv := vmemRun_inv smallHeap_supply newHandle_run
  rw [Vmem.translate, walk_eq hinv, Vmem.pdeAt, newHandle_blank, walkOf, has_zero]
  rfl

theorem mapPhys_steady (env : VmemEnv) (s : Vmem) (vaddr paddr usize flags : Nat) :
    Steady fun fuel => mapPhys env fuel s vaddr paddr usize flags :=
  (allocatorAllocAddr_steady _ _ _ _).map _

instance (s : Vmem) (c : Chunk) : Decidable (ChunkSafe s c) :=
  inferInstanceAs (Decidable (if c.size = pageSize2 then _ else _))

end UntitledOs.Vmemory
