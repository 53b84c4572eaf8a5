import Mathlib.Algebra.Group.Nat.Defs
import Mathlib.Logic.Function.Basic

/-!
# Starting the application processors

The loop of `mtask_init` and `start_ap` on the boot processor against the
trampoline code of `smp_trampoline.s` on the others, one access to shared memory
at a time.  The data block of the trampoline is one for all processors: the
boot processor fills it in for each start, and an AP reads its task register
from it, raises the boot flag in it and then reads its jump slot from it.

An AP may be as slow as it likes, or never answer.
-/

namespace UntitledOs.Mtask

/-- `MTASK_AP_BOOT_TRY_COUNT` -/
def mtaskApBootTryCount : Nat := 100

/-- What the loop over the cores finds. -/
structure CoreTable where
  coreNum : Nat
  /-- `lapic_ids[i] == bsp_lapic_id` -/
  isBsp : Nat → Bool
  /-- the TSS descriptor for core `i`, unless the GDT is full -/
  tssDesc : Nat → Option Nat

/-- The fields of `smp_trampoline_data` that differ between starts; `jmp_loc` points into
`core_info`. -/
structure SmpTrampolineData where
  bootFlag : Bool
  tss : Nat
  jmpLoc : Option Nat
  deriving DecidableEq

inductive BspPlace
  | loop (i : Nat)
  /-- before the store number `k` of `start_ap`, or its start-up interrupt -/
  | store (i gd k : Nat)
  | poll (i tries : Nat)
  | finished
  deriving DecidableEq

inductive ApPlace
  | off
  | tramp
  /-- the task register is loaded -/
  | tasked (tr : Nat)
  /-- the boot flag is raised -/
  | booted (tr : Nat)
  | waiting (tr : Nat) (slot : Option Nat)
  /-- a jump location has been seen in the slot -/
  | leaving (tr slot : Nat)
  | running (tr slot loc : Nat)
  deriving DecidableEq

structure Cores where
  data : SmpTrampolineData
  bsp : BspPlace
  ap : Nat → ApPlace
  /-- `core_info[i].jmp_loc` -/
  jmpLoc : Nat → Nat
  /-- what `start_ap` has returned for core `i` -/
  status : Nat → Option Bool

namespace Cores

def setAp (c : Cores) (i : Nat) (p : ApPlace) : Cores :=
  { c with ap := Function.update c.ap i p }

def setStatus (c : Cores) (i : Nat) (s : Bool) : Cores :=
  { c with status := Function.update c.status i (some s) }

def initial : Cores where
  data := ⟨false, 0, none⟩
  bsp := .loop 0
  ap _ := .off
  jmpLoc _ := 0
  status _ := none

end Cores

/-- The stores of `start_ap`: the fields of the copied trampoline, then the assignments. -/
def startApStores (i gd : Nat) : List (SmpTrampolineData → SmpTrampolineData) :=
  [fun d => { d with bootFlag := false }, fun d => { d with tss := 0 },
    fun d => { d with jmpLoc := none }, fun d => { d with tss := gd % 2 ^ 16 },
    fun d => { d with bootFlag := false }, fun d => { d with jmpLoc := some i }]

/-- The boot processor takes its next step. -/
def bspStep (t : CoreTable) (c : Cores) : Cores :=
  match c.bsp with
  | .loop i =>
      if i < t.coreNum then
        if t.isBsp i then { c with bsp := .loop (i + 1) }
        else match t.tssDesc i with
          | none => { c with bsp := .finished }
          | some gd => { c with bsp := .store i gd 0 }
      else { c with bsp := .finished }
  | .store i gd k =>
      match (startApStores i gd)[k]? with
      | some f => { c with data := f c.data, bsp := .store i gd (k + 1) }
      | none => { c.setAp i .tramp with bsp := .poll i 0 }
  | .poll i tries =>
      if c.data.bootFlag then
        { c.setStatus i (decide (tries < mtaskApBootTryCount)) with bsp := .loop (i + 1) }
      else if tries < mtaskApBootTryCount then { c with bsp := .poll i (tries + 1) }
      else { c.setStatus i false with bsp := .loop (i + 1) }
  | .finished => c

/-- The AP of core `i` takes its next step. -/
def apStep (c : Cores) (i : Nat) : Cores :=
  match c.ap i with
  | .off => c
  | .tramp => c.setAp i (.tasked c.data.tss)
  | .tasked tr => { c.setAp i (.booted tr) with data := { c.data with bootFlag := true } }
  | .booted tr => c.setAp i (.waiting tr c.data.jmpLoc)
  | .waiting tr (some slot) =>
      if c.jmpLoc slot = 0 then c else c.setAp i (.leaving tr slot)
  -- a null `jmp_loc` is waited on at address zero
  | .waiting _ none => c
  | .leaving tr slot => c.setAp i (.running tr slot (c.jmpLoc slot))
  | .running _ _ _ => c

/-- `ap_jump` -/
def apJump (t : CoreTable) (c : Cores) (i loc : Nat) : Cores :=
  if i ≥ t.coreNum then c else { c with jmpLoc := Function.update c.jmpLoc i loc }

/-- Every order of steps; `ap_jump` is called when the loop is over. -/
inductive Reached (t : CoreTable) : Cores → Prop
  | initial : Reached t .initial
  | bsp {c : Cores} : Reached t c → Reached t (bspStep t c)
  | ap {c : Cores} (i : Nat) : Reached t c → Reached t (apStep c i)
  | jump {c : Cores} (i loc : Nat) (h : c.bsp = .finished) : Reached t c → Reached t (apJump t c i loc)

def ApPlace.tr : ApPlace → Option Nat
  | .off => none
  | .tramp => none
  | .tasked tr => some tr
  | .booted tr => some tr
  | .waiting tr _ => some tr
  | .leaving tr _ => some tr
  | .running tr _ _ => some tr

/-- The boot flag has been raised by this AP. -/
def ApPlace.Booted : ApPlace → Prop
  | .off => False
  | .tramp => False
  | .tasked _ => False
  | _ => True

instance : DecidablePred ApPlace.Booted := fun p => by
  cases p <;> unfold ApPlace.Booted <;> infer_instance

/-- The jump slot the AP has read, once it has. -/
def ApPlace.slot : ApPlace → Option (Option Nat)
  | .waiting _ slot => some slot
  | .leaving _ slot => some (some slot)
  | .running _ slot _ => some (some slot)
  | _ => none

/-- The core the loop has come to. -/
def BspPlace.Past (i : Nat) : BspPlace → Prop
  | .loop j => i < j
  | .store j _ _ => i < j
  | .poll j _ => i < j
  | .finished => True

/-- The boot processor waits for core `i`. -/
def BspPlace.Polls (i : Nat) : BspPlace → Prop
  | .poll j _ => i = j
  | _ => False

section Steps

variable {t : CoreTable} {c : Cores} {i j : Nat}

@[simp] theorem Cores.setAp_ap (c : Cores) (i j : Nat) (p : ApPlace) :
    (c.setAp i p).ap j = if j = i then p else c.ap j :=
  Function.update_apply c.ap i p j

@[simp] theorem Cores.setStatus_status (c : Cores) (i j : Nat) (s : Bool) :
    (c.setStatus i s).status j = if j = i then some s else c.status j :=
  Function.update_apply c.status i (some s) j

/-- What the boot processor does, case by case. -/
inductive BspMove (t : CoreTable) (c : Cores) : Cores → Prop
  | skip {i : Nat} (hbsp : c.bsp = .loop i) : BspMove t c { c with bsp := .loop (i + 1) }
  | finish {i : Nat} (hbsp : c.bsp = .loop i) : BspMove t c { c with bsp := .finished }
  | start {i gd : Nat} (hbsp : c.bsp = .loop i) (hgd : t.tssDesc i = some gd) :
      BspMove t c { c with bsp := .store i gd 0 }
  | store {i gd k : Nat} {f : SmpTrampolineData → SmpTrampolineData} (hbsp : c.bsp = .store i gd k)
      (hf : (startApStores i gd)[k]? = some f) :
      BspMove t c { c with data := f c.data, bsp := .store i gd (k + 1) }
  | wake {i gd k : Nat} (hbsp : c.bsp = .store i gd k) (hf : (startApStores i gd)[k]? = none) :
      BspMove t c { c.setAp i .tramp with bsp := .poll i 0 }
  | again {i tries : Nat} (hbsp : c.bsp = .poll i tries) :
      BspMove t c { c with bsp := .poll i (tries + 1) }
  | seen {i tries : Nat} (hbsp : c.bsp = .poll i tries) (hflag : c.data.bootFlag = true) :
      BspMove t c { c.setStatus i true with bsp := .loop (i + 1) }
  | timeout {i tries : Nat} (hbsp : c.bsp = .poll i tries) :
      BspMove t c { c.setStatus i false with bsp := .loop (i + 1) }
  | rest (hbsp : c.bsp = .finished) : BspMove t c c

theorem bspStep_move (t : CoreTable) (c : Cores) : BspMove t c (bspStep t c) := by
  unfold bspStep
  split
  · rename_i i hbsp
    split
    · split
      · exact .skip hbsp
      · split
        · exact .finish hbsp
        · rename_i gd hgd
          exact .start hbsp hgd
    · exact .finish hbsp
  · rename_i i gd k hbsp
    split
    · rename_i f hf
      exact .store hbsp hf
    · rename_i hf
      exact .wake hbsp hf
  · rename_i i tries hbsp
    split
    · rename_i hflag
      cases decide (tries < mtaskApBootTryCount) with
      | true => exact .seen hbsp hflag
      | false => exact .timeout hbsp
    · split
      · exact .again hbsp
      · exact .timeout hbsp
  · rename_i hbsp
    exact .rest hbsp

/-- What an AP does, case by case. -/
inductive ApMove (c : Cores) (i : Nat) : Cores → Prop
  | task (hap : c.ap i = .tramp) : ApMove c i (c.setAp i (.tasked c.data.tss))
  | boot {tr : Nat} (hap : c.ap i = .tasked tr) :
      ApMove c i { c.setAp i (.booted tr) with data := { c.data with bootFlag := true } }
  | slot {tr : Nat} (hap : c.ap i = .booted tr) :
      ApMove c i (c.setAp i (.waiting tr c.data.jmpLoc))
  | leave {tr slot : Nat} (hap : c.ap i = .waiting tr (some slot)) :
      ApMove c i (c.setAp i (.leaving tr slot))
  | run {tr slot : Nat} (hap : c.ap i = .leaving tr slot) :
      ApMove c i (c.setAp i (.running tr slot (c.jmpLoc slot)))
  | rest : ApMove c i c

theorem apStep_move (c : Cores) (i : Nat) : ApMove c i (apStep c i) := by
  unfold apStep
  split
  · exact .rest
  · rename_i hap
    exact .task hap
  · rename_i tr hap
    exact .boot hap
  · rename_i tr hap
    exact .slot hap
  · rename_i tr slot hap
    split
    · exact .rest
    · exact .leave hap
  · exact .rest
  · rename_i tr slot hap
    exact .run hap
  · exact .rest

/-- A core whose start has returned is behind the loop. -/
theorem Reached.status_past (h : Reached t c) : ∀ i, c.status i ≠ none → c.bsp.Past i := by
  induction h with
  | initial => exact fun i hi => absurd rfl hi
  | @bsp c _ ih =>
      have hmove := bspStep_move t c
      generalize bspStep t c = c' at hmove
      have hpast : ∀ {i j : Nat} {b : Bool}, (∀ k, c.bsp.Past k → k < j) →
          (c.setStatus j b).status i ≠ none → i < j + 1 := by
        intro i j b hj hi
        by_cases hij : i = j
        · omega
        · have := hj i (ih i (by simpa [hij] using hi))
          omega
      cases hmove with
      | skip hbsp =>
          intro i hi
          have := ih i hi
          rw [hbsp] at this
          exact Nat.lt_succ_of_lt this
      | finish _ => exact fun _ _ => trivial
      | start hbsp _ => rw [hbsp] at ih; exact ih
      | store hbsp _ => rw [hbsp] at ih; exact ih
      | wake hbsp _ => rw [hbsp] at ih; exact ih
      | again hbsp => rw [hbsp] at ih; exact ih
      | seen hbsp _ => exact fun i hi => hpast (fun k hk => by rwa [hbsp] at hk) hi
      | timeout hbsp => exact fun i hi => hpast (fun k hk => by rwa [hbsp] at hk) hi
      | rest _ => exact ih
  | @ap c j _ ih =>
      have hmove := apStep_move c j
      generalize apStep c j = c' at hmove
      cases hmove <;> exact ih
  | @jump c j loc _ _ ih =>
      unfold apJump
      split <;> exact ih

/-- The stores of one start, up to the store number `k`. -/
structure Stored (i gd k : Nat) (d : SmpTrampolineData) : Prop where
  tss : 4 ≤ k → d.tss = gd % 2 ^ 16
  bootFlag : 5 ≤ k → d.bootFlag = false
  jmpLoc : 6 ≤ k → d.jmpLoc = some i

theorem Stored.step {gd k : Nat} {d : SmpTrampolineData}
    {f : SmpTrampolineData → SmpTrampolineData} (h : Stored i gd k d)
    (hf : (startApStores i gd)[k]? = some f) : Stored i gd (k + 1) (f d) := by
  have hk : k < 6 := (List.getElem?_eq_some_iff.mp hf).1
  obtain rfl | rfl | rfl | rfl | rfl | rfl : k = 0 ∨ k = 1 ∨ k = 2 ∨ k = 3 ∨ k = 4 ∨ k = 5 := by
    omega
  all_goals
    cases hf
    constructor <;> intro hle <;> first | omega | rfl | exact h.tss (by omega) |
      exact h.bootFlag (by omega)

/-- The cores in a run in which no start has timed out. -/
structure Orderly (t : CoreTable) (c : Cores) : Prop where
  off : ∀ i, ¬ c.bsp.Past i → ¬ c.bsp.Polls i → c.ap i = .off
  past : ∀ i, c.bsp.Past i → c.ap i = .off ∨ (c.ap i).Booted
  own : ∀ i tr, (c.ap i).tr = some tr → ∃ gd, t.tssDesc i = some gd ∧ tr = gd % 2 ^ 16
  slot : ∀ i s, (c.ap i).slot = some s →
    s = some i ∨ c.bsp.Past i ∧ ∀ k, s = some k → i < k
  status : ∀ i, c.status i = some true → (c.ap i).Booted
  jmpLoc : ∀ k, c.data.jmpLoc = some k → ∀ i, c.ap i ≠ .off → i ≤ k
  store : ∀ i gd k, c.bsp = .store i gd k → t.tssDesc i = some gd ∧ Stored i gd k c.data
  poll : ∀ i tries, c.bsp = .poll i tries → c.data.jmpLoc = some i ∧
    (∃ gd, t.tssDesc i = some gd ∧ c.data.tss = gd % 2 ^ 16) ∧
    (c.data.bootFlag = true → (c.ap i).Booted)

theorem orderly_initial (t : CoreTable) : Orderly t .initial where
  off _ _ _ := rfl
  past _ _ := .inl rfl
  own _ _ h := nomatch h
  slot _ _ h := nomatch h
  status _ h := nomatch h
  jmpLoc _ h := nomatch h
  store _ _ _ h := nomatch h
  poll _ _ h := nomatch h

theorem Orderly.jump {loc : Nat} (h : Orderly t c) : Orderly t (apJump t c i loc) := by
  unfold apJump
  split
  · exact h
  · exact ⟨h.off, h.past, h.own, h.slot, h.status, h.jmpLoc, h.store, h.poll⟩

/-- A step of the AP of core `i` to `p`, which may raise the boot flag. -/
theorem Orderly.moveAp {p : ApPlace} {flag : Bool} (h : Orderly t c) (hon : c.ap i ≠ .off)
    (hp : p ≠ .off) (hbooted : (c.ap i).Booted → p.Booted)
    (htr : ∀ tr, p.tr = some tr → ∃ gd, t.tssDesc i = some gd ∧ tr = gd % 2 ^ 16)
    (hslot : ∀ s, p.slot = some s → s = some i ∨ c.bsp.Past i ∧ ∀ k, s = some k → i < k)
    (hflag : flag = c.data.bootFlag ∨ c.bsp.Polls i ∧ p.Booted) :
    Orderly t { c.setAp i p with data := { c.data with bootFlag := flag } } where
  off j hpast hpolls := by
    have hoff := h.off j hpast hpolls
    by_cases hji : j = i
    · exact absurd (hji ▸ hoff) hon
    · simpa [hji] using hoff
  past j hpast := by
    have hpast' := h.past j hpast
    by_cases hji : j = i
    · subst hji
      simpa [hp] using hbooted (hpast'.resolve_left hon)
    · simpa [hji] using hpast'
  own j tr htr' := by
    by_cases hji : j = i
    · subst hji
      exact htr tr (by simpa using htr')
    · exact h.own j tr (by simpa [hji] using htr')
  slot j s hs := by
    by_cases hji : j = i
    · subst hji
      exact hslot s (by simpa using hs)
    · exact h.slot j s (by simpa [hji] using hs)
  status j hs := by
    by_cases hji : j = i
    · subst hji
      simpa using hbooted (h.status j hs)
    · simpa [hji] using h.status j hs
  jmpLoc k hk j hj := by
    by_cases hji : j = i
    · exact hji ▸ h.jmpLoc k hk i hon
    · exact h.jmpLoc k hk j (by simpa [hji] using hj)
  store j gd k hbsp := by
    obtain rfl : flag = c.data.bootFlag := by
      refine hflag.resolve_right fun hpolls => ?_
      rw [show c.bsp = .store j gd k from hbsp] at hpolls
      exact hpolls.1
    exact h.store j gd k hbsp
  poll j tries hbsp := by
    obtain ⟨hjmp, htss, hboot⟩ := h.poll j tries hbsp
    refine ⟨hjmp, htss, fun hraised => ?_⟩
    by_cases hji : j = i
    · subst hji
      rcases hflag with rfl | ⟨-, hp'⟩
      · simpa using hbooted (hboot hraised)
      · simpa using hp'
    · obtain rfl : flag = c.data.bootFlag := by
        refine hflag.resolve_right fun hpolls => ?_
        rw [show c.bsp = .poll j tries from hbsp] at hpolls
        exact hji hpolls.1.symm
      simpa [hji] using hboot hraised

/-- An AP that has been woken and has not raised the flag is the one that is waited for. -/
theorem Orderly.polls (h : Orderly t c) (hon : c.ap i ≠ .off) (hb : ¬ (c.ap i).Booted) :
    c.bsp.Polls i := by
  by_contra hpolls
  by_cases hpast : c.bsp.Past i
  · exact (h.past i hpast).elim hon hb
  · exact hon (h.off i hpast hpolls)

theorem Orderly.ap (h : Orderly t c) (i : Nat) : Orderly t (apStep c i) := by
  have hmove := apStep_move c i
  generalize apStep c i = c' at hmove
  have hplain : ∀ {p : ApPlace}, Orderly t { c.setAp i p with
      data := { c.data with bootFlag := c.data.bootFlag } } → Orderly t (c.setAp i p) := id
  cases hmove with
  | task hap =>
      have hpolls := h.polls (i := i) (by simp [hap]) (by simp [hap, ApPlace.Booted])
      refine hplain (h.moveAp (by simp [hap]) (by simp) (by simp [hap, ApPlace.Booted]) ?_
        (fun s hs => nomatch hs) (.inl rfl))
      intro tr htr
      cases hbsp : c.bsp with
      | poll j tries =>
          obtain rfl : i = j := by
            rw [hbsp] at hpolls
            exact hpolls
          obtain ⟨-, ⟨gd, hgd, htss⟩, -⟩ := h.poll i tries hbsp
          exact ⟨gd, hgd, by rw [← htss]; exact (Option.some.inj htr).symm⟩
      | _ => rw [hbsp] at hpolls; exact hpolls.elim
  | @boot tr hap =>
      have hpolls := h.polls (i := i) (by simp [hap]) (by simp [hap, ApPlace.Booted])
      exact h.moveAp (by simp [hap]) (by simp) (fun _ => trivial)
        (fun tr' htr => h.own i tr' (by rw [hap]; exact htr)) (fun s hs => nomatch hs)
        (.inr ⟨hpolls, trivial⟩)
  | @slot tr hap =>
      have hon : c.ap i ≠ .off := by simp [hap]
      refine hplain (h.moveAp hon (by simp) (fun _ => trivial)
        (fun tr' htr => h.own i tr' (by rw [hap]; exact htr)) ?_ (.inl rfl))
      intro s hs
      obtain rfl : c.data.jmpLoc = s := Option.some.inj hs
      by_cases hself : c.data.jmpLoc = some i
      · exact .inl hself
      · refine .inr ⟨?_, fun k hk => ?_⟩
        · by_contra hpast
          by_cases hpolls : c.bsp.Polls i
          · cases hbsp : c.bsp with
            | poll j tries =>
                obtain rfl : i = j := by
                  rw [hbsp] at hpolls
                  exact hpolls
                exact hself (h.poll i tries hbsp).1
            | _ => rw [hbsp] at hpolls; exact hpolls.elim
          · exact hon (h.off i hpast hpolls)
        · have hle := h.jmpLoc k hk i hon
          have hne : i ≠ k := fun e => hself (e ▸ hk)
          omega
  | @leave tr slot hap =>
      exact hplain (h.moveAp (by simp [hap]) (by simp) (fun _ => trivial)
        (fun tr' htr => h.own i tr' (by rw [hap]; exact htr))
        (fun s hs => h.slot i s (by rw [hap]; exact hs)) (.inl rfl))
  | @run tr slot hap =>
      exact hplain (h.moveAp (by simp [hap]) (by simp) (fun _ => trivial)
        (fun tr' htr => h.own i tr' (by rw [hap]; exact htr))
        (fun s hs => h.slot i s (by rw [hap]; exact hs)) (.inl rfl))
  | rest => exact h

/-- The boot processor goes on to a place where it waits for no AP. -/
theorem Orderly.moveBsp {b : BspPlace} (h : Orderly t c) (hpolls : ∀ i, ¬ c.bsp.Polls i)
    (hpast : ∀ i, c.bsp.Past i → b.Past i)
    (hstore : ∀ i gd k, b = .store i gd k → t.tssDesc i = some gd ∧ Stored i gd k c.data)
    (hpoll : ∀ i tries, b ≠ .poll i tries) : Orderly t { c with bsp := b } where
  off i hi _ := h.off i (fun hp => hi (hpast i hp)) (hpolls i)
  past i _ := by
    by_cases hp : c.bsp.Past i
    · exact h.past i hp
    · exact .inl (h.off i hp (hpolls i))
  own := h.own
  slot i s hs := (h.slot i s hs).imp id fun hlate => ⟨hpast i hlate.1, hlate.2⟩
  status := h.status
  jmpLoc := h.jmpLoc
  store i gd k hb := hstore i gd k hb
  poll i tries hb := absurd hb (hpoll i tries)

/-- A store of `start_ap` finds every AP off that could take the new jump slot for its own. -/
theorem Orderly.moveStore {gd k : Nat} {f : SmpTrampolineData → SmpTrampolineData}
    (h : Orderly t c) (hbsp : c.bsp = .store i gd k) (hf : (startApStores i gd)[k]? = some f) :
    Orderly t { c with data := f c.data, bsp := .store i gd (k + 1) } := by
  obtain ⟨hgd, hstored⟩ := h.store i gd k hbsp
  have hpast : ∀ j, c.bsp.Past j ↔ j < i := fun j => by rw [hbsp]; rfl
  have hpolls : ∀ j, ¬ c.bsp.Polls j := fun j hp => by
    rw [hbsp] at hp
    exact hp
  have hjmp : (f c.data).jmpLoc = c.data.jmpLoc ∨ (f c.data).jmpLoc = none ∨
      (f c.data).jmpLoc = some i := by
    have hk : k < 6 := (List.getElem?_eq_some_iff.mp hf).1
    obtain rfl | rfl | rfl | rfl | rfl | rfl : k = 0 ∨ k = 1 ∨ k = 2 ∨ k = 3 ∨ k = 4 ∨ k = 5 := by
      omega
    all_goals
      cases hf
      simp
  constructor
  · exact fun j hj _ => h.off j (fun hp => hj ((hpast j).mp hp)) (hpolls j)
  · exact fun j hj => h.past j ((hpast j).mpr hj)
  · exact h.own
  · exact fun j s hs => (h.slot j s hs).imp id fun hlate => ⟨(hpast j).mp hlate.1, hlate.2⟩
  · exact h.status
  · intro k' hk' j hj
    have hk' : (f c.data).jmpLoc = some k' := hk'
    rcases hjmp with hsame | hnone | hself
    · exact h.jmpLoc k' (hsame ▸ hk') j hj
    · rw [hnone] at hk'
      cases hk'
    · obtain rfl : i = k' := Option.some.inj (hself ▸ hk')
      have : c.bsp.Past j := by
        by_contra hp
        exact hj (h.off j hp (hpolls j))
      exact Nat.le_of_lt ((hpast j).mp this)
  · intro j gd' k' hb
    cases hb
    exact ⟨hgd, hstored.step hf⟩
  · exact fun j tries hb => nomatch hb

/-- The start-up interrupt, when the data block is filled in. -/
theorem Orderly.moveWake {gd k : Nat} (h : Orderly t c) (hbsp : c.bsp = .store i gd k)
    (hf : (startApStores i gd)[k]? = none) :
    Orderly t { c.setAp i .tramp with bsp := .poll i 0 } := by
  obtain ⟨hgd, hstored⟩ := h.store i gd k hbsp
  have hk : 6 ≤ k := List.getElem?_eq_none_iff.mp hf
  have hpast : ∀ j, c.bsp.Past j ↔ j < i := fun j => by rw [hbsp]; rfl
  have hpolls : ∀ j, ¬ c.bsp.Polls j := fun j hp => by
    rw [hbsp] at hp
    exact hp
  have hself : c.ap i = .off := h.off i (fun hp => Nat.lt_irrefl i ((hpast i).mp hp)) (hpolls i)
  constructor
  · intro j hj hne
    have hji : j ≠ i := hne
    simpa [hji] using h.off j (fun hp => hj ((hpast j).mp hp)) (hpolls j)
  · intro j hj
    have hji : j ≠ i := Nat.ne_of_lt hj
    simpa [hji] using h.past j ((hpast j).mpr hj)
  · intro j tr htr
    by_cases hji : j = i
    · simp [hji, ApPlace.tr] at htr
    · exact h.own j tr (by simpa [hji] using htr)
  · intro j s hs
    by_cases hji : j = i
    · simp [hji, ApPlace.slot] at hs
    · exact (h.slot j s (by simpa [hji] using hs)).imp id fun hlate =>
        ⟨(hpast j).mp hlate.1, hlate.2⟩
  · intro j hs
    have hb := h.status j hs
    have hji : j ≠ i := by
      rintro rfl
      rw [hself] at hb
      exact hb
    simpa [hji] using hb
  · intro k' hk' j hj
    obtain rfl : i = k' := Option.some.inj ((hstored.jmpLoc hk).symm.trans hk')
    by_cases hji : j = i
    · exact Nat.le_of_eq hji
    · have : c.bsp.Past j := by
        by_contra hp
        exact hj (by simpa [hji] using h.off j hp (hpolls j))
      exact Nat.le_of_lt ((hpast j).mp this)
  · exact fun j gd' k' hb => nomatch hb
  · intro j tries hb
    cases hb
    have hflag := hstored.bootFlag (by omega)
    exact ⟨hstored.jmpLoc hk, ⟨gd, hgd, hstored.tss (by omega)⟩,
      fun hraised => absurd (hflag.symm.trans hraised) (by decide)⟩

theorem Orderly.moveSeen {tries : Nat} (h : Orderly t c) (hbsp : c.bsp = .poll i tries)
    (hflag : c.data.bootFlag = true) :
    Orderly t { c.setStatus i true with bsp := .loop (i + 1) } := by
  have hbooted := (h.poll i tries hbsp).2.2 hflag
  have hpast : ∀ j, c.bsp.Past j ↔ j < i := fun j => by rw [hbsp]; rfl
  have hpolls : ∀ j, c.bsp.Polls j ↔ j = i := fun j => by rw [hbsp]; rfl
  constructor
  · intro j hj _
    have hj : ¬ j < i + 1 := hj
    exact h.off j (fun hp => hj (by have := (hpast j).mp hp; omega))
      (fun hp => hj (by have := (hpolls j).mp hp; omega))
  · intro j hj
    have hj : j < i + 1 := hj
    by_cases hji : j = i
    · exact .inr (hji ▸ hbooted)
    · exact h.past j ((hpast j).mpr (by omega))
  · exact h.own
  · intro j s hs
    refine (h.slot j s hs).imp id fun hlate => ⟨?_, hlate.2⟩
    have := (hpast j).mp hlate.1
    exact Nat.lt_succ_of_lt this
  · intro j hs
    by_cases hji : j = i
    · exact hji ▸ hbooted
    · exact h.status j (by simpa [hji] using hs)
  · exact h.jmpLoc
  · exact fun j gd k hb => nomatch hb
  · exact fun j tries hb => nomatch hb

theorem Orderly.bsp (h : Orderly t c) (hno : ∀ i, (bspStep t c).status i ≠ some false) :
    Orderly t (bspStep t c) := by
  have hmove := bspStep_move t c
  generalize bspStep t c = c' at hmove hno
  cases hmove with
  | @skip i hbsp =>
      refine h.moveBsp (fun j hp => ?_) (fun j hp => ?_) (fun _ _ _ hb => nomatch hb)
        (fun _ _ hb => nomatch hb)
      · rw [hbsp] at hp
        exact hp
      · rw [hbsp] at hp
        exact Nat.lt_succ_of_lt hp
  | @finish i hbsp =>
      refine h.moveBsp (fun j hp => ?_) (fun _ _ => trivial) (fun _ _ _ hb => nomatch hb)
        (fun _ _ hb => nomatch hb)
      rw [hbsp] at hp
      exact hp
  | @start i gd hbsp hgd =>
      refine h.moveBsp (fun j hp => ?_) (fun j hp => ?_) ?_ (fun _ _ hb => nomatch hb)
      · rw [hbsp] at hp
        exact hp
      · rw [hbsp] at hp
        exact hp
      · intro j gd' k hb
        cases hb
        exact ⟨hgd, by constructor <;> intro hle <;> omega⟩
  | store hbsp hf => exact h.moveStore hbsp hf
  | wake hbsp hf => exact h.moveWake hbsp hf
  | @again i tries hbsp =>
      have hpast : ∀ j, c.bsp.Past j ↔ j < i := fun j => by rw [hbsp]; rfl
      have hpolls : ∀ j, c.bsp.Polls j ↔ j = i := fun j => by rw [hbsp]; rfl
      refine ⟨fun j hj hp => h.off j (fun hq => hj ((hpast j).mp hq))
        (fun hq => hp ((hpolls j).mp hq)), fun j hj => h.past j ((hpast j).mpr hj), h.own,
        fun j s hs => (h.slot j s hs).imp id fun hlate => ⟨(hpast j).mp hlate.1, hlate.2⟩,
        h.status, h.jmpLoc, ?_, ?_⟩
      · exact fun _ _ _ hb => nomatch hb
      · intro j tries' hb
        cases hb
        exact h.poll i tries hbsp
  | seen hbsp hflag => exact h.moveSeen hbsp hflag
  | @timeout i tries hbsp => exact absurd (by simp) (hno i)
  | rest _ => exact h

/-- A start that has timed out stays timed out. -/
theorem Reached.timed_out (h : Reached t c) (hi : c.status i = some false) :
    (bspStep t c).status i = some false := by
  have hpast := h.status_past i (by simp [hi])
  have hmove := bspStep_move t c
  generalize bspStep t c = c' at hmove
  have hother : ∀ {j tries : Nat} {b : Bool}, c.bsp = .poll j tries →
      (c.setStatus j b).status i = some false := by
    intro j tries b hbsp
    rw [hbsp] at hpast
    have hij : i ≠ j := Nat.ne_of_lt hpast
    simpa [hij] using hi
  cases hmove with
  | seen hbsp _ => exact hother hbsp
  | timeout hbsp => exact hother hbsp
  | _ => exact hi

theorem Reached.orderly (h : Reached t c) (hno : ∀ i, c.status i ≠ some false) : Orderly t c := by
  induction h with
  | initial => exact orderly_initial t
  | @bsp c hc ih => exact (ih fun i hi => hno i (hc.timed_out hi)).bsp hno
  | @ap c i _ ih =>
      have hkeep : (apStep c i).status = c.status := by
        have hmove := apStep_move c i
        generalize apStep c i = c' at hmove
        cases hmove <;> rfl
      exact (ih (by rwa [hkeep] at hno)).ap i
  | @jump c i loc _ _ ih =>
      have hkeep : (apJump t c i loc).status = c.status := by
        unfold apJump
        split <;> rfl
      exact (ih (by rwa [hkeep] at hno)).jump

end Steps

/-- As long as no start has timed out, however the processors are interleaved: an AP that was woken
has the task register of its own core, a start that succeeded has seen the flag of its own AP, and
an AP waits at its own slot, unless it was so late to read the slot that the boot processor had
gone on: then at that of a later core, or at a null one. -/
theorem ap_startup {t : CoreTable} {c : Cores} (h : Reached t c)
    (hno : ∀ i, c.status i ≠ some false) (i : Nat) :
    (∀ tr, (c.ap i).tr = some tr → ∃ gd, t.tssDesc i = some gd ∧ tr = gd % 2 ^ 16) ∧
      (c.status i = some true → (c.ap i).Booted) ∧
      (∀ s, (c.ap i).slot = some s →
        s = some i ∨ c.bsp.Past i ∧ ∀ k, s = some k → i < k) :=
  ⟨(h.orderly hno).own i, (h.orderly hno).status i, (h.orderly hno).slot i⟩

/-- The steps of an order of processors, the boot processor being `none`. -/
def playCores (t : CoreTable) (c : Cores) : List (Option Nat) → Cores
  | [] => c
  | none :: order => playCores t (bspStep t c) order
  | some i :: order => playCores t (apStep c i) order

theorem Reached.play {t : CoreTable} {c : Cores} (h : Reached t c) (order : List (Option Nat)) :
    Reached t (playCores t c order) := by
  induction order generalizing c with
  | nil => exact h
  | cons who order ih =>
      cases who with
      | none => exact ih (.bsp h)
      | some i => exact ih (.ap i h)

def threeCores : CoreTable := ⟨3, (· == 0), fun i => some (8 * i)⟩

/-- The first AP reads its slot when the start of the second one is under way. -/
def slowReader : Cores :=
  playCores threeCores .initial
    (List.replicate 9 none ++ [some 1, some 1] ++ List.replicate 9 none ++ [some 1])

/-- Both starts go well, and the first AP waits at the slot of the second one. -/
theorem ap_startup_slow_reader :
    slowReader.status 1 = some true ∧ slowReader.ap 1 = .waiting 8 (some 2) ∧
      (∀ s, (slowReader.ap 1).slot = some s →
        s = some 1 ∨ slowReader.bsp.Past 1 ∧ ∀ k, s = some k → 1 < k) := by
  have hrun : Reached threeCores slowReader := .play .initial _
  have hstatus : slowReader.status = (Cores.initial.setStatus 1 true).status := rfl
  refine ⟨rfl, rfl, (ap_startup hrun (fun i => ?_) 1).2.2⟩
  rw [hstatus, Cores.setStatus_status]
  split <;> simp [Cores.initial]

/-- An AP that answers after its start has timed out takes the task register of the next core. -/
example : (playCores threeCores .initial
    (List.replicate (9 + 101) none ++ List.replicate 8 none ++ [some 1])).ap 1 = .tasked 16 := by
  decide +kernel

end UntitledOs.Mtask
