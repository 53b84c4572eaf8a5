import Mathlib.Data.BitVec
import Mathlib.Tactic.Simps.Basic

/-!
# Straight-line machine code

The instructions that `ap_periodic_switch.s` is made of, on the registers of one
x86-64 processor.  Memory is in two parts that are taken not to overlap: the
quad words of the stacks, by address, and the blocks that contexts are saved in,
by address and offset.

The status bits of an arithmetic instruction are a parameter, `alu`.
-/

namespace UntitledOs.Cpu

inductive Gpr
  | rax | rbx | rcx | rdx | rsi | rdi | rsp | rbp
  | r8 | r9 | r10 | r11 | r12 | r13 | r14 | r15
  deriving DecidableEq, Repr

/-- The control and debug registers. -/
inductive Special
  | cr0 | cr2 | cr3 | cr4 | dr0 | dr1 | dr2 | dr3 | dr6 | dr7
  deriving DecidableEq, Repr

structure Processor where
  gpr : Gpr → BitVec 64
  special : Special → BitVec 64
  rflags : BitVec 64
  rip : BitVec 64
  /-- what `fxsave` stores: 512 bytes -/
  fx : BitVec 4096
  stack : BitVec 64 → BitVec 64
  block : BitVec 64 → Nat → BitVec 64
  fxBlock : BitVec 64 → BitVec 4096

inductive Instr
  | movImm (d : Gpr) (v : BitVec 64)
  | xorSelf (d : Gpr)
  | testSelf (d : Gpr)
  | shrImm (d : Gpr) (n : Nat)
  | addImm (d : Gpr) (v : BitVec 64)
  | subImm (d : Gpr) (v : BitVec 64)
  | andImm (d : Gpr) (v : BitVec 64)
  /-- `mov d, [b+off]` of a block -/
  | load (d b : Gpr) (off : Nat)
  /-- `mov [b+off], s` of a block -/
  | store (b : Gpr) (off : Nat) (s : Gpr)
  /-- `mov d, [rsp+off]` -/
  | peek (d : Gpr) (off : BitVec 64)
  | push (s : Gpr)
  | pop (d : Gpr)
  | pushfq
  | popfq
  | getSpecial (d : Gpr) (s : Special)
  | setSpecial (d : Special) (s : Gpr)
  | fxsave (b : Gpr)
  | fxrstor (b : Gpr)
  | cli
  | sti
  deriving DecidableEq

/-- The register that an instruction sets, other than the stack pointer. -/
def Instr.dest : Instr → Option Gpr
  | .movImm d _ | .xorSelf d | .shrImm d _ | .addImm d _ | .subImm d _ | .andImm d _ => some d
  | .load d _ _ | .peek d _ | .pop d | .getSpecial d _ => some d
  | _ => none

/-- The register whose block an instruction writes. -/
def Instr.storeBase : Instr → Option Gpr
  | .store b _ _ | .fxsave b => some b
  | _ => none

/-- CF, PF, AF, ZF, SF and OF. -/
def statusMask : BitVec 64 := 0x8D5

def interruptFlag : BitVec 64 := 0x200

namespace Processor

@[simps] def set (c : Processor) (r : Gpr) (v : BitVec 64) : Processor :=
  { c with gpr := fun x => if x = r then v else c.gpr x }

@[simps] def poke (c : Processor) (a v : BitVec 64) : Processor :=
  { c with stack := fun x => if x = a then v else c.stack x }

@[simps] def setFlags (c : Processor) (f : BitVec 64) : Processor := { c with rflags := f }

@[simps] def setBlock (c : Processor) (b : BitVec 64) (off : Nat) (v : BitVec 64) : Processor :=
  { c with block := fun x o => if x = b ∧ o = off then v else c.block x o }

@[simps] def setReg (c : Processor) (s : Special) (v : BitVec 64) : Processor :=
  { c with special := fun x => if x = s then v else c.special x }

@[simps] def withGpr (c : Processor) (f : Gpr → BitVec 64) : Processor := { c with gpr := f }

@[simps] def withSpecial (c : Processor) (f : Special → BitVec 64) : Processor :=
  { c with special := f }

@[simps] def withBlock (c : Processor) (f : BitVec 64 → Nat → BitVec 64) : Processor :=
  { c with block := f }

@[simps] def setFx (c : Processor) (v : BitVec 4096) : Processor := { c with fx := v }

@[simps] def setFxBlock (c : Processor) (b : BitVec 64) (v : BitVec 4096) : Processor :=
  { c with fxBlock := fun x => if x = b then v else c.fxBlock x }

@[simps] def setRip (c : Processor) (v : BitVec 64) : Processor := { c with rip := v }

/-- The flags after an arithmetic instruction. -/
def withStatus (f s : BitVec 64) : BitVec 64 := (f &&& ~~~statusMask) ||| (s &&& statusMask)

def setStatus (c : Processor) (s : BitVec 64) : Processor := c.setFlags (withStatus c.rflags s)

def pushed (c : Processor) (v : BitVec 64) : Processor :=
  (c.set .rsp (c.gpr .rsp - 8)).poke (c.gpr .rsp - 8) v

/-- One instruction. -/
def exec (alu : Instr → BitVec 64 → BitVec 64) (c : Processor) (i : Instr) : Processor :=
  match i with
  | .movImm d v => c.set d v
  | .xorSelf d => (c.set d 0).setStatus (alu i (c.gpr d))
  | .testSelf d => c.setStatus (alu i (c.gpr d))
  | .shrImm d n => (c.set d (c.gpr d >>> n)).setStatus (alu i (c.gpr d))
  | .addImm d v => (c.set d (c.gpr d + v)).setStatus (alu i (c.gpr d))
  | .subImm d v => (c.set d (c.gpr d - v)).setStatus (alu i (c.gpr d))
  | .andImm d v => (c.set d (c.gpr d &&& v)).setStatus (alu i (c.gpr d))
  | .load d b off => c.set d (c.block (c.gpr b) off)
  | .store b off s => c.setBlock (c.gpr b) off (c.gpr s)
  | .peek d off => c.set d (c.stack (c.gpr .rsp + off))
  | .push s => c.pushed (c.gpr s)
  | .pop d => (c.set .rsp (c.gpr .rsp + 8)).set d (c.stack (c.gpr .rsp))
  | .pushfq => c.pushed c.rflags
  | .popfq => (c.set .rsp (c.gpr .rsp + 8)).setFlags (c.stack (c.gpr .rsp))
  | .getSpecial d s => c.set d (c.special s)
  | .setSpecial d s => c.setReg d (c.gpr s)
  | .fxsave b => c.setFxBlock (c.gpr b) c.fx
  | .fxrstor b => c.setFx (c.fxBlock (c.gpr b))
  | .cli => c.setFlags (c.rflags &&& ~~~interruptFlag)
  | .sti => c.setFlags (c.rflags ||| interruptFlag)

def run (alu : Instr → BitVec 64 → BitVec 64) (code : List Instr) (c : Processor) : Processor :=
  code.foldl (exec alu) c

/-- `ret` -/
def ret (c : Processor) : Processor :=
  (c.set .rsp (c.gpr .rsp + 8)).setRip (c.stack (c.gpr .rsp))

/-- `iretq`; the segment selectors of the frame are left out. -/
def iretq (c : Processor) : Processor :=
  ((c.set .rsp (c.stack (c.gpr .rsp + 24))).setRip (c.stack (c.gpr .rsp))).setFlags
    (c.stack (c.gpr .rsp + 16))

variable {alu : Instr → BitVec 64 → BitVec 64}

@[simp] theorem run_nil (c : Processor) : run alu [] c = c := rfl

@[simp] theorem run_cons (i : Instr) (code : List Instr) (c : Processor) :
    run alu (i :: code) c = run alu code (exec alu c i) := rfl

theorem run_append (code code' : List Instr) (c : Processor) :
    run alu (code ++ code') c = run alu code' (run alu code c) :=
  List.foldl_append

/-- The last arithmetic instruction decides on the status bits. -/
@[simp] theorem withStatus_withStatus (f s s' : BitVec 64) :
    withStatus (withStatus f s) s' = withStatus f s' := by
  have hover : withStatus f s &&& ~~~statusMask = f &&& ~~~statusMask := by
    unfold withStatus
    ext i hi
    simp only [BitVec.getElem_and, BitVec.getElem_or, BitVec.getElem_not]
    cases f[i] <;> cases s[i] <;> cases statusMask[i] <;> rfl
  unfold withStatus at hover ⊢
  rw [hover]

/-! ## Runs of one kind of instruction -/

/-- The register whose store to `off` is the last one. -/
def lastStore {α : Type} : List (Nat × α) → Nat → Option α
  | [], _ => none
  | (o, r) :: l, off => (lastStore l off).or (if off = o then some r else none)

def stores (b : Gpr) (l : List (Nat × Gpr)) : List Instr := l.map fun p => .store b p.1 p.2

theorem run_stores (b : Gpr) (l : List (Nat × Gpr)) (c : Processor) :
    run alu (stores b l) c = c.withBlock fun x o =>
      if x = c.gpr b then ((lastStore l o).map c.gpr).getD (c.block x o) else c.block x o := by
  induction l generalizing c with
  | nil => simp [stores, lastStore, withBlock]
  | cons p l ih =>
      have hrest : run alu (stores b (p :: l)) c =
          run alu (stores b l) (c.setBlock (c.gpr b) p.1 (c.gpr p.2)) := rfl
      rw [hrest, ih]
      simp only [setBlock, withBlock, Processor.mk.injEq, true_and, and_true]
      funext x o
      by_cases hx : x = c.gpr b
      · by_cases ho : o = p.1
        · cases hl : lastStore l o <;> simp [hx, ho, lastStore, ho ▸ hl]
        · cases hl : lastStore l o <;> simp [hx, ho, lastStore, hl]
      · simp [hx]

theorem exec_block {i : Instr} {c : Processor} {x : BitVec 64}
    (h : ∀ b ∈ i.storeBase, x ≠ c.gpr b) :
    (exec alu c i).block x = c.block x ∧ (exec alu c i).fxBlock x = c.fxBlock x := by
  refine ⟨funext fun o => ?_, ?_⟩ <;> cases i with
  | store b off s =>
      have hne : x ≠ c.gpr b := h b rfl
      simp [exec, hne]
  | fxsave b =>
      have hne : x ≠ c.gpr b := h b rfl
      simp [exec, hne]
  | _ => simp [exec, pushed, setStatus]

theorem exec_gpr {i : Instr} {c : Processor} {b : Gpr} (hsp : b ≠ .rsp) (hdest : i.dest ≠ some b) :
    (exec alu c i).gpr b = c.gpr b := by
  cases i <;> simp_all [exec, pushed, setStatus, Instr.dest, eq_comm]

/-- Code that stores through `b` only, and keeps `b`, writes no other block than that of `b`. -/
theorem run_block_other {code : List Instr} {b : Gpr} (hsp : b ≠ .rsp)
    (hcode : ∀ i ∈ code, i.dest ≠ some b ∧ ∀ b' ∈ i.storeBase, b' = b) {c : Processor}
    {x : BitVec 64} (hx : x ≠ c.gpr b) :
    (run alu code c).block x = c.block x ∧ (run alu code c).fxBlock x = c.fxBlock x := by
  induction code generalizing c with
  | nil => exact ⟨rfl, rfl⟩
  | cons i code ih =>
      obtain ⟨hi, hrest⟩ := List.forall_mem_cons.mp hcode
      have hb : (exec alu c i).gpr b = c.gpr b := exec_gpr hsp hi.1
      have hstep := @exec_block alu i c x fun b' hb' => by rwa [hi.2 b' hb']
      obtain ⟨hblock, hfx⟩ := ih hrest (by rwa [hb])
      exact ⟨hblock.trans hstep.1, hfx.trans hstep.2⟩

/-- Code without stores writes none. -/
theorem run_block_of_noStore {code : List Instr} (hcode : ∀ i ∈ code, i.storeBase = none)
    (c : Processor) :
    (run alu code c).block = c.block ∧ (run alu code c).fxBlock = c.fxBlock := by
  induction code generalizing c with
  | nil => exact ⟨rfl, rfl⟩
  | cons i code ih =>
      obtain ⟨hi, hrest⟩ := List.forall_mem_cons.mp hcode
      have hstep := fun x => @exec_block alu i c x (by simp [hi])
      obtain ⟨hblock, hfx⟩ := ih hrest (exec alu c i)
      exact ⟨hblock.trans (funext fun x => (hstep x).1), hfx.trans (funext fun x => (hstep x).2)⟩

/-- Control registers are stored by way of `d`. -/
def specialStores (b d : Gpr) (l : List (Nat × Special)) : List Instr :=
  l.flatMap fun p => [.getSpecial d p.2, .store b p.1 d]

theorem run_specialStores {b d : Gpr} (hbd : b ≠ d) (l : List (Nat × Special)) (c : Processor) :
    ∃ v, run alu (specialStores b d l) c = (c.set d v).withBlock fun x o =>
      if x = c.gpr b then ((lastStore l o).map c.special).getD (c.block x o)
      else c.block x o := by
  induction l generalizing c with
  | nil =>
      refine ⟨c.gpr d, ?_⟩
      have hself : c.set d (c.gpr d) = c := by
        unfold set
        congr
        funext x
        split
        · rename_i h
          rw [h]
        · rfl
      simp [specialStores, lastStore, hself, withBlock]
  | cons p l ih =>
      have hrest : run alu (specialStores b d (p :: l)) c = run alu (specialStores b d l)
          ((c.set d (c.special p.2)).setBlock ((c.set d (c.special p.2)).gpr b) p.1
            ((c.set d (c.special p.2)).gpr d)) := rfl
      obtain ⟨v, hv⟩ := ih ((c.set d (c.special p.2)).setBlock
        ((c.set d (c.special p.2)).gpr b) p.1 ((c.set d (c.special p.2)).gpr d))
      refine ⟨v, ?_⟩
      rw [hrest, hv]
      simp only [set, setBlock, withBlock, hbd, if_false, if_true, Processor.mk.injEq, true_and, and_true]
      constructor
      · funext x
        split <;> rfl
      · funext x o
        by_cases hx : x = c.gpr b
        · by_cases ho : o = p.1
          · cases hl : lastStore l o <;> simp [hx, ho, lastStore, ho ▸ hl]
          · cases hl : lastStore l o <;> simp [hx, ho, lastStore, hl]
        · simp [hx]

def loads (b : Gpr) (l : List (Gpr × Nat)) : List Instr := l.map fun p => .load p.1 b p.2

/-- The offset `r` is loaded from last. -/
def lastLoad {α : Type} [DecidableEq α] : List (α × Nat) → α → Option Nat
  | [], _ => none
  | (d, o) :: l, r => (lastLoad l r).or (if r = d then some o else none)

theorem run_loads {b : Gpr} (l : List (Gpr × Nat)) (hb : ∀ p ∈ l, p.1 ≠ b) (c : Processor) :
    run alu (loads b l) c =
      c.withGpr fun x => ((lastLoad l x).map (c.block (c.gpr b))).getD (c.gpr x) := by
  induction l generalizing c with
  | nil => simp [loads, lastLoad, withGpr]
  | cons p l ih =>
      have hrest : run alu (loads b (p :: l)) c =
          run alu (loads b l) (c.set p.1 (c.block (c.gpr b) p.2)) := rfl
      have hp : b ≠ p.1 := (hb p (by simp)).symm
      rw [hrest, ih (fun q hq => hb q (by simp [hq]))]
      simp only [set, withGpr, hp, if_false, Processor.mk.injEq, and_true]
      funext x
      by_cases hx : x = p.1
      · cases hl : lastLoad l x <;> simp [hx, lastLoad, hx ▸ hl]
      · cases hl : lastLoad l x <;> simp [hx, lastLoad, hl]

def specialLoads (b d : Gpr) (l : List (Special × Nat)) : List Instr :=
  l.flatMap fun p => [.load d b p.2, .setSpecial p.1 d]

theorem run_specialLoads {b d : Gpr} (hbd : b ≠ d) (l : List (Special × Nat)) (c : Processor) :
    ∃ v, run alu (specialLoads b d l) c = (c.set d v).withSpecial fun x =>
      ((lastLoad l x).map (c.block (c.gpr b))).getD (c.special x) := by
  induction l generalizing c with
  | nil =>
      refine ⟨c.gpr d, ?_⟩
      have hself : c.set d (c.gpr d) = c := by
        unfold set
        congr
        funext x
        split
        · rename_i h
          rw [h]
        · rfl
      simp [specialLoads, lastLoad, hself, withSpecial]
  | cons p l ih =>
      have hrest : run alu (specialLoads b d (p :: l)) c = run alu (specialLoads b d l)
          ((c.set d (c.block (c.gpr b) p.2)).setReg p.1
            ((c.set d (c.block (c.gpr b) p.2)).gpr d)) := rfl
      obtain ⟨v, hv⟩ := ih ((c.set d (c.block (c.gpr b) p.2)).setReg p.1
        ((c.set d (c.block (c.gpr b) p.2)).gpr d))
      refine ⟨v, ?_⟩
      rw [hrest, hv]
      simp only [set, setReg, withSpecial, hbd, if_false, if_true, Processor.mk.injEq, and_true]
      constructor
      · funext x
        split <;> rfl
      · funext x
        by_cases hx : x = p.1
        · cases hl : lastLoad l x <;> simp [hx, lastLoad, hx ▸ hl]
        · cases hl : lastLoad l x <;> simp [hx, lastLoad, hl]

def pops (l : List Gpr) : List Instr := l.map .pop

/-- The slot above `rsp` that `r` is popped from last. -/
def lastPop : List Gpr → Gpr → Option Nat
  | [], _ => none
  | d :: l, r => ((lastPop l r).map (· + 1)).or (if r = d then some 0 else none)

/-- The address of a slot above `rsp`. -/
def slot (sp : BitVec 64) (k : Nat) : BitVec 64 := sp + BitVec.ofNat 64 (8 * k)

theorem slot_succ (sp : BitVec 64) (k : Nat) : slot (sp + 8) k = slot sp (k + 1) := by
  unfold slot
  rw [BitVec.add_assoc, Nat.mul_add, Nat.add_comm (8 * k), BitVec.ofNat_add]
  rfl

theorem run_pops (l : List Gpr) (hl : .rsp ∉ l) (c : Processor) :
    run alu (pops l) c = c.withGpr fun x =>
      if x = .rsp then slot (c.gpr .rsp) l.length
      else ((lastPop l x).map fun k => c.stack (slot (c.gpr .rsp) k)).getD (c.gpr x) := by
  induction l generalizing c with
  | nil =>
      have hself : (fun x => if x = Gpr.rsp then c.gpr .rsp else c.gpr x) = c.gpr := by
        funext x
        split
        · rename_i h
          rw [h]
        · rfl
      simp [pops, lastPop, slot, withGpr, hself]
  | cons d l ih =>
      have hrest : run alu (pops (d :: l)) c = run alu (pops l)
          ((c.set .rsp (c.gpr .rsp + 8)).set d (c.stack (c.gpr .rsp))) := rfl
      have hd : Gpr.rsp ≠ d := fun e => hl (by simp [e])
      rw [hrest, ih (fun h => hl (by simp [h]))]
      simp only [set, withGpr, hd, if_false, if_true, slot_succ, Processor.mk.injEq, and_true]
      funext x
      by_cases hx : x = .rsp
      · simp [hx]
      · by_cases hxd : x = d
        · subst hxd
          cases hp : lastPop l x <;> simp [hx, lastPop, hp, slot]
        · cases hp : lastPop l x <;> simp [hx, hxd, lastPop, hp]

end Processor

end UntitledOs.Cpu
