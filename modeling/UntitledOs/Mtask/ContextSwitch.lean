import UntitledOs.Cpu.Machine

/-!
# The context switch

The interrupt handler of `ap_periodic_switch.s` and `load_context`, instruction
by instruction.  The stores to the interrupt controller have no effect on the
processor; the segment selectors of the interrupt frame are left out.
-/

namespace UntitledOs.Mtask

open UntitledOs.Cpu Processor

/-- What the handler finds besides the processor. -/
structure SwitchEnv where
  /-- `_ts_scheduler_switch_enable_flag` -/
  enableFlag : BitVec 64
  /-- the id register of the local APIC -/
  lapicId : BitVec 32
  prevThreadsAddr : BitVec 64
  /-- `scheduler_prev_threads[i]` -/
  prevThreads : BitVec 64 → BitVec 64

/-- From the entry of `ap_periodic_switch` to the test of the flag. -/
def entryCode (env : SwitchEnv) : List Instr :=
  [.cli, .pushfq, .push .rax, .push .rbx, .push .rcx, .push .rdx, .push .rsi, .push .rdi,
    .xorSelf .rax, .xorSelf .rbx, .movImm .rbx 0xFEE000B0, .movImm .rax env.enableFlag,
    .testSelf .rax]

def leaveCode : List Instr :=
  [.pop .rdi, .pop .rsi, .pop .rdx, .pop .rcx, .pop .rbx, .pop .rax, .popfq, .sti]

/-- The thread that this processor has run. -/
def SwitchEnv.prevThread (env : SwitchEnv) : BitVec 64 :=
  env.prevThreads (env.lapicId.zeroExtend 64 >>> 24)

def findPrevCode (env : SwitchEnv) : List Instr :=
  [.xorSelf .rax, .xorSelf .rbx, .movImm .rbx 0xFEE00020, .movImm .rax (env.lapicId.zeroExtend 64),
    .shrImm .rax 24, .movImm .rbx env.prevThreadsAddr, .movImm .rbx env.prevThread, .testSelf .rbx]

def saveCode : List Instr :=
  [.peek .rax 40, .store .rbx 0 .rax, .peek .rax 32, .store .rbx 8 .rax, .addImm .rsp 56,
    .store .rbx 16 .rcx, .store .rbx 24 .rdx, .store .rbx 32 .rsi, .store .rbx 40 .rdi,
    .peek .rax 24, .store .rbx 48 .rax, .store .rbx 56 .rbp,
    .store .rbx 64 .r8, .store .rbx 72 .r9, .store .rbx 80 .r10, .store .rbx 88 .r11,
    .store .rbx 96 .r12, .store .rbx 104 .r13, .store .rbx 112 .r14, .store .rbx 120 .r15,
    .peek .rax 0, .store .rbx 128 .rax,
    .pushfq, .peek .rax 0, .popfq, .store .rbx 136 .rax,
    .getSpecial .rax .cr0, .store .rbx 144 .rax, .getSpecial .rax .cr2, .store .rbx 152 .rax,
    .getSpecial .rax .cr3, .store .rbx 160 .rax, .getSpecial .rax .cr4, .store .rbx 168 .rax,
    .getSpecial .rax .dr0, .store .rbx 176 .rax, .getSpecial .rax .dr1, .store .rbx 184 .rax,
    .getSpecial .rax .dr2, .store .rbx 192 .rax, .getSpecial .rax .dr3, .store .rbx 200 .rax,
    .getSpecial .rax .dr6, .store .rbx 208 .rax, .getSpecial .rax .dr7, .store .rbx 216 .rax,
    .fxsave .rbx, .subImm .rsp 56]

/-- `load_context`, up to its `ret` -/
def loadCode : List Instr :=
  [.peek .rax 8,
    .load .rcx .rax 16, .load .rdx .rax 24, .load .rsi .rax 32, .load .rdi .rax 40,
    .load .r8 .rax 64, .load .r9 .rax 72, .load .r10 .rax 80, .load .r11 .rax 88,
    .load .r12 .rax 96, .load .r13 .rax 104, .load .r14 .rax 112, .load .r15 .rax 120,
    .load .rbx .rax 136, .andImm .rbx 0xFFFFFFFFFFFFFDFF, .push .rbx, .popfq,
    .load .rbx .rax 144, .setSpecial .cr0 .rbx, .load .rbx .rax 152, .setSpecial .cr2 .rbx,
    .load .rbx .rax 160, .setSpecial .cr3 .rbx, .load .rbx .rax 168, .setSpecial .cr4 .rbx,
    .load .rbx .rax 176, .setSpecial .dr0 .rbx, .load .rbx .rax 184, .setSpecial .dr1 .rbx,
    .load .rbx .rax 192, .setSpecial .dr2 .rbx, .load .rbx .rax 200, .setSpecial .dr3 .rbx,
    .load .rbx .rax 208, .setSpecial .dr6 .rbx, .load .rbx .rax 216, .setSpecial .dr7 .rbx,
    .fxrstor .rax, .load .rsp .rax 48, .load .rbp .rax 56,
    .load .rbx .rax 128, .push .rbx, .load .rbx .rax 8, .load .rax .rax 0, .sti]

section Handler

variable (alu : Instr → BitVec 64 → BitVec 64) (env : SwitchEnv)

/-- The state `scheduler_advance_thread_queue` is called in, when switching is enabled. -/
def toAdvance (c : Processor) : Processor :=
  let c := run alu (findPrevCode env) (run alu (entryCode env) c)
  if c.gpr .rbx = 0 then c else run alu saveCode c

/-- `push rax`, the call of `load_context` and its return to the thread. -/
def loadContext (retAddr : BitVec 64) (c : Processor) : Processor :=
  ret (run alu loadCode ((run alu [.push .rax] c).pushed retAddr))

def leaveHandler (c : Processor) : Processor := iretq (run alu leaveCode c)

/-- The handler; `advance` is the call of `scheduler_advance_thread_queue`. -/
def apPeriodicSwitch (advance : Processor → Processor) (retAddr : BitVec 64) (c : Processor) :
    Processor :=
  if env.enableFlag = 0 then leaveHandler alu (run alu (entryCode env) c)
  else
    let c := run alu [.testSelf .rax] (advance (toAdvance alu env c))
    if c.gpr .rax = 0 then leaveHandler alu c else loadContext alu retAddr c

end Handler

/-- Where `thread.state` keeps a register. -/
def gprOffset : Gpr → Nat
  | .rax => 0 | .rbx => 8 | .rcx => 16 | .rdx => 24 | .rsi => 32 | .rdi => 40
  | .rsp => 48 | .rbp => 56 | .r8 => 64 | .r9 => 72 | .r10 => 80 | .r11 => 88
  | .r12 => 96 | .r13 => 104 | .r14 => 112 | .r15 => 120

def specialOffset : Special → Nat
  | .cr0 => 144 | .cr2 => 152 | .cr3 => 160 | .cr4 => 168
  | .dr0 => 176 | .dr1 => 184 | .dr2 => 192 | .dr3 => 200 | .dr6 => 208 | .dr7 => 216

/-- What a thread sees of the processor. -/
@[ext] structure ThreadContext where
  gpr : Gpr → BitVec 64
  rip : BitVec 64
  rflags : BitVec 64
  special : Special → BitVec 64
  fx : BitVec 4096

/-- The context saved in the thread at `th`. -/
def savedContext (c : Processor) (th : BitVec 64) : ThreadContext where
  gpr r := c.block th (gprOffset r)
  rip := c.block th 128
  rflags := c.block th 136
  special s := c.block th (specialOffset s)
  fx := c.fxBlock th

def runningContext (c : Processor) : ThreadContext := ⟨c.gpr, c.rip, c.rflags, c.special, c.fx⟩

/-- The context that was interrupted, at the entry of the handler: `rip`, `rflags` and `rsp` are on
the stack. -/
def interruptedContext (c : Processor) : ThreadContext where
  gpr r := if r = .rsp then c.stack (c.gpr .rsp + 24) else c.gpr r
  rip := c.stack (c.gpr .rsp)
  rflags := c.stack (c.gpr .rsp + 16)
  special := c.special
  fx := c.fx

variable {alu : Instr → BitVec 64 → BitVec 64} {env : SwitchEnv}

/-! ## Saving -/

/-- The handler's frame below the interrupt frame, and what is still in the registers. -/
structure Entered (c c' : Processor) : Prop where
  gpr : ∀ r, r ≠ .rax → r ≠ .rbx → r ≠ .rsp → c'.gpr r = c.gpr r
  rsp : c'.gpr .rsp = c.gpr .rsp - 56
  slots : c'.stack (c.gpr .rsp - 56) = c.gpr .rdi ∧ c'.stack (c.gpr .rsp - 48) = c.gpr .rsi ∧
    c'.stack (c.gpr .rsp - 40) = c.gpr .rdx ∧ c'.stack (c.gpr .rsp - 32) = c.gpr .rcx ∧
    c'.stack (c.gpr .rsp - 24) = c.gpr .rbx ∧ c'.stack (c.gpr .rsp - 16) = c.gpr .rax
  frame : c'.stack (c.gpr .rsp) = c.stack (c.gpr .rsp) ∧
    c'.stack (c.gpr .rsp + 16) = c.stack (c.gpr .rsp + 16) ∧
    c'.stack (c.gpr .rsp + 24) = c.stack (c.gpr .rsp + 24)
  special : ∀ s, c'.special s = c.special s
  fx : c'.fx = c.fx
  rflags : ∃ s, c'.rflags = withStatus (c.rflags &&& ~~~interruptFlag) s

theorem run_entryCode (c : Processor) : Entered c (run alu (entryCode env) c) := by
  constructor
  · intro r hax hbx hsp
    simp [entryCode, exec, pushed, setStatus, hax, hbx, hsp]
  · simp [entryCode, exec, pushed, setStatus, sub_eq_add_neg, add_assoc]
  · simp [entryCode, exec, pushed, setStatus, sub_eq_add_neg, add_assoc]
  · simp [entryCode, exec, pushed, setStatus, sub_eq_add_neg, add_assoc]
  · intro s
    simp [entryCode, exec, pushed, setStatus]
  · simp [entryCode, exec, pushed, setStatus]
  · exact ⟨_, by simp [entryCode, exec, pushed, setStatus]; rfl⟩

theorem run_findPrevCode {c c₁ : Processor} (h : Entered c c₁) :
    Entered c (run alu (findPrevCode env) c₁) ∧
      (run alu (findPrevCode env) c₁).gpr .rbx = env.prevThread := by
  refine ⟨⟨?_, ?_, ?_, ?_, ?_, ?_, ?_⟩, ?_⟩
  · intro r hax hbx hsp
    simpa [findPrevCode, exec, setStatus, hax, hbx, hsp] using h.gpr r hax hbx hsp
  · simpa [findPrevCode, exec, setStatus] using h.rsp
  · simpa [findPrevCode, exec, setStatus] using h.slots
  · simpa [findPrevCode, exec, setStatus] using h.frame
  · intro s
    simpa [findPrevCode, exec, setStatus] using h.special s
  · simpa [findPrevCode, exec, setStatus] using h.fx
  · obtain ⟨s, hs⟩ := h.rflags
    exact ⟨_, by simp [findPrevCode, exec, setStatus, hs]; rfl⟩
  · simp [findPrevCode, exec, setStatus]

/-- The runs of stores in `saveCode`. -/
theorem saveCode_eq : saveCode =
    [.peek .rax 40, .store .rbx 0 .rax, .peek .rax 32, .store .rbx 8 .rax, .addImm .rsp 56] ++
    (stores .rbx [(16, .rcx), (24, .rdx), (32, .rsi), (40, .rdi)] ++
    ([.peek .rax 24, .store .rbx 48 .rax] ++
    (stores .rbx [(56, .rbp), (64, .r8), (72, .r9), (80, .r10), (88, .r11), (96, .r12),
      (104, .r13), (112, .r14), (120, .r15)] ++
    ([.peek .rax 0, .store .rbx 128 .rax, .pushfq, .peek .rax 0, .popfq, .store .rbx 136 .rax] ++
    (specialStores .rbx .rax [(144, .cr0), (152, .cr2), (160, .cr3), (168, .cr4), (176, .dr0),
      (184, .dr1), (192, .dr2), (200, .dr3), (208, .dr6), (216, .dr7)] ++
    [.fxsave .rbx, .subImm .rsp 56]))))) := rfl

theorem run_saveCode {c c₁ : Processor} (h : Entered c c₁) (hrbx : c₁.gpr .rbx = env.prevThread) :
    savedContext (run alu saveCode c₁) env.prevThread =
      { interruptedContext c with
        rflags := withStatus (c.rflags &&& ~~~interruptFlag)
          (alu (.addImm .rsp 56) (c.gpr .rsp - 56)) } := by
  obtain ⟨s, hflags⟩ := h.rflags
  have hslots := h.slots
  have hframe := h.frame
  have hrsp := h.rsp
  simp only [sub_eq_add_neg, BitVec.reduceNeg] at hslots hrsp
  simp only [BitVec.ofNat_eq_ofNat] at hframe
  rw [saveCode_eq]
  simp only [run_append, run_stores]
  choose v hv using @run_specialStores alu .rbx .rax (by decide)
    [(144, .cr0), (152, .cr2), (160, .cr3), (168, .cr4), (176, .dr0),
      (184, .dr1), (192, .dr2), (200, .dr3), (208, .dr6), (216, .dr7)]
  rw [hv]
  refine ThreadContext.ext (funext fun r => ?_) ?_ ?_ (funext fun r => ?_) ?_
  · cases r <;>
      simp [savedContext, gprOffset, lastStore, exec, pushed, setStatus, interruptedContext, hrbx,
        hrsp, hslots, hframe, h.gpr, add_assoc]
  · simp [savedContext, lastStore, exec, pushed, setStatus, interruptedContext, hrbx, hrsp, hframe,
      add_assoc]
  · simp [savedContext, lastStore, exec, pushed, setStatus, hrbx, hrsp, hflags, sub_eq_add_neg,
      add_assoc]
  · cases r <;>
      simp [savedContext, specialOffset, lastStore, exec, pushed, setStatus, interruptedContext,
        hrbx, h.special]
  · simp [savedContext, exec, pushed, setStatus, interruptedContext, hrbx, h.fx]

/-! ## Loading -/

/-- The runs of loads in `loadCode`. -/
theorem loadCode_eq : loadCode =
    [.peek .rax 8] ++
    (loads .rax [(.rcx, 16), (.rdx, 24), (.rsi, 32), (.rdi, 40), (.r8, 64), (.r9, 72), (.r10, 80),
      (.r11, 88), (.r12, 96), (.r13, 104), (.r14, 112), (.r15, 120), (.rbx, 136)] ++
    ([.andImm .rbx 0xFFFFFFFFFFFFFDFF, .push .rbx, .popfq] ++
    (specialLoads .rax .rbx [(.cr0, 144), (.cr2, 152), (.cr3, 160), (.cr4, 168), (.dr0, 176),
      (.dr1, 184), (.dr2, 192), (.dr3, 200), (.dr6, 208), (.dr7, 216)] ++
    ([.fxrstor .rax, .load .rsp .rax 48, .load .rbp .rax 56, .load .rbx .rax 128, .push .rbx,
      .load .rbx .rax 8, .load .rax .rax 0, .sti])))) := rfl

theorem masked_or_interruptFlag (f : BitVec 64) :
    f &&& 0xFFFFFFFFFFFFFDFF#64 ||| interruptFlag = f ||| interruptFlag := by
  have hmask : (0xFFFFFFFFFFFFFDFF#64) = ~~~interruptFlag := by decide
  rw [hmask]
  ext i hi
  simp only [BitVec.getElem_and, BitVec.getElem_or, BitVec.getElem_not]
  cases f[i] <;> cases interruptFlag[i] <;> rfl

/-- A loaded thread goes on in its saved context, with interrupts enabled. -/
theorem loadContext_running (retAddr : BitVec 64) (c : Processor) :
    runningContext (loadContext alu retAddr c) =
      { savedContext c (c.gpr .rax) with
        rflags := c.block (c.gpr .rax) 136 ||| interruptFlag } := by
  obtain ⟨c₂, hc₂⟩ : ∃ c₂, c₂ = run alu [.peek .rax 8]
      ((run alu [.push .rax] c).pushed retAddr) := ⟨_, rfl⟩
  have hrax : c₂.gpr .rax = c.gpr .rax := by
    have hne : c.gpr .rsp ≠ c.gpr .rsp - 8#64 := by simp [sub_eq_add_neg]
    simp [hc₂, exec, pushed, hne]
  have hblock : ∀ b o, c₂.block b o = c.block b o := fun b o => by simp [hc₂, exec, pushed]
  have hfx : ∀ b, c₂.fxBlock b = c.fxBlock b := fun b => by simp [hc₂, exec, pushed]
  rw [loadContext, loadCode_eq, run_append, ← hc₂]
  simp only [run_append]
  rw [run_loads _ (by decide)]
  choose v hv using @run_specialLoads alu .rax .rbx (by decide)
    [(.cr0, 144), (.cr2, 152), (.cr3, 160), (.cr4, 168), (.dr0, 176),
      (.dr1, 184), (.dr2, 192), (.dr3, 200), (.dr6, 208), (.dr7, 216)]
  rw [hv]
  refine ThreadContext.ext (funext fun r => ?_) ?_ ?_ (funext fun r => ?_) ?_
  · cases r <;>
      simp [runningContext, savedContext, gprOffset, lastLoad, exec, pushed, setStatus, ret, hrax,
        hblock]
  · simp [runningContext, savedContext, lastLoad, exec, pushed, setStatus, ret, hrax, hblock]
  · simp [runningContext, lastLoad, exec, pushed, setStatus, ret, masked_or_interruptFlag, hrax,
      hblock]
  · cases r <;>
      simp [runningContext, savedContext, specialOffset, lastLoad, exec, pushed, setStatus, ret,
        hrax, hblock]
  · simp [runningContext, savedContext, lastLoad, exec, pushed, setStatus, ret, hrax, hfx]

theorem saveCode_entered {c c₁ : Processor} (h : Entered c c₁) :
    Entered c (run alu saveCode c₁) := by
  have hslots := h.slots
  have hframe := h.frame
  have hrsp := h.rsp
  simp only [sub_eq_add_neg, BitVec.reduceNeg] at hslots hrsp
  simp only [BitVec.ofNat_eq_ofNat] at hframe
  obtain ⟨s, hflags⟩ := h.rflags
  rw [saveCode_eq]
  simp only [run_append, run_stores]
  choose v hv using @run_specialStores alu .rbx .rax (by decide)
    [(144, .cr0), (152, .cr2), (160, .cr3), (168, .cr4), (176, .dr0),
      (184, .dr1), (192, .dr2), (200, .dr3), (208, .dr6), (216, .dr7)]
  rw [hv]
  constructor
  · intro r hax hbx hsp
    simp [exec, pushed, setStatus, hax, hsp, h.gpr r hax hbx hsp]
  · simp [exec, pushed, setStatus, hrsp, sub_eq_add_neg, add_assoc]
  · simp [exec, pushed, setStatus, hrsp, hslots, sub_eq_add_neg, add_assoc]
  · simp [exec, pushed, setStatus, hrsp, hframe, sub_eq_add_neg, add_assoc]
  · intro r
    simp [exec, pushed, setStatus, h.special r]
  · simp [exec, pushed, setStatus, h.fx]
  · exact ⟨_, by simp [exec, pushed, setStatus, hflags]; rfl⟩

theorem toAdvance_entered (c : Processor) : Entered c (toAdvance alu env c) := by
  have h := (@run_findPrevCode alu env c _ (@run_entryCode alu env c)).1
  unfold toAdvance
  simp only []
  split
  · exact h
  · exact saveCode_entered h

theorem toAdvance_saved (c : Processor) (hth : env.prevThread ≠ 0) :
    savedContext (toAdvance alu env c) env.prevThread =
      { interruptedContext c with
        rflags := withStatus (c.rflags &&& ~~~interruptFlag)
          (alu (.addImm .rsp 56) (c.gpr .rsp - 56)) } := by
  obtain ⟨h, hrbx⟩ := @run_findPrevCode alu env c _ (@run_entryCode alu env c)
  rw [toAdvance, if_neg (by rw [hrbx]; exact hth)]
  exact run_saveCode h hrbx

/-- The contexts of the other threads are kept. -/
theorem toAdvance_other (c : Processor) {th : BitVec 64} (hth : th ≠ env.prevThread) :
    savedContext (toAdvance alu env c) th = savedContext c th := by
  obtain ⟨-, hrbx⟩ := @run_findPrevCode alu env c _ (@run_entryCode alu env c)
  have hentry := @run_block_of_noStore alu (entryCode env) (by simp [entryCode, Instr.storeBase]) c
  have hfind := @run_block_of_noStore alu (findPrevCode env)
    (by simp [findPrevCode, Instr.storeBase]) (run alu (entryCode env) c)
  have hsame : (toAdvance alu env c).block th = c.block th ∧
      (toAdvance alu env c).fxBlock th = c.fxBlock th := by
    rw [← hentry.1, ← hentry.2, ← hfind.1, ← hfind.2, toAdvance]
    split
    · exact ⟨rfl, rfl⟩
    · exact run_block_other (b := .rbx) (by decide) (by decide) (by rwa [hrbx])
  simp only [savedContext, hsame.1, hsame.2]

/-- A thread that was interrupted in `c` and is chosen again at an interrupt in `c'`, on any
processor, goes on as it was interrupted, but for the flags: these are the handler's own. -/
theorem thread_resumes {env' : SwitchEnv} {advance : Processor → Processor} {retAddr : BitVec 64}
    (c c' : Processor) (hth : env.prevThread ≠ 0) (henabled : env'.enableFlag ≠ 0)
    (hchosen : (advance (toAdvance alu env' c')).gpr .rax = env.prevThread)
    (hkept : savedContext (advance (toAdvance alu env' c')) env.prevThread =
      savedContext (toAdvance alu env c) env.prevThread) :
    runningContext (apPeriodicSwitch alu env' advance retAddr c') =
      { interruptedContext c with
        rflags := withStatus (c.rflags &&& ~~~interruptFlag)
          (alu (.addImm .rsp 56) (c.gpr .rsp - 56)) ||| interruptFlag } := by
  have hsaved := hkept.trans (toAdvance_saved c hth)
  unfold apPeriodicSwitch
  rw [if_neg henabled]
  generalize advance (toAdvance alu env' c') = d at hchosen hsaved
  have htest : savedContext (run alu [.testSelf .rax] d) env.prevThread =
      savedContext d env.prevThread := by
    simp [savedContext, exec, setStatus]
  have hrax : (run alu [.testSelf .rax] d).gpr .rax = env.prevThread := by
    simp [exec, setStatus, hchosen]
  simp only []
  rw [if_neg (by rw [hrax]; exact hth), loadContext_running, hrax, htest, hsaved]
  refine ThreadContext.ext rfl rfl ?_ rfl rfl
  exact congrArg (· ||| interruptFlag) (congrArg ThreadContext.rflags (htest.trans hsaved))

/-- A processor with all registers clear, and the thread at `0x1000` running on it. -/
def clearProcessor : Processor where
  gpr _ := 0
  special _ := 0
  rflags := 2
  rip := 0
  fx := 0
  stack _ := 0
  block _ _ := 0
  fxBlock _ := 0

def oneThread : SwitchEnv := ⟨1, 0, 0, fun _ => 0x1000⟩

/-- The processor in use: every register holds something else. -/
def busyProcessor : Processor :=
  { clearProcessor with
    gpr := fun r => 0x8000 + BitVec.ofNat 64 (gprOffset r)
    rip := 0x400000
    fx := 7 }

/-- Another processor, with the thread at `0x2000` running on it. -/
def otherThread : SwitchEnv := ⟨1, 0x1000000, 0, fun _ => 0x2000⟩

/-- Its memory after the first thread was interrupted. -/
def otherProcessor : Processor :=
  { clearProcessor with
    block := (toAdvance (fun _ _ => 0) oneThread busyProcessor).block
    fxBlock := (toAdvance (fun _ _ => 0) oneThread busyProcessor).fxBlock }

/-- A scheduler that chooses the thread at `th` and leaves zeros in what it need not save. -/
def chooses (th : BitVec 64) (c : Processor) : Processor :=
  { c with
    gpr := fun r => if r = .rax then th else
      if r ∈ [Gpr.rcx, .rdx, .rsi, .rdi, .r8, .r9, .r10, .r11] then 0 else c.gpr r
    fx := 0 }

@[simp] theorem savedContext_chooses (th x : BitVec 64) (c : Processor) :
    savedContext (chooses th c) x = savedContext c x := rfl

theorem savedContext_otherProcessor (th : BitVec 64) :
    savedContext otherProcessor th =
      savedContext (toAdvance (fun _ _ => 0) oneThread busyProcessor) th := rfl

/-- The thread goes on where the thread at `0x2000` is interrupted. -/
theorem thread_resumes_elsewhere :
    runningContext (apPeriodicSwitch (fun _ _ => 0) otherThread (chooses 0x1000) 0
        otherProcessor) =
      { interruptedContext busyProcessor with
        rflags := withStatus (2 &&& ~~~interruptFlag) 0 ||| interruptFlag } := by
  refine thread_resumes busyProcessor otherProcessor (show oneThread.prevThread ≠ 0 by decide)
    (by decide) rfl ?_
  rw [savedContext_chooses, ← savedContext_otherProcessor]
  exact toAdvance_other otherProcessor (by decide)

/-! ## No switch -/

/-- What a C function leaves alone: the registers it must save and the stack of its caller. -/
structure CalleeSaved (c c' : Processor) : Prop where
  gpr : ∀ r ∈ [Gpr.rsp, .rbp, .r12, .r13, .r14, .r15], c'.gpr r = c.gpr r
  special : ∀ s, c'.special s = c.special s
  stack : ∀ k < 11, c'.stack (slot (c.gpr .rsp) k) = c.stack (slot (c.gpr .rsp) k)

/-- The way out: what was pushed at the entry, the interrupt frame and the other registers. -/
theorem leaveHandler_running {c c₁ : Processor} (hrsp : c₁.gpr .rsp = c.gpr .rsp - 56)
    (hslots : c₁.stack (c.gpr .rsp - 56) = c.gpr .rdi ∧ c₁.stack (c.gpr .rsp - 48) = c.gpr .rsi ∧
      c₁.stack (c.gpr .rsp - 40) = c.gpr .rdx ∧ c₁.stack (c.gpr .rsp - 32) = c.gpr .rcx ∧
      c₁.stack (c.gpr .rsp - 24) = c.gpr .rbx ∧ c₁.stack (c.gpr .rsp - 16) = c.gpr .rax)
    (hframe : c₁.stack (c.gpr .rsp) = c.stack (c.gpr .rsp) ∧
      c₁.stack (c.gpr .rsp + 16) = c.stack (c.gpr .rsp + 16) ∧
      c₁.stack (c.gpr .rsp + 24) = c.stack (c.gpr .rsp + 24)) :
    runningContext (leaveHandler alu c₁) =
      { interruptedContext c with
        gpr := fun r =>
          if r ∈ [Gpr.rbp, .r8, .r9, .r10, .r11, .r12, .r13, .r14, .r15] then c₁.gpr r
          else (interruptedContext c).gpr r
        special := c₁.special
        fx := c₁.fx } := by
  simp only [sub_eq_add_neg, BitVec.reduceNeg] at hslots hrsp
  simp only [BitVec.ofNat_eq_ofNat] at hframe
  obtain ⟨c₂, hc₂⟩ : ∃ c₂, c₂ = run alu (pops [.rdi, .rsi, .rdx, .rcx, .rbx, .rax]) c₁ := ⟨_, rfl⟩
  have hleave : leaveHandler alu c₁ = iretq (run alu [.popfq, .sti] c₂) := by
    rw [hc₂]
    rfl
  have hsp : c₂.gpr .rsp = c.gpr .rsp + 18446744073709551608#64 := by
    rw [hc₂, run_pops _ (by decide)]
    simp [slot, hrsp, add_assoc]
  have hstack : ∀ a, c₂.stack a = c₁.stack a := by
    intro a
    rw [hc₂, run_pops _ (by decide)]
    simp
  have hgpr : ∀ r, r ≠ .rsp → c₂.gpr r =
      if r ∈ [Gpr.rbp, .r8, .r9, .r10, .r11, .r12, .r13, .r14, .r15] then c₁.gpr r
      else c.gpr r := by
    intro r hr
    rw [hc₂, run_pops _ (by decide)]
    cases r <;> simp [lastPop, slot, hrsp, hslots, add_assoc] at hr ⊢
  have hspecial : ∀ s, c₂.special s = c₁.special s := by
    intro s
    rw [hc₂, run_pops _ (by decide)]
    simp
  have hfx : c₂.fx = c₁.fx := by
    rw [hc₂, run_pops _ (by decide)]
    simp
  rw [hleave]
  refine ThreadContext.ext (funext fun r => ?_) ?_ ?_ (funext fun r => ?_) ?_
  · by_cases hr : r = .rsp
    · simp [runningContext, exec, iretq, interruptedContext, hsp, hstack, hframe, hr, add_assoc]
    · simp [runningContext, exec, iretq, interruptedContext, hgpr r hr, hr]
  · simp [runningContext, exec, iretq, interruptedContext, hsp, hstack, hframe, add_assoc]
  · simp [runningContext, exec, iretq, interruptedContext, hsp, hstack, hframe, add_assoc]
  · simp [runningContext, exec, iretq, hspecial]
  · simp [runningContext, exec, iretq, hfx]

/-- An interrupt at which no thread is chosen is transparent, but for what the C function leaves in
the registers that the handler does not save. -/
theorem interrupt_transparent {advance : Processor → Processor} {retAddr : BitVec 64}
    (c : Processor) (hnone : env.enableFlag ≠ 0 →
      (advance (toAdvance alu env c)).gpr .rax = 0 ∧
        CalleeSaved (toAdvance alu env c) (advance (toAdvance alu env c))) :
    runningContext (apPeriodicSwitch alu env advance retAddr c) =
      if env.enableFlag = 0 then interruptedContext c
      else { interruptedContext c with
        gpr := fun r =>
          if r ∈ [Gpr.r8, .r9, .r10, .r11] then (advance (toAdvance alu env c)).gpr r
          else (interruptedContext c).gpr r
        fx := (advance (toAdvance alu env c)).fx } := by
  unfold apPeriodicSwitch
  by_cases hflag : env.enableFlag = 0
  · have h := @run_entryCode alu env c
    rw [if_pos hflag, if_pos hflag, leaveHandler_running h.rsp h.slots h.frame]
    refine ThreadContext.ext (funext fun r => ?_) rfl rfl (funext h.special) h.fx
    simp only [interruptedContext]
    split
    · rename_i hr
      have hne : r ≠ .rax ∧ r ≠ .rbx ∧ r ≠ .rsp := by
        refine ⟨?_, ?_, ?_⟩ <;> rintro rfl <;> simp at hr
      rw [if_neg hne.2.2, h.gpr r hne.1 hne.2.1 hne.2.2]
    · rfl
  · rw [if_neg hflag, if_neg hflag]
    obtain ⟨hrax, hsaved⟩ := hnone hflag
    have h := @toAdvance_entered alu env c
    generalize toAdvance alu env c = c₁ at *
    generalize advance c₁ = d at *
    obtain ⟨d', hd'⟩ : ∃ d', d' = run alu [.testSelf .rax] d := ⟨_, rfl⟩
    have hgpr : ∀ r, d'.gpr r = d.gpr r := fun r => by simp [hd', exec, setStatus]
    have hstack : ∀ a, d'.stack a = d.stack a := fun a => by simp [hd', exec, setStatus]
    have hslot : ∀ k < 11, d'.stack (slot (c.gpr .rsp - 56) k) =
        c₁.stack (slot (c.gpr .rsp - 56) k) := by
      intro k hk
      rw [hstack, ← h.rsp]
      exact hsaved.stack k hk
    have hat : ∀ k < 11, ∀ a, slot (c.gpr .rsp - 56) k = a → d'.stack a = c₁.stack a :=
      fun k hk a ha => ha ▸ hslot k hk
    have hrsp : d'.gpr .rsp = c.gpr .rsp - 56 := by
      rw [hgpr, hsaved.gpr .rsp (by decide), h.rsp]
    have hslots : d'.stack (c.gpr .rsp - 56) = c.gpr .rdi ∧
        d'.stack (c.gpr .rsp - 48) = c.gpr .rsi ∧ d'.stack (c.gpr .rsp - 40) = c.gpr .rdx ∧
        d'.stack (c.gpr .rsp - 32) = c.gpr .rcx ∧ d'.stack (c.gpr .rsp - 24) = c.gpr .rbx ∧
        d'.stack (c.gpr .rsp - 16) = c.gpr .rax := by
      obtain ⟨h0, h1, h2, h3, h4, h5⟩ := h.slots
      refine ⟨(hat 0 (by decide) _ ?_).trans h0, (hat 1 (by decide) _ ?_).trans h1,
        (hat 2 (by decide) _ ?_).trans h2, (hat 3 (by decide) _ ?_).trans h3,
        (hat 4 (by decide) _ ?_).trans h4, (hat 5 (by decide) _ ?_).trans h5⟩ <;>
        simp [slot, sub_eq_add_neg, add_assoc]
    have hframe : d'.stack (c.gpr .rsp) = c.stack (c.gpr .rsp) ∧
        d'.stack (c.gpr .rsp + 16) = c.stack (c.gpr .rsp + 16) ∧
        d'.stack (c.gpr .rsp + 24) = c.stack (c.gpr .rsp + 24) := by
      obtain ⟨h0, h1, h2⟩ := h.frame
      refine ⟨(hat 7 (by decide) _ ?_).trans h0, (hat 9 (by decide) _ ?_).trans h1,
        (hat 10 (by decide) _ ?_).trans h2⟩ <;>
        simp [slot, sub_eq_add_neg, add_assoc]
    have hkept : ∀ r ∈ [Gpr.rsp, .rbp, .r12, .r13, .r14, .r15], r ≠ .rsp →
        d'.gpr r = c.gpr r := by
      intro r hr hsp
      rw [hgpr, hsaved.gpr r hr]
      exact h.gpr r (by rintro rfl; simp at hr) (by rintro rfl; simp at hr) hsp
    have hspecial : ∀ s, d'.special s = c.special s := fun s => by
      rw [← h.special s, ← hsaved.special s]
      simp [hd', exec, setStatus]
    have hfx : d'.fx = d.fx := by simp [hd', exec, setStatus]
    simp only [← hd']
    rw [if_pos (by rw [hgpr, hrax]), leaveHandler_running hrsp hslots hframe]
    refine ThreadContext.ext (funext fun r => ?_) rfl rfl (funext hspecial) hfx
    by_cases hr : r ∈ [Gpr.rbp, .r12, .r13, .r14, .r15]
    · have hk := hkept r (by simp only [List.mem_cons] at hr ⊢; exact .inr hr)
        (by rintro rfl; simp at hr)
      cases r <;> simp [interruptedContext] at hr hk ⊢ <;> exact hk
    · cases r <;> simp [interruptedContext, hgpr] at hr ⊢

theorem calleeSaved_chooses (c : Processor) (th : BitVec 64) : CalleeSaved c (chooses th c) where
  gpr r hr := by cases r <;> simp [chooses] at hr ⊢
  special _ := rfl
  stack _ _ := rfl

/-- A scheduler that chooses none: only what the handler does not save is lost. -/
theorem interrupt_transparent_idle :
    runningContext (apPeriodicSwitch (fun _ _ => 0) oneThread (chooses 0) 0 busyProcessor) =
      { interruptedContext busyProcessor with
        gpr := fun r => if r ∈ [Gpr.r8, .r9, .r10, .r11] then 0
          else (interruptedContext busyProcessor).gpr r
        fx := 0 } := by
  rw [interrupt_transparent busyProcessor fun _ => ⟨rfl, calleeSaved_chooses _ 0⟩,
    if_neg (by decide : oneThread.enableFlag ≠ 0)]
  refine ThreadContext.ext (funext fun r => ?_) rfl rfl rfl rfl
  cases r <;> rfl

end UntitledOs.Mtask
