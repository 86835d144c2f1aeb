import Bispe.Backend.Machine

/-!
# Invocations of the interpreter

The part of `bispe_main.c` and `bispe_interpreter.c` that decides what an
invocation runs on: the size checks of `invoke_interpreter`, the segment sizes
`create_runtime_ctx` computes, and the loop of `start_interpreter` that repeats
instruction cycles until the halt flag is set.

## Main definitions

* `InvokeCtx.Accepted` — the checks of `invoke_interpreter`.
* `createRuntimeCtx` — segments, sizes and defaults.
* `startState` — the state when the first cycle begins.
* `Reach` — the states of an invocation, over any number of cycles.
* `startInterpreter` — the loop itself.
-/

namespace Bispe

open Effect

/-- `struct invoke_ctx`: settings and buffer sizes, as passed by the front end. -/
structure InvokeCtx where
  stackSize : BitVec 32
  callSize : BitVec 32
  ipc : BitVec 32
  codeBufSize : BitVec 64
  argBufSize : BitVec 64
  outBufSize : BitVec 64

/-- The format checks of `invoke_interpreter`. -/
def InvokeCtx.Accepted (inv : InvokeCtx) : Prop :=
  inv.outBufSize.toNat % 4 = 0 ∧ inv.codeBufSize.toNat % 16 = 0

instance (inv : InvokeCtx) : Decidable inv.Accepted := by
  unfold InvokeCtx.Accepted; infer_instance

/-- The buffers `amalloc` returns, aligned to 128 bytes, and the copied arguments. -/
structure Buffers where
  codeBuf : ℤ
  stackBuf : ℤ
  callBuf : ℤ
  printBuf : ℤ
  argv : ℕ → Word
  code_al : 128 ∣ codeBuf
  stack_al : 128 ∣ stackBuf
  call_al : 128 ∣ callBuf
  print_al : 128 ∣ printBuf

/-- `DEFAULT_STACK_SIZE`, `DEFAULT_CALL_SIZE` and `DEFAULT_PRINT_SIZE`. -/
def defaultSize : ℕ := 20

/-- `DEFAULT_INSTR_PER_CYCLE`. -/
def defaultInstrPerCycle : ℕ := 2000

/-- Zero selects the default. -/
def orDefault (given dflt : ℕ) : ℕ := if 0 < given then given else dflt

/-- The bytes a build with `ENCRYPTION` keeps before a segment. -/
def Build.ivSize : Build → ℕ
  | none => 0
  | some _ => 16

/-- `create_runtime_ctx`.  Stack sizes are given in lines; the code buffer starts
with its init vector, which the code segment leaves out.  The subtraction from
the code size is one of `size_t`. -/
def createRuntimeCtx (b : Build) (inv : InvokeCtx) (buf : Buffers) : Ctx where
  codeSegBp := buf.codeBuf + b.ivSize
  stackSegBp := buf.stackBuf + b.ivSize
  callSegBp := buf.callBuf + b.ivSize
  printSegBp := buf.printBuf
  codeSegSize := (inv.codeBufSize - BitVec.ofNat 64 b.ivSize).toNat
  stackSegSize := orDefault inv.stackSize.toNat defaultSize * 16
  callSegSize := orDefault inv.callSize.toNat defaultSize * 16
  printSegSize := orDefault inv.outBufSize.toNat defaultSize
  argc := inv.argBufSize.toNat / 4
  argv := buf.argv
  instrPerCycle := orDefault inv.ipc.toNat defaultInstrPerCycle

theorem orDefault_pos (given : ℕ) {dflt : ℕ} (h : 0 < dflt) : 0 < orDefault given dflt := by
  unfold orDefault; split <;> assumption

/-! ## Runs -/

section Runs
variable (b : Build) (ctx : Ctx)

/-- The state pointers are set to the start of their segments, and the flags are
reset.  Registers and segment contents are what they were. -/
def startState (s : St) : St :=
  { s with
    instrPtr := ctx.codeSegBp, stackPtr := ctx.stackSegBp, callPtr := ctx.callSegBp
    printPtr := ctx.printSegBp, haltFlag := false, errorCode := 0, log := [] }

/-- Where a run is: before a cycle, in the dispatch loop, or at the outro. -/
inductive Phase
  | idle
  | dispatch
  | outro
  deriving DecidableEq, Repr

/-- What a phase does before the next one begins. -/
def phaseStep : Phase → M Phase
  | .idle => do
      bispeCycleEntry b ctx
      pure .dispatch
  | .dispatch => do
      match ← dispatch (macros b ctx) with
      | .next => pure .dispatch
      | _ => pure .outro
  | .outro => do
      bispeCycleOutro b
      pure .idle

/-- The registers a cycle has to preserve for its caller. -/
structure CalleeRegs where
  r12 : ℤ
  r13 : ℤ
  r14 : ℤ

/-- `bispe_clear_regs`, after `restore_callee_regs`: `r12`, `r13` and `r14` hold
values of the caller again, all other registers are zero. -/
def clearRegs (regs : CalleeRegs) (s : St) : St :=
  { s with
    instrCnt := 0, curInstrPtr := 0
    curStackPtr := regs.r12, curCallPtr := regs.r13, curCallLine := regs.r14
    rinstrLine := fun _ => 0, rstackLine := fun _ => 0, rcallLine := fun _ => 0 }

/-- The phase can go on: the halt flag is looked at between two cycles. -/
def Phase.Live (ph : Phase) (s : St) : Prop := ph = .idle → s.haltFlag = false

/-- The states of an invocation that starts from `s₀`, at the phase boundaries.
A cycle that reaches an error label returns at once. -/
inductive Reach (s₀ : St) : Phase → St → Prop
  | start : Reach s₀ .idle (startState ctx s₀)
  | step {ph ph' : Phase} {s s' : St} : Reach s₀ ph s → ph.Live s →
      phaseStep b ctx ph s = .ok ph' s' → Reach s₀ ph' s'
  | stop {ph : Phase} {s s' : St} {e : Err} : Reach s₀ ph s → ph.Live s →
      phaseStep b ctx ph s = .error (.error e) s' → Reach s₀ .idle s'
  | clear {s : St} (regs : CalleeRegs) : Reach s₀ .idle s → Reach s₀ .idle (clearRegs regs s)

/-- What happens in a phase: back in the caller the registers are cleared. -/
def nextPhase (regs : CalleeRegs) (c : Phase × St) : Phase × St :=
  match phaseStep b ctx c.1 c.2 with
  | .ok .idle s => (.idle, clearRegs regs s)
  | .ok ph s => (ph, s)
  | .error (.error _) s => (.idle, clearRegs regs s)
  | .error .hang _ => c

/-- The run is over: the halt flag is set after a cycle. -/
def Halted (c : Phase × St) : Prop := c.1 = .idle ∧ c.2.haltFlag = true

instance (c : Phase × St) : Decidable (Halted c) := by unfold Halted; infer_instance

/-- The first `n` phases of `start_interpreter`: entry, instructions and outro,
repeated until the halt flag is set. -/
def startInterpreter (regs : CalleeRegs) : ℕ → Phase × St → Phase × St
  | 0, c => c
  | n + 1, c => if Halted c then c else startInterpreter regs n (nextPhase b ctx regs c)

/-- The first `n` phases of an invocation that finds memory and registers as in `s`. -/
def invocation (regs : CalleeRegs) (s : St) (n : ℕ) : Phase × St :=
  startInterpreter b ctx regs n (.idle, startState ctx s)

/-- The states of the loop are reachable states. -/
theorem Reach.startInterpreter {s₀ : St} {regs : CalleeRegs} (n : ℕ) {c : Phase × St}
    (h : Reach b ctx s₀ c.1 c.2) :
    Reach b ctx s₀ (startInterpreter b ctx regs n c).1 (startInterpreter b ctx regs n c).2 := by
  induction n generalizing c with
  | zero => exact h
  | succ n ih =>
      rw [Bispe.startInterpreter]
      split
      · exact h
      · next hhalt =>
        have hlive : c.1.Live c.2 := fun hidle => by simpa [Halted, hidle] using hhalt
        refine ih ?_
        unfold nextPhase
        split
        · next hrun => exact .clear regs (h.step hlive hrun)
        · next hrun => exact h.step hlive hrun
        · next hrun => exact .clear regs (h.stop hlive hrun)
        · exact h

theorem Reach.invocation (regs : CalleeRegs) (s : St) (n : ℕ) :
    Reach b ctx s (invocation b ctx regs s n).1 (invocation b ctx regs s n).2 :=
  .startInterpreter b ctx n .start

end Runs

/-! ## A small invocation -/

/-- A cipher that mixes one key word into every word of a line. -/
def keyCipher (key : Word) : Cipher where
  encblk x := fun i => x i ^^^ key
  decblk x := fun i => x i ^^^ key

/-- A code buffer of `size` bytes, and one line for each stack. -/
def smallInvoke (size : BitVec 64) : InvokeCtx where
  stackSize := 1
  callSize := 1
  ipc := 0
  codeBufSize := size
  argBufSize := 0
  outBufSize := 16

def smallBuffers : Buffers where
  codeBuf := 0
  stackBuf := 128
  callBuf := 256
  printBuf := 384
  argv := fun _ => 0
  code_al := by decide
  stack_al := by decide
  call_al := by decide
  print_al := by decide

def smallCtx (size : BitVec 64) : Ctx :=
  createRuntimeCtx (some (keyCipher 5)) (smallInvoke size) smallBuffers

theorem keyCipher_inverts (key : Word) (x : Line) :
    (keyCipher key).decblk ((keyCipher key).encblk x) = x := by
  funext i
  change x i ^^^ key ^^^ key = x i
  rw [BitVec.xor_assoc, BitVec.xor_self, BitVec.xor_zero]

/-- Memory in which the first two lines of code decrypt to `NOP`s. -/
def nopState : St where
  instrCnt := 0
  curInstrPtr := 0
  curStackPtr := 0
  curCallPtr := 0
  curCallLine := 0
  rinstrLine := fun _ => 0
  rstackLine := fun _ => 0
  rcallLine := fun _ => 0
  instrPtr := 0
  stackPtr := 0
  callPtr := 0
  printPtr := 0
  haltFlag := false
  errorCode := 0
  mem := fun a => if 16 ≤ a ∧ a < 32 then 5 else 0
  log := []

/-- Memory in which the first line of code decrypts to `PUSH 7`, `PRINT`, `FINISH`. -/
def printState : St :=
  { nopState with
    mem := fun a => if a = 16 then 7 else if a = 20 then 2 else if a = 24 then 6
      else if a = 28 then 4 else 0 }

end Bispe
