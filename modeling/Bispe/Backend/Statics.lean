import Bispe.Backend.Printing

/-!
# What an invocation leaves behind

The interpreter runs on static variables, which an invocation finds as the one before
has left them.  `start_interpreter` sets all of them that a run looks at, so nothing of an
earlier program is seen.  `create_runtime_ctx`, which runs before, passes the sizes that
were published by the invocation before to the allocator.

## Main definitions

* `Statics` — the static variables of the interpreter.
* `publish` — what `start_interpreter` does to them before its first cycle.
* `startOn` — a run of `start_interpreter`.
* `Statics.after` — the static variables after a sequence of invocations.
* `SegmentsFit` — the segments are allocated as large as they are used.
-/

namespace Bispe

/-- The static variables of `bispe_interpreter.c` and `bispe_cycle_asm.S`. -/
structure Statics extends Ctx where
  instrPtr : ℤ
  stackPtr : ℤ
  callPtr : ℤ
  printPtr : ℤ
  haltFlag : Bool
  errorCode : ℕ

namespace Statics

/-- When the module is loaded. -/
def initial : Statics where
  codeSegBp := 0
  stackSegBp := 0
  callSegBp := 0
  printSegBp := 0
  codeSegSize := 0
  stackSegSize := 0
  callSegSize := 0
  printSegSize := 0
  argc := 0
  argv := fun _ => 0
  instrPerCycle := 0
  instrPtr := 0
  stackPtr := 0
  callPtr := 0
  printPtr := 0
  haltFlag := false
  errorCode := 0

def setInstrPtr (p : ℤ) (g : Statics) : Statics := { g with instrPtr := p }

def setStackPtr (p : ℤ) (g : Statics) : Statics := { g with stackPtr := p }

def setCallPtr (p : ℤ) (g : Statics) : Statics := { g with callPtr := p }

def setPrintPtr (p : ℤ) (g : Statics) : Statics := { g with printPtr := p }

def resetFlags (g : Statics) : Statics := { g with haltFlag := false, errorCode := 0 }

/-- The machine of `s` with the static variables `g`. -/
def enter (g : Statics) (s : St) : St :=
  { s with
    instrPtr := g.instrPtr, stackPtr := g.stackPtr, callPtr := g.callPtr, printPtr := g.printPtr
    haltFlag := g.haltFlag, errorCode := g.errorCode, log := [] }

/-- The static variables when the machine has got to `s`. -/
def leave (g : Statics) (s : St) : Statics :=
  { g with
    instrPtr := s.instrPtr, stackPtr := s.stackPtr, callPtr := s.callPtr, printPtr := s.printPtr
    haltFlag := s.haltFlag, errorCode := s.errorCode }

end Statics

/-- The assignments of `start_interpreter` before its first cycle, in their order: the
state pointers are set from the variables just published. -/
def publish (runtimeCtx : Ctx) (g : Statics) : Statics :=
  let g := { g with
    codeSegBp := runtimeCtx.codeSegBp
    stackSegBp := runtimeCtx.stackSegBp
    callSegBp := runtimeCtx.callSegBp
    printSegBp := runtimeCtx.printSegBp
    argv := runtimeCtx.argv
    codeSegSize := runtimeCtx.codeSegSize
    stackSegSize := runtimeCtx.stackSegSize
    callSegSize := runtimeCtx.callSegSize
    printSegSize := runtimeCtx.printSegSize
    argc := runtimeCtx.argc
    instrPerCycle := runtimeCtx.instrPerCycle }
  let g := g.setInstrPtr g.codeSegBp
  let g := g.setStackPtr g.stackSegBp
  let g := g.setCallPtr g.callSegBp
  let g := g.setPrintPtr g.printSegBp
  g.resetFlags

/-- The first `n` phases of `start_interpreter` on a runtime context, from the static
variables `g`, in a machine with the memory and registers of `s`. -/
def startOn (b : Build) (runtimeCtx : Ctx) (g : Statics) (regs : CalleeRegs) (s : St) (n : ℕ) :
    Phase × St :=
  startInterpreter b (publish runtimeCtx g).toCtx regs n (.idle, (publish runtimeCtx g).enter s)

/-- **Nothing of the static variables is left**: a run is that of its runtime context. -/
theorem startOn_eq (b : Build) (runtimeCtx : Ctx) (g : Statics) (regs : CalleeRegs) (s : St)
    (n : ℕ) : startOn b runtimeCtx g regs s n = invocation b runtimeCtx regs s n := rfl

/-! ## Independence -/

/-- Two runtime contexts with the same code, init vector included, and the same
arguments, sizes and number of instructions per cycle. -/
structure SameInput (b : Build) (ctx ctx' : Ctx) (mem mem' : ℤ → Word) : Prop where
  code : ∀ a : ℤ, -b.ivSize ≤ a → a < ctx.codeSegSize →
    mem (ctx.codeSegBp + a) = mem' (ctx'.codeSegBp + a)
  codeSegSize : ctx.codeSegSize = ctx'.codeSegSize
  stackSegSize : ctx.stackSegSize = ctx'.stackSegSize
  callSegSize : ctx.callSegSize = ctx'.callSegSize
  printSegSize : ctx.printSegSize = ctx'.printSegSize
  argc : ctx.argc = ctx'.argc
  argv : ctx.argv = ctx'.argv
  instrPerCycle : ctx.instrPerCycle = ctx'.instrPerCycle

section Independence
variable {b : Build} {ctx ctx' : Ctx} {mem mem' : ℤ → Word}

/-- The lines of the code are decrypted to the same words. -/
theorem SameInput.decode (h : SameInput b ctx ctx' mem mem') {k k' : ℤ}
    (hk : ctx.codeSegBp = 16 * k) (hk' : ctx'.codeSegBp = 16 * k') (hsize : 16 ∣ ctx.codeSegSize)
    {j : ℕ} (hj : 16 * j < ctx.codeSegSize) :
    b.mode.decode (lines mem) (k + j) = b.mode.decode (lines mem') (k' + j) := by
  have hline {i : ℤ} (hlo : -b.ivSize ≤ 16 * i) (hhi : 16 * i < ctx.codeSegSize) :
      lines mem (k + i) = lines mem' (k' + i) := by
    funext lane
    have hlane := lane.isLt
    have hword := h.code (16 * i + 4 * (lane : ℕ)) (by omega) (by omega)
    rw [hk, hk', ← add_assoc, ← add_assoc, ← mul_add, ← mul_add] at hword
    exact hword
  have hcur := hline (i := j) (by omega) (by omega)
  cases b with
  | none =>
      rw [Build.mode, Chaining.Mode.decode_plain, Chaining.Mode.decode_plain]
      exact hcur
  | some c =>
      have hprev := hline (i := j - 1) (by simp only [Build.ivSize]; omega) (by omega)
      rw [← add_sub_assoc, ← add_sub_assoc] at hprev
      rw [Chaining.Mode.decode, Chaining.Mode.decode, hcur, hprev]

theorem SameInput.program (h : SameInput b ctx ctx' mem mem') (hbp : 16 ∣ ctx.codeSegBp)
    (hbp' : 16 ∣ ctx'.codeSegBp) (hsize : 16 ∣ ctx.codeSegSize) :
    programOf b ctx mem = programOf b ctx' mem' := by
  obtain ⟨k, hk⟩ := hbp
  obtain ⟨k', hk'⟩ := hbp'
  have hcode : (programOf b ctx mem).code = (programOf b ctx' mem').code := by
    funext w
    simp only [programOf]
    rw [← h.codeSegSize]
    by_cases hw : 4 * w < ctx.codeSegSize
    · rw [if_pos hw, if_pos hw, wordAt, wordAt, hk, hk',
        show (16 * k + 4 * (w : ℤ)) / 16 = k + (w / 4 : ℕ) by omega,
        show (16 * k' + 4 * (w : ℤ)) / 16 = k' + (w / 4 : ℕ) by omega,
        h.decode hk hk' hsize (by omega)]
      have hlane : lane (16 * k + 4 * (w : ℤ)) = lane (16 * k' + 4 * (w : ℤ)) := by
        rw [lane_eq_iff]
        simp only [lane]
        omega
      rw [hlane]
    · rw [if_neg hw, if_neg hw]
  simp only [programOf] at hcode ⊢
  rw [hcode, h.codeSegSize, h.stackSegSize, h.callSegSize, h.argc, h.argv]

/-- **Two runs of one clean program end alike.** -/
theorem runs_end_alike (hb : b.Inverts) (hc : ctx.Aligned) (hc' : ctx'.Aligned) (hd : ctx.Apart)
    (hd' : ctx'.Apart) {s s' : St} {regs regs' : CalleeRegs}
    (hsame : SameInput b ctx ctx' s.mem s'.mem) (hclean : Clean (programOf b ctx s.mem)) {n n' : ℕ}
    (hhalt : Halted (invocation b ctx regs s n)) (hhalt' : Halted (invocation b ctx' regs' s' n')) :
    printed (invocation b ctx regs s n).2.log = printed (invocation b ctx' regs' s' n').2.log ∧
      (invocation b ctx regs s n).2.errorCode = (invocation b ctx' regs' s' n').2.errorCode := by
  have hprog := hsame.program hc.code_bp hc'.code_bp hd.code_size
  obtain ⟨k, hk, -⟩ := invocation_follows hb hc hd s regs hclean n
  obtain ⟨k', hk', -⟩ := invocation_follows hb hc' hd' s' regs' (hprog ▸ hclean) n'
  exact hk.same_end hprog hk' hhalt hhalt'

/-- The printed words: those of the print segment below the print count. -/
def printedWords (ctx : Ctx) (s : St) : List Word :=
  (List.range (getPrintCount ctx s)).map fun i => s.mem (ctx.printCell i)

/-- The result of `start_interpreter` that is not interrupted. -/
def interpreterResult (s : St) : ℕ := s.errorCode

theorem Reach.printedWords_eq {s₀ s : St} {ph : Phase} (hc : ctx.Aligned) (hd : ctx.PrintApart)
    (h : Reach b ctx s₀ ph s) :
    printedWords ctx s = Ring.recent ctx.printWords (printed s.log) := by
  rw [printedWords, h.getPrintCount_eq hc]
  exact Ring.map_range_eq_recent _ fun i w hw => h.print_cells hc hd hw

end Independence

/-- What is left after an invocation that failed. -/
def leftover : Statics :=
  { Statics.initial with
    codeSegBp := 4096, stackSegSize := 64, printPtr := 12, haltFlag := true, errorCode := 7 }

/-- Sizes in bytes of the segments that `create_runtime_ctx` allocates. -/
structure SegSizes where
  stack : ℕ
  call : ℕ
  print : ℕ
  deriving DecidableEq, Repr

/-- The sizes in the runtime context when the segments are allocated, with space for the
init vectors. -/
def runtimeSizes (b : Build) (inv : InvokeCtx) : SegSizes where
  stack := orDefault inv.stackSize.toNat defaultSize * 16 + b.ivSize
  call := orDefault inv.callSize.toNat defaultSize * 16 + b.ivSize
  print := orDefault inv.outBufSize.toNat defaultSize

/-- The sizes `create_runtime_ctx` passes to `amalloc`: those of the static variables, not
those of the runtime context. -/
def requestedSizes (g : Statics) : SegSizes where
  stack := g.stackSegSize
  call := g.callSegSize
  print := g.printSegSize

/-- An invocation of the past.  It may have failed before `start_interpreter` was called;
otherwise it has run for a number of phases. -/
structure PastInvocation where
  inv : InvokeCtx
  buf : Buffers
  started : Bool
  regs : CalleeRegs
  machine : St
  phases : ℕ

/-- The static variables after a sequence of invocations, the last one first. -/
def Statics.after (b : Build) : List PastInvocation → Statics
  | [] => .initial
  | p :: past =>
      let g := Statics.after b past
      let ctx := createRuntimeCtx b p.inv p.buf
      if p.started then
        (publish ctx g).leave (startOn b ctx g p.regs p.machine p.phases).2
      else g

/-- The segments are allocated at least as large as they are used, with space for the init
vectors of the two stacks. -/
structure SegmentsFit (b : Build) (inv : InvokeCtx) (buf : Buffers) (g : Statics) : Prop where
  stack : (publish (createRuntimeCtx b inv buf) g).stackSegSize + b.ivSize ≤
    (requestedSizes g).stack
  call : (publish (createRuntimeCtx b inv buf) g).callSegSize + b.ivSize ≤ (requestedSizes g).call
  print : (publish (createRuntimeCtx b inv buf) g).printSegSize ≤ (requestedSizes g).print

/-- The invocation before asked for segments as large as this one, and for one more line of
each stack in a build with `ENCRYPTION`. -/
structure AsLarge (b : Build) (inv last : InvokeCtx) : Prop where
  stack : orDefault inv.stackSize.toNat defaultSize * 16 + b.ivSize ≤
    orDefault last.stackSize.toNat defaultSize * 16
  call : orDefault inv.callSize.toNat defaultSize * 16 + b.ivSize ≤
    orDefault last.callSize.toNat defaultSize * 16
  print : orDefault inv.outBufSize.toNat defaultSize ≤ orDefault last.outBufSize.toNat defaultSize

/-- The last invocation that got as far as `start_interpreter`. -/
def lastStarted (past : List PastInvocation) : Option InvokeCtx :=
  (past.find? PastInvocation.started).map PastInvocation.inv

/-- **The sizes that are found are those of the last invocation that was started.** -/
theorem requestedSizes_after (b : Build) (past : List PastInvocation) :
    requestedSizes (Statics.after b past) =
      match lastStarted past with
      | none => ⟨0, 0, 0⟩
      | some last => ⟨orDefault last.stackSize.toNat defaultSize * 16,
          orDefault last.callSize.toNat defaultSize * 16,
          orDefault last.outBufSize.toNat defaultSize⟩ := by
  induction past with
  | nil => rfl
  | cons p past ih =>
      cases hstarted : p.started with
      | true =>
          have hlast : lastStarted (p :: past) = some p.inv := by
            simp [lastStarted, hstarted]
          have hafter : Statics.after b (p :: past) =
              (publish (createRuntimeCtx b p.inv p.buf) (Statics.after b past)).leave
                (startOn b (createRuntimeCtx b p.inv p.buf) (Statics.after b past) p.regs p.machine
                  p.phases).2 := by rw [Statics.after, hstarted, if_pos rfl]
          rw [hlast, hafter]
          rfl
      | false =>
          have hlast : lastStarted (p :: past) = lastStarted past := by
            simp [lastStarted, hstarted]
          have hafter : Statics.after b (p :: past) = Statics.after b past := by
            rw [Statics.after, hstarted]
            rfl
          rw [hlast, hafter, ih]

/-- **When the segments are allocated large enough.**  After any sequence of invocations
since the module was loaded, the segments of the next one fit if and only if an earlier one
was started and the last of these asked for at least as much. -/
theorem segmentsFit_iff (b : Build) (past : List PastInvocation) (inv : InvokeCtx)
    (buf : Buffers) :
    SegmentsFit b inv buf (Statics.after b past) ↔
      ∃ last, lastStarted past = some last ∧ AsLarge b inv last := by
  have hreq := requestedSizes_after b past
  constructor
  · rintro ⟨hstack, hcall, hprint⟩
    rw [hreq] at hstack hcall hprint
    cases hlast : lastStarted past with
    | none =>
        rw [hlast] at hprint
        have hpos : 0 < orDefault inv.outBufSize.toNat defaultSize := orDefault_pos _ (by decide)
        exact absurd hprint (Nat.not_le.mpr hpos)
    | some last =>
        rw [hlast] at hstack hcall hprint
        exact ⟨last, rfl, hstack, hcall, hprint⟩
  · rintro ⟨last, hlast, hlarge⟩
    rw [hlast] at hreq
    refine ⟨?_, ?_, ?_⟩
    · rw [hreq]
      exact hlarge.stack
    · rw [hreq]
      exact hlarge.call
    · rw [hreq]
      exact hlarge.print

/-- The first invocation, and in a build with `ENCRYPTION` one more of the same sizes, get
segments that are too small. -/
theorem segments_too_small :
    let b : Build := some (keyCipher 5)
    let first : PastInvocation := ⟨smallInvoke 32, smallBuffers, true, ⟨0, 0, 0⟩, printState, 5⟩
    (smallInvoke 32).Accepted ∧
      requestedSizes (Statics.after b []) = ⟨0, 0, 0⟩ ∧
      requestedSizes (Statics.after b [first]) = ⟨16, 16, 16⟩ ∧
      runtimeSizes b (smallInvoke 32) = ⟨32, 32, 16⟩ ∧
      ¬ SegmentsFit b (smallInvoke 32) smallBuffers (Statics.after b []) ∧
      ¬ SegmentsFit b (smallInvoke 32) smallBuffers (Statics.after b [first]) := by
  intro b first
  refine ⟨by decide, rfl, by decide, by decide, fun hfit => ?_, fun hfit => ?_⟩
  · exact absurd hfit.stack (by decide)
  · exact absurd hfit.stack (by decide)

end Bispe
