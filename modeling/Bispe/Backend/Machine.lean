import Bispe.Lib.Blocks
import Bispe.Lib.Chaining
import Bispe.Backend.Instructions

/-!
# The interpreter: line registers over segments in memory

The macros of `asm_state_macros.S` and the cycle of `bispe_cycle_asm.S`.  One
line of each segment is held in a register; everything else is in memory, where
a build with `ENCRYPTION` keeps it encrypted in CBC mode.

Pointers are integers: addresses are 64 bits wide and the arithmetic on them,
with operands of 32 bits, is taken not to wrap.  Memory is addressed by the byte
address of a dword, and `vmovdqa` moves four dwords at once.  The registers
`xmm0` to `xmm2`, `rdi`, `rsi` and `r8` hold no state between two macros and are
local names here.

The log records what the code does to memory and which words it executes.  It is
never read back.

## Main definitions

* `Ctx` — the variables `start_interpreter` publishes for one invocation.
* `St` — registers and memory.
* `encryptRegCbcChain` — re-encryption of the call segment above a line.
* `macros` — the state macros, as a record of `Macros`.
* `bispeCycleEntry`, `bispeCycleOutro` — the ends of an instruction cycle.
-/

namespace Bispe

open Effect Chaining

/-- A 16-byte line: the content of an `xmm` register. -/
abbrev Line := Fin 4 → Word

/-- `vpxor`. -/
def vpxor (x y : Line) : Line := fun i => x i ^^^ y i

/-- `bispe_encblk` and `bispe_decblk` under the loaded key. -/
structure Cipher where
  encblk : Line → Line
  decblk : Line → Line

/-- The build: with `ENCRYPTION` and a cipher, or without. -/
abbrev Build := Option Cipher

/-- The position of an address inside its line, in dwords. -/
def lane (p : ℤ) : Fin 4 := ⟨(p / 4 % 4).toNat, by omega⟩

/-- `align_ptr`: clear the low four bits. -/
def alignPtr (p : ℤ) : ℤ := p / 16 * 16

/-- `ofs_from_ptr`: keep bits two and three. -/
def ofsFromPtr (p : ℤ) : ℤ := p / 4 % 4 * 4

/-- `ins_by_ofs`. -/
def insByOfs (src : Word) (dest : Line) (ofs : ℤ) : Line :=
  if ofs = 0 then Function.update dest 0 src
  else if ofs = 4 then Function.update dest 1 src
  else if ofs = 8 then Function.update dest 2 src
  else Function.update dest 3 src

/-- `extr_by_ofs`. -/
def extrByOfs (src : Line) (ofs : ℤ) : Word := src (lane ofs)

/-- The published segments, sizes in bytes, and program arguments. -/
structure Ctx where
  codeSegBp : ℤ
  stackSegBp : ℤ
  callSegBp : ℤ
  printSegBp : ℤ
  codeSegSize : ℕ
  stackSegSize : ℕ
  callSegSize : ℕ
  printSegSize : ℕ
  argc : ℕ
  argv : ℕ → Word
  instrPerCycle : ℕ

/-- The segments that are accessed by lines. -/
inductive Seg
  | code
  | stack
  | call
  deriving DecidableEq, Repr

/-- What the interpreter does to memory, and the words it executes. -/
inductive Event
  /-- An opcode or operand is taken from the instruction line, for this address. -/
  | fetch (p : ℤ) (w : Word)
  /-- `inc_instr_ptr` moves on from this address. -/
  | advance (p : ℤ)
  /-- A line is read. -/
  | read (seg : Seg) (p : ℤ)
  /-- A line is written. -/
  | write (seg : Seg) (p : ℤ)
  /-- `encrypt_reg_cbc_chain` starts. -/
  | chain (dest last : ℤ)
  /-- An element is written to the print buffer. -/
  | print (p : ℤ) (w : Word)
  deriving DecidableEq, Repr

/-- Registers and memory. -/
structure St where
  instrCnt : ℕ
  curInstrPtr : ℤ
  curStackPtr : ℤ
  curCallPtr : ℤ
  curCallLine : ℤ
  rinstrLine : Line
  rstackLine : Line
  rcallLine : Line
  instrPtr : ℤ
  stackPtr : ℤ
  callPtr : ℤ
  printPtr : ℤ
  haltFlag : Bool
  errorCode : ℕ
  mem : ℤ → Word
  log : List Event

/-- Why a cycle ends before its outro. -/
inductive Stop
  /-- One of the `error_*` labels. -/
  | error (e : Err)
  /-- A loop that never reaches its end condition. -/
  | hang
  deriving DecidableEq, Repr

abbrev M := EStateM Stop St

/-- The line stored at address `p`. -/
def lineAt (mem : ℤ → Word) (p : ℤ) : Line := fun i => mem (p + 4 * (i : ℕ))

/-- Memory with the line `x` stored at address `p`. -/
def storeLine (mem : ℤ → Word) (p : ℤ) (x : Line) : ℤ → Word :=
  fun a => if p ≤ a ∧ a < p + 16 then x (lane (a - p)) else mem a

def readLine (seg : Seg) (p : ℤ) : M Line := fun s =>
  .ok (lineAt s.mem p) { s with log := s.log ++ [.read seg p] }

def writeLine (seg : Seg) (p : ℤ) (x : Line) : M Unit := fun s =>
  .ok () { s with mem := storeLine s.mem p x, log := s.log ++ [.write seg p] }

/-- `set_error`, then back to the caller of the cycle. -/
def setError {α : Type} (e : Err) : M α := fun s =>
  .error (.error e) { s with errorCode := e.code, haltFlag := true }

def hang {α : Type} : M α := fun s => .error .hang s

/-! ## Crypto wrapper macros -/

/-- `decrypt_memory_cbc`. -/
def decryptMemoryCbc (b : Build) (seg : Seg) (src : ℤ) : M Line := do
  let rstate ← readLine seg src
  match b with
  | none => pure rstate
  | some c => do
      let prev ← readLine seg (src - 16)
      pure (vpxor (c.decblk rstate) prev)

/-- `encrypt_reg_cbc`. -/
def encryptRegCbc (b : Build) (seg : Seg) (src : Line) (dest : ℤ) : M Unit :=
  match b with
  | none => writeLine seg dest src
  | some c => do
      let prev ← readLine seg (dest - 16)
      writeLine seg dest (c.encblk (vpxor src prev))

/-- The loop of `encrypt_reg_cbc_chain`.  It leaves only when `dest` equals
`last`, which it meets after `(last - dest) / 16` rounds or never. -/
def encryptLoop (c : Cipher) (seg : Seg) : ℕ → Line → ℤ → ℤ → M Unit
  | 0, rstate, dest, last => if dest = last then writeLine seg dest rstate else hang
  | n + 1, rstate, dest, last =>
      if dest = last then writeLine seg dest rstate
      else do
        let rhelp2 := rstate
        let dest := dest + 16
        let block ← readLine seg dest
        let old ← readLine seg (dest - 16)
        let rstate := c.encblk (vpxor (vpxor (c.decblk block) old) rhelp2)
        writeLine seg (dest - 16) rhelp2
        encryptLoop c seg n rstate dest last

/-- `encrypt_reg_cbc_chain`. -/
def encryptRegCbcChain (b : Build) (seg : Seg) (src : Line) (dest last : ℤ) : M Unit :=
  match b with
  | none => writeLine seg dest src
  | some c => do
      modify fun s => { s with log := s.log ++ [.chain dest last] }
      let prev ← readLine seg (dest - 16)
      encryptLoop c seg ((last - dest) / 16).toNat (c.encblk (vpxor src prev)) dest last

section Macros
variable (b : Build) (ctx : Ctx)

/-! ## Instruction line modifying -/

/-- `extr_next_instr`. -/
def extrNextInstr : M Word := fun s =>
  let w := extrByOfs s.rinstrLine (ofsFromPtr s.curInstrPtr)
  .ok w { s with log := s.log ++ [.fetch s.curInstrPtr w] }

/-- `fetch_instr_line`. -/
def fetchInstrLine : M Unit := do
  let s ← get
  let line ← decryptMemoryCbc b .code (alignPtr s.curInstrPtr)
  modify fun s => { s with rinstrLine := line }

/-- `inc_instr_ptr`.  The next line is loaded whether or not it exists. -/
def incInstrPtr : M Unit := do
  let s ← get
  let rsi := ofsFromPtr s.curInstrPtr
  modify fun s => { s with
    curInstrPtr := s.curInstrPtr + 4
    log := s.log ++ [.advance s.curInstrPtr] }
  if rsi ≠ 12 then pure ()
  else do
    let line ← decryptMemoryCbc b .code (s.curInstrPtr + 4)
    modify fun s => { s with rinstrLine := line }

/-! ## Stack line modifying -/

/-- `ins_stack`. -/
def insStack (src : Word) : M Unit := modify fun s =>
  { s with rstackLine := insByOfs src s.rstackLine (ofsFromPtr s.curStackPtr) }

/-- `extr_stack`. -/
def extrStack : M Word := fun s =>
  .ok (extrByOfs s.rstackLine (ofsFromPtr s.curStackPtr)) s

/-- `fetch_stack_line`. -/
def fetchStackLine : M Unit := do
  let s ← get
  let line ← decryptMemoryCbc b .stack (alignPtr s.curStackPtr)
  modify fun s => { s with rstackLine := line }

/-- `save_stack_line`. -/
def saveStackLine : M Unit := do
  let s ← get
  encryptRegCbc b .stack s.rstackLine (alignPtr s.curStackPtr)

/-- `inc_stack_ptr`.  The bound is checked after the finished line is saved. -/
def incStackPtr : M Unit := do
  let s ← get
  let rdi := alignPtr s.curStackPtr
  let rsi := ofsFromPtr s.curStackPtr
  modify fun s => { s with curStackPtr := s.curStackPtr + 4 }
  if rsi ≠ 12 then pure ()
  else do
    encryptRegCbc b .stack s.rstackLine rdi
    if ctx.stackSegBp + ctx.stackSegSize ≤ s.curStackPtr + 4 then setError .stackOverflow
    else pure ()

/-- `dec_stack_ptr`. -/
def decStackPtr : M Unit := do
  let s ← get
  let rsi := ofsFromPtr s.curStackPtr
  modify fun s => { s with curStackPtr := s.curStackPtr - 4 }
  if rsi ≠ 0 then pure ()
  else if s.curStackPtr - 4 < ctx.stackSegBp then setError .stackUnderflow
  else do
    let line ← decryptMemoryCbc b .stack (alignPtr (s.curStackPtr - 4))
    modify fun s => { s with rstackLine := line }

/-! ## Call line modifying -/

/-- `fetch_call_line`. -/
def fetchCallLine (target : ℤ) : M Unit := do
  let s ← get
  if s.curCallLine = target then pure ()
  else if target < ctx.callSegBp then setError .callUnderflow
  else do
    encryptRegCbcChain b .call s.rcallLine s.curCallLine (alignPtr s.curCallPtr)
    let line ← decryptMemoryCbc b .call target
    modify fun s => { s with rcallLine := line, curCallLine := target }

/-- `fetch_call_element`. -/
def fetchCallElement (displacement : ℕ) : M Word := do
  let s ← get
  let rdi := s.curCallPtr - displacement
  fetchCallLine b ctx (alignPtr rdi)
  let s ← get
  pure (extrByOfs s.rcallLine (ofsFromPtr rdi))

/-- `save_call_element`. -/
def saveCallElement (displacement : ℕ) (src : Word) : M Unit := do
  let s ← get
  let rdi := s.curCallPtr - displacement
  fetchCallLine b ctx (alignPtr rdi)
  modify fun s => { s with rcallLine := insByOfs src s.rcallLine (ofsFromPtr rdi) }

/-- `save_call_line`. -/
def saveCallLine : M Unit := do
  let s ← get
  encryptRegCbcChain b .call s.rcallLine s.curCallLine (alignPtr s.curCallPtr)

/-- `force_call_line_fetch`. -/
def forceCallLineFetch (target : ℤ) : M Unit := do
  if target < ctx.callSegBp then setError .callUnderflow
  else do
    let line ← decryptMemoryCbc b .call target
    modify fun s => { s with rcallLine := line, curCallLine := target }

/-- `inc_call_ptr`. -/
def incCallPtr (amount : ℕ) : M Unit := do
  modify fun s => { s with curCallPtr := s.curCallPtr + amount }
  let s ← get
  if ctx.callSegBp + ctx.callSegSize ≤ s.curCallPtr then setError .callOverflow
  else pure ()

/-- `dec_call_ptr`.  A call line above the new pointer is flushed up to the old
pointer, and the top line is loaded instead. -/
def decCallPtr (amount : ℕ) : M Unit := do
  let old ← get
  modify fun s => { s with curCallPtr := s.curCallPtr - amount }
  let s ← get
  if s.curCallPtr < ctx.callSegBp then setError .callUnderflow
  else if s.curCallLine ≤ s.curCallPtr then pure ()
  else do
    encryptRegCbcChain b .call s.rcallLine s.curCallLine (alignPtr old.curCallPtr)
    let line ← decryptMemoryCbc b .call (alignPtr s.curCallPtr)
    modify fun s => { s with curCallLine := alignPtr s.curCallPtr, rcallLine := line }

/-! ## Macros of the instruction handlers -/

/-- `inc_and_check_cycle_cnt`. -/
def incAndCheckCycleCnt : M Ctl := fun s =>
  .ok (if s.instrCnt + 1 = ctx.instrPerCycle then .cycleEnd else .next)
    { s with instrCnt := s.instrCnt + 1 }

/-- `calc_jmp_target`: the target is scaled in a 64-bit register. -/
def calcJmpTarget (target : Word) : M ℤ :=
  if ctx.codeSegSize ≤ 4 * target.toNat then setError .jmpBounds
  else pure (ctx.codeSegBp + 4 * target.toNat)

/-- Continue at a checked jump target. -/
def jumpTo (target : ℤ) : M Unit := do
  modify fun s => { s with curInstrPtr := target }
  fetchInstrLine b

/-- The word after the current one, counted from the start of the code segment. -/
def retAddr : M Word := fun s =>
  .ok (BitVec.ofInt 32 ((s.curInstrPtr - ctx.codeSegBp) / 4 + 1)) s

/-- The part of `instr_print` that writes to the print buffer.  At the end of the
buffer `print_ptr` starts over. -/
def printWord (edx : Word) : M Unit := do
  let s ← get
  modify fun s => { s with
    mem := Function.update s.mem s.printPtr edx
    log := s.log ++ [.print s.printPtr edx]
    printPtr := s.printPtr + 4 }
  if s.printPtr + 4 < ctx.printSegBp + ctx.printSegSize then pure ()
  else modify fun s => { s with printPtr := ctx.printSegBp }

/-- The macros the handlers of the interpreter run on. -/
def macros : Macros M ℤ where
  argc := ctx.argc
  argv := ctx.argv
  error := setError
  setHaltFlag := modify fun s => { s with haltFlag := true }
  incAndCheckCycleCnt := incAndCheckCycleCnt ctx
  extrNextInstr := extrNextInstr
  incInstrPtr := incInstrPtr b
  calcJmpTarget := calcJmpTarget ctx
  jumpTo := jumpTo b
  retAddr := retAddr ctx
  extrStack := extrStack
  insStack := insStack
  incStackPtr := incStackPtr b ctx
  decStackPtr := decStackPtr b ctx
  fetchCallElement := fetchCallElement b ctx
  saveCallElement := saveCallElement b ctx
  incCallPtr := incCallPtr ctx
  decCallPtr := decCallPtr b ctx
  print := printWord ctx

/-! ## The instruction cycle -/

/-- `load_state_ptrs`. -/
def loadStatePtrs : M Unit := modify fun s =>
  { s with curInstrPtr := s.instrPtr, curStackPtr := s.stackPtr, curCallPtr := s.callPtr }

/-- `save_state_ptrs`. -/
def saveStatePtrs : M Unit := modify fun s =>
  { s with instrPtr := s.curInstrPtr, stackPtr := s.curStackPtr, callPtr := s.curCallPtr }

/-- `bispe_cycle_entry`, up to the first dispatch. -/
def bispeCycleEntry : M Unit := do
  modify fun s => { s with instrCnt := 0 }
  loadStatePtrs
  fetchInstrLine b
  fetchStackLine b
  let s ← get
  forceCallLineFetch b ctx (alignPtr s.curCallPtr)

/-- `bispe_cycle_outro`. -/
def bispeCycleOutro : M Unit := do
  saveStackLine b
  saveCallLine b
  saveStatePtrs

end Macros
end Bispe
