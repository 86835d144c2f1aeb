import Bispe.Lib.Effect
import Mathlib.Algebra.Group.Int.Defs
import Mathlib.Algebra.Group.Nat.Defs
import Mathlib.Data.List.Forall2

/-!
# The instruction handlers

The handlers of `asm_instructions.S`, one definition for each label, in the order
of the jump table.  A handler touches the program state only through the macros
of `asm_state_macros.S`, so it is written over a record `Macros` of them: the
interpreter with its line registers and encrypted segments is one such record,
and the plain machine with flat arrays is another.  `edx`, `ecx` and `eax` are
the local names of the values the assembly keeps in those registers.

## Main definitions

* `Macros m P` — the state macros, in the monad `m`, with jump targets in `P`.
* `instrNop`, …, `instrArgload` — the handlers.
* `dispatch` — `extr_next_instr` followed by `jmp_through_table`.
* `MacrosRel`, `dispatch_rel` — related macros give related instructions.
-/

namespace Bispe

/-- A dword: the unit of code, of both stacks and of the print buffer. -/
abbrev Word := BitVec 32

/-- The run-time errors of `bispe_defines.h`. -/
inductive Err
  | invOpcode
  | jmpBounds
  | stackOverflow
  | stackUnderflow
  | callOverflow
  | callUnderflow
  | divZero
  | argRange
  deriving DecidableEq, Repr

/-- `ERR_INV_OPCODE`, …, `ERR_ARG_RANGE`. -/
def Err.code : Err → ℕ
  | .invOpcode => 1
  | .jmpBounds => 2
  | .stackOverflow => 3
  | .stackUnderflow => 4
  | .callOverflow => 5
  | .callUnderflow => 6
  | .divZero => 7
  | .argRange => 8

/-- Where a handler hands control to. -/
inductive Ctl
  /-- Dispatch the next instruction. -/
  | next
  /-- `bispe_cycle_outro`, after the last instruction of the cycle. -/
  | cycleEnd
  /-- `bispe_cycle_outro`, from `instr_finish`. -/
  | finish
  deriving DecidableEq, Repr

/-- The macros a handler is written with.  `P` is the type of checked jump
targets; displacements and amounts are in bytes. -/
structure Macros (m : Type → Type) (P : Type) where
  /-- `bispe_argc`. -/
  argc : ℕ
  /-- `bispe_argv`. -/
  argv : ℕ → Word
  /-- Jump to one of the `error_*` labels. -/
  error : {α : Type} → Err → m α
  /-- `or $1,halt_flag`. -/
  setHaltFlag : m Unit
  /-- `inc_and_check_cycle_cnt`. -/
  incAndCheckCycleCnt : m Ctl
  extrNextInstr : m Word
  incInstrPtr : m Unit
  /-- `calc_jmp_target`. -/
  calcJmpTarget : Word → m P
  /-- Set `cur_instr_ptr` to a jump target, then `fetch_instr_line`. -/
  jumpTo : P → m Unit
  /-- The return address `instr_call` computes from `cur_instr_ptr`. -/
  retAddr : m Word
  extrStack : m Word
  insStack : Word → m Unit
  incStackPtr : m Unit
  decStackPtr : m Unit
  fetchCallElement : ℕ → m Word
  saveCallElement : ℕ → Word → m Unit
  incCallPtr : ℕ → m Unit
  decCallPtr : ℕ → m Unit
  /-- Write one element to the print buffer and advance `print_ptr`. -/
  print : Word → m Unit

section Handlers
variable {m : Type → Type} [Monad m] {P : Type} (M : Macros m P)

/-- `goto_next_instr`, up to the dispatch of the next instruction. -/
def gotoNextInstr : m Ctl := do
  M.incInstrPtr
  M.incAndCheckCycleCnt

/-- Fetch the constant that follows the opcode. -/
def fetchOperand : m Word := do
  M.incInstrPtr
  M.extrNextInstr

def instrNop : m Ctl := gotoNextInstr M

def instrFinish : m Ctl := do
  M.setHaltFlag
  pure .finish

def instrPush : m Ctl := do
  let edx ← fetchOperand M
  M.incStackPtr
  M.insStack edx
  gotoNextInstr M

def instrPrint : m Ctl := do
  let edx ← M.extrStack
  M.decStackPtr
  M.print edx
  gotoNextInstr M

/-- The displacement is scaled in a 32-bit register: `shl $2,%edx`. -/
def instrLoad : m Ctl := do
  let edx ← fetchOperand M
  let ecx ← M.fetchCallElement (edx <<< 2).toNat
  M.incStackPtr
  M.insStack ecx
  gotoNextInstr M

def instrStore : m Ctl := do
  let edx ← fetchOperand M
  let ecx ← M.extrStack
  M.decStackPtr
  M.saveCallElement (edx <<< 2).toNat ecx
  gotoNextInstr M

/-- Pop one element and replace the new top by `op new_top popped`. -/
def instrArith (op : Word → Word → Word) : m Ctl := do
  let edx ← M.extrStack
  M.decStackPtr
  let ecx ← M.extrStack
  M.insStack (op ecx edx)
  gotoNextInstr M

def instrAdd : m Ctl := instrArith M (fun ecx edx => ecx + edx)

def instrSub : m Ctl := instrArith M (fun ecx edx => ecx - edx)

/-- `mul %ecx` with the popped element in `eax`; the low half is pushed. -/
def instrMul : m Ctl := instrArith M (fun ecx eax => eax * ecx)

/-- `instr_div` and `instr_mod`: `div %ecx` divides `edx:eax` with `edx = 0`, so
both halves are unsigned. -/
def instrDivide (op : Word → Word → Word) : m Ctl := do
  let ecx ← M.extrStack
  M.decStackPtr
  if ecx = 0 then M.error .divZero
  else do
    let eax ← M.extrStack
    M.insStack (op eax ecx)
    gotoNextInstr M

def instrDiv : m Ctl := instrDivide M (fun eax ecx => eax / ecx)

def instrMod : m Ctl := instrDivide M (fun eax ecx => eax % ecx)

def instrJmp : m Ctl := do
  let edx ← fetchOperand M
  let rdx ← M.calcJmpTarget edx
  M.jumpTo rdx
  M.incAndCheckCycleCnt

/-- Pop two elements and jump if `cond` holds of them; the operand is skipped
when it does not. -/
def instrJcc (cond : Word → Word → Bool) : m Ctl := do
  let edx ← M.extrStack
  M.decStackPtr
  let ecx ← M.extrStack
  M.decStackPtr
  if cond ecx edx then instrJmp M
  else do
    M.incInstrPtr
    gotoNextInstr M

def instrJeq : m Ctl := instrJcc M (fun ecx edx => ecx == edx)

def instrJne : m Ctl := instrJcc M (fun ecx edx => ecx != edx)

def instrJl : m Ctl := instrJcc M (fun ecx edx => ecx.slt edx)

def instrJle : m Ctl := instrJcc M (fun ecx edx => ecx.sle edx)

def instrJg : m Ctl := instrJcc M (fun ecx edx => edx.slt ecx)

def instrJge : m Ctl := instrJcc M (fun ecx edx => edx.sle ecx)

/-- The target is checked before the return address is pushed. -/
def instrCall : m Ctl := do
  let edx ← fetchOperand M
  let rdx ← M.calcJmpTarget edx
  let eax ← M.retAddr
  M.incCallPtr 4
  M.saveCallElement 0 eax
  M.jumpTo rdx
  M.incAndCheckCycleCnt

def instrRet : m Ctl := do
  let edx ← M.fetchCallElement 0
  let rdx ← M.calcJmpTarget edx
  M.decCallPtr 4
  M.jumpTo rdx
  M.incAndCheckCycleCnt

def instrProlog : m Ctl := do
  let edx ← fetchOperand M
  M.incCallPtr (edx <<< 2).toNat
  gotoNextInstr M

def instrEpilog : m Ctl := do
  let edx ← fetchOperand M
  M.decCallPtr (edx <<< 2).toNat
  gotoNextInstr M

/-- The range check uses the unscaled position. -/
def instrArgload : m Ctl := do
  let edx ← fetchOperand M
  if M.argc ≤ edx.toNat then M.error .argRange
  else do
    let ecx := M.argv edx.toNat
    M.saveCallElement (edx <<< 2).toNat ecx
    gotoNextInstr M

/-- `maximum_opcode`. -/
def maximumOpcode : ℕ := 0x16

/-- `instr_table`. -/
def instrTable : List (m Ctl) :=
  [instrNop M, instrFinish M,
    instrPush M, instrPrint M, instrLoad M, instrStore M,
    instrAdd M, instrSub M, instrMul M, instrDiv M, instrMod M,
    instrJmp M, instrJeq M, instrJne M, instrJl M, instrJle M, instrJg M, instrJge M,
    instrCall M, instrRet M, instrProlog M, instrEpilog M,
    instrArgload M]

/-- `jmp_through_table`.  The check leaves no opcode outside the table. -/
def jmpThroughTable (opcode : Word) : m Ctl :=
  if maximumOpcode < opcode.toNat then M.error .invOpcode
  else (instrTable M).getD opcode.toNat (M.error .invOpcode)

/-- Dispatch the instruction at `cur_instr_ptr`. -/
def dispatch : m Ctl := do
  let edx ← M.extrNextInstr
  jmpThroughTable M edx

end Handlers

/-! ## Relational parametricity -/

section Related
variable {m m' : Type → Type} [Monad m] [Monad m'] {P P' : Type}
open Effect

/-- The macros of `M` and `M'` are pairwise related by `T`: jump targets by `PR`,
and the exits of a handler by `CR`.  Setting the halt flag is left out: it belongs
to one handler only. -/
structure MacrosRel (T : MonadRel m m') (PR : P → P' → Prop) (CR : Ctl → Ctl → Prop)
    (M : Macros m P) (M' : Macros m' P') : Prop where
  argc : M.argc = M'.argc
  argv : M.argv = M'.argv
  error : ∀ {α β : Type} (A : α → β → Prop) (e : Err), T.rel A (M.error e) (M'.error e)
  incAndCheckCycleCnt : T.rel CR M.incAndCheckCycleCnt M'.incAndCheckCycleCnt
  extrNextInstr : T.rel Eq M.extrNextInstr M'.extrNextInstr
  incInstrPtr : T.rel Eq M.incInstrPtr M'.incInstrPtr
  calcJmpTarget : ∀ w, T.rel PR (M.calcJmpTarget w) (M'.calcJmpTarget w)
  jumpTo : ∀ p p', PR p p' → T.rel Eq (M.jumpTo p) (M'.jumpTo p')
  retAddr : T.rel Eq M.retAddr M'.retAddr
  extrStack : T.rel Eq M.extrStack M'.extrStack
  insStack : ∀ w, T.rel Eq (M.insStack w) (M'.insStack w)
  incStackPtr : T.rel Eq M.incStackPtr M'.incStackPtr
  decStackPtr : T.rel Eq M.decStackPtr M'.decStackPtr
  fetchCallElement : ∀ d, 4 ∣ d → T.rel Eq (M.fetchCallElement d) (M'.fetchCallElement d)
  saveCallElement : ∀ d w, 4 ∣ d → T.rel Eq (M.saveCallElement d w) (M'.saveCallElement d w)
  incCallPtr : ∀ d, 4 ∣ d → T.rel Eq (M.incCallPtr d) (M'.incCallPtr d)
  decCallPtr : ∀ d, 4 ∣ d → T.rel Eq (M.decCallPtr d) (M'.decCallPtr d)
  print : ∀ w, T.rel Eq (M.print w) (M'.print w)

variable {T : MonadRel m m'} {PR : P → P' → Prop} {CR : Ctl → Ctl → Prop}
  {M : Macros m P} {M' : Macros m' P'}

/-- An operand that was scaled to bytes is a multiple of a dword. -/
theorem dvd_shl_two (w : Word) : 4 ∣ (w <<< 2).toNat := by
  rw [BitVec.toNat_shiftLeft, Nat.shiftLeft_eq]
  omega

/-- Sequence two related parts whose first results are equal. -/
theorem rel_seq {α γ δ : Type} {C : γ → δ → Prop} {x : m α} {y : m' α} {f : α → m γ}
    {g : α → m' δ} (hx : T.rel Eq x y) (hf : ∀ a, T.rel C (f a) (g a)) :
    T.rel C (x >>= f) (y >>= g) :=
  T.rel_bind hx fun a _ hab => hab ▸ hf a

namespace MacrosRel

theorem gotoNextInstr (H : MacrosRel T PR CR M M') :
    T.rel CR (gotoNextInstr M) (gotoNextInstr M') :=
  rel_seq H.incInstrPtr fun _ => H.incAndCheckCycleCnt

theorem fetchOperand (H : MacrosRel T PR CR M M') :
    T.rel Eq (fetchOperand M) (fetchOperand M') :=
  rel_seq H.incInstrPtr fun _ => H.extrNextInstr

theorem instrPush (H : MacrosRel T PR CR M M') : T.rel CR (instrPush M) (instrPush M') := by
  refine rel_seq H.fetchOperand fun edx => ?_
  refine rel_seq H.incStackPtr fun _ => ?_
  exact rel_seq (H.insStack edx) fun _ => H.gotoNextInstr

theorem instrPrint (H : MacrosRel T PR CR M M') : T.rel CR (instrPrint M) (instrPrint M') := by
  refine rel_seq H.extrStack fun edx => ?_
  refine rel_seq H.decStackPtr fun _ => ?_
  exact rel_seq (H.print edx) fun _ => H.gotoNextInstr

theorem instrLoad (H : MacrosRel T PR CR M M') : T.rel CR (instrLoad M) (instrLoad M') := by
  refine rel_seq H.fetchOperand fun edx => ?_
  refine rel_seq (H.fetchCallElement _ (dvd_shl_two edx)) fun ecx => ?_
  refine rel_seq H.incStackPtr fun _ => ?_
  exact rel_seq (H.insStack ecx) fun _ => H.gotoNextInstr

theorem instrStore (H : MacrosRel T PR CR M M') : T.rel CR (instrStore M) (instrStore M') := by
  refine rel_seq H.fetchOperand fun edx => ?_
  refine rel_seq H.extrStack fun ecx => ?_
  refine rel_seq H.decStackPtr fun _ => ?_
  exact rel_seq (H.saveCallElement _ ecx (dvd_shl_two edx)) fun _ => H.gotoNextInstr

theorem instrArith (H : MacrosRel T PR CR M M') (op : Word → Word → Word) :
    T.rel CR (instrArith M op) (instrArith M' op) := by
  refine rel_seq H.extrStack fun edx => ?_
  refine rel_seq H.decStackPtr fun _ => ?_
  refine rel_seq H.extrStack fun ecx => ?_
  exact rel_seq (H.insStack _) fun _ => H.gotoNextInstr

theorem instrDivide (H : MacrosRel T PR CR M M') (op : Word → Word → Word) :
    T.rel CR (instrDivide M op) (instrDivide M' op) := by
  refine rel_seq H.extrStack fun ecx => ?_
  refine rel_seq H.decStackPtr fun _ => ?_
  split
  · exact H.error CR .divZero
  · refine rel_seq H.extrStack fun eax => ?_
    exact rel_seq (H.insStack _) fun _ => H.gotoNextInstr

theorem instrJmp (H : MacrosRel T PR CR M M') : T.rel CR (instrJmp M) (instrJmp M') := by
  refine rel_seq H.fetchOperand fun edx => ?_
  refine T.rel_bind (H.calcJmpTarget edx) fun rdx rdx' hrdx => ?_
  exact rel_seq (H.jumpTo rdx rdx' hrdx) fun _ => H.incAndCheckCycleCnt

theorem instrJcc (H : MacrosRel T PR CR M M') (cond : Word → Word → Bool) :
    T.rel CR (instrJcc M cond) (instrJcc M' cond) := by
  refine rel_seq H.extrStack fun edx => ?_
  refine rel_seq H.decStackPtr fun _ => ?_
  refine rel_seq H.extrStack fun ecx => ?_
  refine rel_seq H.decStackPtr fun _ => ?_
  split
  · exact H.instrJmp
  · exact rel_seq H.incInstrPtr fun _ => H.gotoNextInstr

theorem instrCall (H : MacrosRel T PR CR M M') : T.rel CR (instrCall M) (instrCall M') := by
  refine rel_seq H.fetchOperand fun edx => ?_
  refine T.rel_bind (H.calcJmpTarget edx) fun rdx rdx' hrdx => ?_
  refine rel_seq H.retAddr fun eax => ?_
  refine rel_seq (H.incCallPtr 4 (Nat.dvd_refl 4)) fun _ => ?_
  refine rel_seq (H.saveCallElement 0 eax (Nat.dvd_zero 4)) fun _ => ?_
  exact rel_seq (H.jumpTo rdx rdx' hrdx) fun _ => H.incAndCheckCycleCnt

theorem instrRet (H : MacrosRel T PR CR M M') : T.rel CR (instrRet M) (instrRet M') := by
  refine rel_seq (H.fetchCallElement 0 (Nat.dvd_zero 4)) fun edx => ?_
  refine T.rel_bind (H.calcJmpTarget edx) fun rdx rdx' hrdx => ?_
  refine rel_seq (H.decCallPtr 4 (Nat.dvd_refl 4)) fun _ => ?_
  exact rel_seq (H.jumpTo rdx rdx' hrdx) fun _ => H.incAndCheckCycleCnt

theorem instrProlog (H : MacrosRel T PR CR M M') : T.rel CR (instrProlog M) (instrProlog M') := by
  refine rel_seq H.fetchOperand fun edx => ?_
  exact rel_seq (H.incCallPtr _ (dvd_shl_two edx)) fun _ => H.gotoNextInstr

theorem instrEpilog (H : MacrosRel T PR CR M M') : T.rel CR (instrEpilog M) (instrEpilog M') := by
  refine rel_seq H.fetchOperand fun edx => ?_
  exact rel_seq (H.decCallPtr _ (dvd_shl_two edx)) fun _ => H.gotoNextInstr

theorem instrArgload (H : MacrosRel T PR CR M M') :
    T.rel CR (instrArgload M) (instrArgload M') := by
  refine rel_seq H.fetchOperand fun edx => ?_
  rw [H.argc, H.argv]
  split
  · exact H.error CR .argRange
  · exact rel_seq (H.saveCallElement _ _ (dvd_shl_two edx)) fun _ => H.gotoNextInstr

/-- Corresponding entries of the two jump tables are related, `FINISH` apart. -/
theorem instrTable (H : MacrosRel T PR CR M M') :
    List.Forall₂ (T.rel CR) ((instrTable M).set 1 (instrNop M))
      ((instrTable M').set 1 (instrNop M')) := by
  refine .cons H.gotoNextInstr <| .cons H.gotoNextInstr <| .cons H.instrPush <|
    .cons H.instrPrint <| .cons H.instrLoad <| .cons H.instrStore <|
    .cons (H.instrArith _) <| .cons (H.instrArith _) <| .cons (H.instrArith _) <|
    .cons (H.instrDivide _) <| .cons (H.instrDivide _) <| .cons H.instrJmp <|
    .cons (H.instrJcc _) <| .cons (H.instrJcc _) <| .cons (H.instrJcc _) <|
    .cons (H.instrJcc _) <| .cons (H.instrJcc _) <| .cons (H.instrJcc _) <|
    .cons H.instrCall <| .cons H.instrRet <| .cons H.instrProlog <|
    .cons H.instrEpilog <| .cons H.instrArgload .nil

theorem jmpThroughTable_of_ne (H : MacrosRel T PR CR M M') {opcode : Word} (h : opcode ≠ 1) :
    T.rel CR (jmpThroughTable M opcode) (jmpThroughTable M' opcode) := by
  have hne : 1 ≠ opcode.toNat := fun heq => h (BitVec.eq_of_toNat_eq heq.symm)
  unfold Bispe.jmpThroughTable
  split
  · exact H.error CR .invOpcode
  · rw [List.getD_eq_getElem?_getD, List.getD_eq_getElem?_getD,
      ← List.getElem?_set_ne hne (a := instrNop M), ← List.getElem?_set_ne hne (a := instrNop M')]
    rcases hs : ((Bispe.instrTable M).set 1 (instrNop M))[opcode.toNat]? with _ | x
    · rw [List.getElem?_eq_none_iff.mpr
        (H.instrTable.length_eq ▸ List.getElem?_eq_none_iff.mp hs)]
      exact H.error CR .invOpcode
    · obtain ⟨hlt, rfl⟩ := List.getElem?_eq_some_iff.mp hs
      rw [List.getElem?_eq_getElem (H.instrTable.length_eq ▸ hlt)]
      exact H.instrTable.get hlt (H.instrTable.length_eq ▸ hlt)

end MacrosRel

/-- **Related macros dispatch related instructions.** -/
theorem dispatch_rel (H : MacrosRel T PR CR M M')
    (hfinish : T.rel CR (instrFinish M) (instrFinish M')) :
    T.rel CR (dispatch M) (dispatch M') := by
  refine rel_seq H.extrNextInstr fun edx => ?_
  by_cases h : edx = 1
  · subst h
    exact hfinish
  · exact H.jmpThroughTable_of_ne h

end Related
end Bispe
