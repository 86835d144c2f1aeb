import Bispe.Compiler.Jumps

/-!
# Where an instruction leads

The instruction pointer behind one instruction of the plain machine, whatever is on its
stacks: the word behind the instruction, or the operand of a jump.  Only `CALL` and `RET`
lead elsewhere.

## Main definitions

* `CodeElem.Goes` — the places an instruction leads to.
* `Moves` — a part of a handler moves the instruction pointer.
* `dispatch_goes` — the machine goes where the instruction leads.
-/

namespace Bispe

open Effect Flat

/-- Control goes on behind the instruction and nowhere else, once the callee of a `CALL`
has returned. -/
def InstrType.passes (instr : InstrType) : Bool :=
  !instr.isJump && instr ≠ .ret && instr ≠ .finish

/-- The instruction at the word `i` leads to the word `j`. -/
inductive CodeElem.Goes (e : CodeElem) (i : ℕ) : ℕ → Prop
  | next : e.instr.passes = true ∨ e.instr.isCondJump = true → e.Goes i (i + e.width)
  | jump : e.instr.isJump = true → e.Goes i e.arg.toNat

/-- From the instruction pointer `i`, `x` leads to one with `J`. -/
def Moves {α : Type} (i : ℕ) (J : ℕ → Prop) (x : F α) : Prop :=
  ∀ t, t.ip = i → Ends (fun _ t' => J t'.ip) (fun _ _ => True) (x t)

section Moving
variable {p : Program} {i j : ℕ} {J : ℕ → Prop} {α β : Type}

namespace Moves

theorem bind {x : F α} {f : α → F β} (hx : Moves i (· = j) x) (hf : ∀ a, Moves j J (f a)) :
    Moves i J (x >>= f) := by
  intro t ht
  exact (hx t ht).bind fun a t' ht' => hf a t' ht'

theorem of_preserves {x : F α} (h : Preserves Flat.ip x) : Moves i (· = i) x := by
  intro t ht
  exact (h.run t).mono (fun _ _ h => h.trans ht) fun _ _ _ => trivial

theorem mono {x : F α} (h : Moves i (· = j) x) (hj : J j) : Moves i J x := by
  intro t ht
  exact (h t ht).mono (fun _ _ h' => h'.symm ▸ hj) fun _ _ _ => trivial

/-- What only stops the machine. -/
theorem setError (e : Err) : Moves i J (Flat.setError e : F α) := by
  intro t _
  exact trivial

end Moves

/-! ## The macros -/

theorem readCell_ip (c : Option Word) : Preserves Flat.ip (Flat.readCell c) := by
  refine ⟨fun t => ?_⟩
  cases c with
  | some w => rfl
  | none =>
      cases hs : t.supply with
      | nil => simp [Flat.readCell, hs]
      | cons w rest => simp [Flat.readCell, hs]

theorem setError_ip (e : Err) : Preserves Flat.ip (Flat.setError e : F α) := ⟨fun _ => rfl⟩

theorem extrStack_ip : Preserves Flat.ip Flat.extrStack := .bind .get fun _ => readCell_ip _

theorem insStack_ip (w : Word) : Preserves Flat.ip (Flat.insStack w) := .modify fun _ => rfl

theorem incStackPtr_ip : Preserves Flat.ip (Flat.incStackPtr p) :=
  .bind (.modify fun _ => rfl) fun _ => .bind .get fun _ => .ite (setError_ip _) (.pure _)

/-- A check of the state before it is changed. -/
theorem checked_ip {c : Flat → Prop} [DecidablePred c] {e : Err} {f : Flat → Flat}
    (hf : ∀ t, (f t).ip = t.ip) :
    Preserves Flat.ip (do
      let t ← get
      if c t then Flat.setError e else set (f t) : F Unit) := by
  refine ⟨fun t => ?_⟩
  rw [bind_ok (run_get t)]
  split
  · rfl
  · exact hf t

theorem decStackPtr_ip : Preserves Flat.ip Flat.decStackPtr := checked_ip fun _ => rfl

theorem fetchCallElement_ip (d : ℕ) : Preserves Flat.ip (Flat.fetchCallElement d) :=
  .bind .get fun _ => .ite (setError_ip _) (readCell_ip _)

theorem saveCallElement_ip (d : ℕ) (w : Word) : Preserves Flat.ip (Flat.saveCallElement d w) :=
  checked_ip fun _ => rfl

theorem incCallPtr_ip (d : ℕ) : Preserves Flat.ip (Flat.incCallPtr p d) :=
  .bind (.modify fun _ => rfl) fun _ => .bind .get fun _ => .ite (setError_ip _) (.pure _)

theorem decCallPtr_ip (d : ℕ) : Preserves Flat.ip (Flat.decCallPtr d) := checked_ip fun _ => rfl

theorem print_ip (w : Word) : Preserves Flat.ip (Flat.print w) := .modify fun _ => rfl

theorem incInstrPtr_moves : Moves i (· = i + 1) Flat.incInstrPtr := by
  intro t ht
  exact congrArg (· + 1) ht

theorem gotoNextInstr_moves : Moves i (· = i + 1) (gotoNextInstr (flatMacros p)) :=
  incInstrPtr_moves.bind fun _ => .of_preserves (.pure _)

theorem extrNextInstr_ip : Preserves Flat.ip (Flat.extrNextInstr p) := by
  refine ⟨fun t => ?_⟩
  by_cases h : 4 * t.ip < p.codeSize
  · rw [Flat.extrNextInstr_run h]
    rfl
  · rw [Flat.extrNextInstr_outside h]
    rfl

theorem fetchOperand_moves : Moves i (· = i + 1) (fetchOperand (flatMacros p)) :=
  incInstrPtr_moves.bind fun _ => .of_preserves extrNextInstr_ip

/-! ## The handlers -/

/-- The operand is the word behind the opcode. -/
theorem Moves.operand {w : Word} {f : Word → F α} (h : p.At (i + 1) w)
    (hf : Moves (i + 1) J (f w)) : Moves i J (fetchOperand (flatMacros p) >>= f) := by
  intro t ht
  subst ht
  rw [bind_ok (Flat.fetchOperand_run h)]
  exact hf _ rfl

/-- A target is the operand, unless it is out of bounds. -/
theorem Moves.target {w : Word} {f : ℕ → F α} (hf : Moves i J (f w.toNat)) :
    Moves i J (Flat.calcJmpTarget p w >>= f) := by
  intro t ht
  by_cases h : 4 * w.toNat < p.codeSize
  · rw [bind_ok (Flat.calcJmpTarget_run h)]
    exact hf t ht
  · rw [bind_error (Flat.calcJmpTarget_error (Nat.not_lt.mp h))]
    trivial

theorem instrJmp_moves {w : Word} (h : p.At (i + 1) w) (hJ : J w.toNat) :
    Moves i J (instrJmp (flatMacros p)) := by
  refine .operand h (.target ?_)
  have hjump : Moves (i + 1) (· = w.toNat) (Flat.jumpTo w.toNat) := fun t _ => rfl
  exact (hjump.bind fun _ => .of_preserves (.pure _)).mono hJ

/-- A conditional jump goes to its target or behind its operand. -/
theorem instrJcc_moves {w : Word} (cond : Word → Word → Bool) (h : p.At (i + 1) w)
    (hJ : J w.toNat) (hnext : J (i + 2)) : Moves i J (instrJcc (flatMacros p) cond) := by
  refine Moves.bind (.of_preserves extrStack_ip) fun edx => ?_
  refine Moves.bind (.of_preserves decStackPtr_ip) fun _ => ?_
  refine Moves.bind (.of_preserves extrStack_ip) fun ecx => ?_
  refine Moves.bind (.of_preserves decStackPtr_ip) fun _ => ?_
  split
  · exact instrJmp_moves h hJ
  · exact incInstrPtr_moves.bind fun _ => gotoNextInstr_moves.mono hnext

theorem instrPush_moves : Moves i (· = i + 2) (instrPush (flatMacros p)) := by
  refine fetchOperand_moves.bind fun edx => ?_
  refine Moves.bind (.of_preserves incStackPtr_ip) fun _ => ?_
  exact Moves.bind (.of_preserves (insStack_ip edx)) fun _ => gotoNextInstr_moves

theorem instrPrint_moves : Moves i (· = i + 1) (instrPrint (flatMacros p)) := by
  refine Moves.bind (.of_preserves extrStack_ip) fun edx => ?_
  refine Moves.bind (.of_preserves decStackPtr_ip) fun _ => ?_
  exact Moves.bind (.of_preserves (print_ip edx)) fun _ => gotoNextInstr_moves

theorem instrLoad_moves : Moves i (· = i + 2) (instrLoad (flatMacros p)) := by
  refine fetchOperand_moves.bind fun edx => ?_
  refine Moves.bind (.of_preserves (fetchCallElement_ip _)) fun ecx => ?_
  refine Moves.bind (.of_preserves incStackPtr_ip) fun _ => ?_
  exact Moves.bind (.of_preserves (insStack_ip ecx)) fun _ => gotoNextInstr_moves

theorem instrStore_moves : Moves i (· = i + 2) (instrStore (flatMacros p)) := by
  refine fetchOperand_moves.bind fun edx => ?_
  refine Moves.bind (.of_preserves extrStack_ip) fun ecx => ?_
  refine Moves.bind (.of_preserves decStackPtr_ip) fun _ => ?_
  exact Moves.bind (.of_preserves (saveCallElement_ip _ ecx)) fun _ => gotoNextInstr_moves

theorem instrArith_moves (op : Word → Word → Word) :
    Moves i (· = i + 1) (instrArith (flatMacros p) op) := by
  refine Moves.bind (.of_preserves extrStack_ip) fun edx => ?_
  refine Moves.bind (.of_preserves decStackPtr_ip) fun _ => ?_
  refine Moves.bind (.of_preserves extrStack_ip) fun ecx => ?_
  exact Moves.bind (.of_preserves (insStack_ip _)) fun _ => gotoNextInstr_moves

theorem instrDivide_moves (op : Word → Word → Word) :
    Moves i (· = i + 1) (instrDivide (flatMacros p) op) := by
  refine Moves.bind (.of_preserves extrStack_ip) fun ecx => ?_
  refine Moves.bind (.of_preserves decStackPtr_ip) fun _ => ?_
  split
  · exact .setError _
  · refine Moves.bind (.of_preserves extrStack_ip) fun eax => ?_
    exact Moves.bind (.of_preserves (insStack_ip _)) fun _ => gotoNextInstr_moves

theorem instrProlog_moves : Moves i (· = i + 2) (instrProlog (flatMacros p)) := by
  refine fetchOperand_moves.bind fun edx => ?_
  exact Moves.bind (.of_preserves (incCallPtr_ip _)) fun _ => gotoNextInstr_moves

theorem instrEpilog_moves : Moves i (· = i + 2) (instrEpilog (flatMacros p)) := by
  refine fetchOperand_moves.bind fun edx => ?_
  exact Moves.bind (.of_preserves (decCallPtr_ip _)) fun _ => gotoNextInstr_moves

theorem instrArgload_moves : Moves i (· = i + 2) (instrArgload (flatMacros p)) := by
  refine fetchOperand_moves.bind fun edx => ?_
  split
  · exact .setError _
  · exact Moves.bind (.of_preserves (saveCallElement_ip _ _)) fun _ => gotoNextInstr_moves

end Moving

/-! ## Dispatch -/

/-- The handler of an instruction that is no jump and no call leads behind it. -/
theorem passes_moves {p : Program} {i : ℕ} {e : CodeElem} (h : e.instr.passes = true)
    (hcall : e.instr ≠ .call) :
    Moves i (· = i + e.width) (jmpThroughTable (flatMacros p) (instrInfo e.instr).opcode) := by
  obtain ⟨instr, arg, callee⟩ := e
  cases instr with
  | nop => exact gotoNextInstr_moves
  | push => exact instrPush_moves
  | print => exact instrPrint_moves
  | load => exact instrLoad_moves
  | store => exact instrStore_moves
  | add => exact instrArith_moves _
  | sub => exact instrArith_moves _
  | mul => exact instrArith_moves _
  | div => exact instrDivide_moves _
  | mod => exact instrDivide_moves _
  | prolog => exact instrProlog_moves
  | epilog => exact instrEpilog_moves
  | argload => exact instrArgload_moves
  | call => exact absurd rfl hcall
  | _ => cases h

/-- The handler of a jump leads to its target, or behind it if it has a condition. -/
theorem jump_moves {p : Program} {i : ℕ} {e : CodeElem} (h : e.instr.isJump = true)
    (harg : p.At (i + 1) e.arg) :
    Moves i (e.Goes i) (jmpThroughTable (flatMacros p) (instrInfo e.instr).opcode) := by
  have hgoes : e.Goes i e.arg.toNat := .jump h
  obtain ⟨instr, arg, callee⟩ := e
  cases instr with
  | jmp => exact instrJmp_moves harg hgoes
  | jeq => exact instrJcc_moves _ harg hgoes (.next (.inr rfl))
  | jne => exact instrJcc_moves _ harg hgoes (.next (.inr rfl))
  | jl => exact instrJcc_moves _ harg hgoes (.next (.inr rfl))
  | jle => exact instrJcc_moves _ harg hgoes (.next (.inr rfl))
  | jg => exact instrJcc_moves _ harg hgoes (.next (.inr rfl))
  | jge => exact instrJcc_moves _ harg hgoes (.next (.inr rfl))
  | _ => cases h

theorem InstrType.isJump_hasArg {instr : InstrType} (h : instr.isJump = true) :
    (instrInfo instr).hasArg = true := by
  cases instr <;> first | rfl | cases h

/-- **The machine goes where the instruction leads**, calls and returns apart. -/
theorem dispatch_goes {p : Program} {t t' : Flat} {e : CodeElem} {l : List CodeElem}
    (hcode : p.Holds t.ip (e :: l)) (hcall : e.instr ≠ .call) (hret : e.instr ≠ .ret)
    (h : dispatch (flatMacros p) t = .ok .next t') : e.Goes t.ip t'.ip := by
  rw [Flat.dispatch_eq hcode.opcode] at h
  let t₁ : Flat := { t with trace := t.trace ++ [(instrInfo e.instr).opcode] }
  have hip : t₁.ip = t.ip := rfl
  by_cases hjump : e.instr.isJump = true
  · have hmoves := jump_moves hjump (hcode.operand (InstrType.isJump_hasArg hjump))
    exact (hmoves t₁ hip).ok h
  · by_cases hfinish : e.instr = .finish
    · rw [hfinish] at h
      cases h
    · have hpasses : e.instr.passes = true := by
        simp [InstrType.passes, hjump, hret, hfinish]
      rw [(passes_moves hpasses hcall t₁ hip).ok h]
      exact .next (.inl hpasses)

end Bispe
