import Bispe.Backend.Words

/-!
# The operand stack of any run

How many operands each instruction takes and leaves, and when the bounds checks of the
stack pointer stop it.  The pointer starts at the first word of the segment and is moved
before a word is pushed, so that word is never filled; the check for underflow is made
when the pointer would leave the segment, not when the last operand is taken.

## Main definitions

* `stackUse` — what an instruction takes from the operand stack and leaves there.
* `StackUse.Step` — what it computes from the words there.
* `Height` — the reachable states, with the pushes so far minus the pops.
* `OperandsExact` — the errors of an instruction are those of its operands.
-/

namespace Bispe

open Effect

/-- What an instruction does to the operand stack. -/
inductive StackUse
  | none
  | push
  /-- Push a word of the call stack. -/
  | load
  | print
  /-- Pop a word to the call stack. -/
  | store
  | arith (op : Word → Word → Word)
  | divide (op : Word → Word → Word)
  /-- Pop two words and jump if `cond` holds of them. -/
  | compare (cond : Word → Word → Bool)

def stackUse (opcode : Word) : StackUse :=
  match opcode.toNat with
  | 2 => .push
  | 3 => .print
  | 4 => .load
  | 5 => .store
  | 6 => .arith fun x y => x + y
  | 7 => .arith fun x y => x - y
  | 8 => .arith fun x y => x * y
  | 9 => .divide fun x y => x / y
  | 10 => .divide fun x y => x % y
  | 12 => .compare fun x y => x == y
  | 13 => .compare fun x y => x != y
  | 14 => .compare fun x y => x.slt y
  | 15 => .compare fun x y => x.sle y
  | 16 => .compare fun x y => y.slt x
  | 17 => .compare fun x y => y.sle x
  | _ => .none

/-- A jump that is taken executes its operand and goes on there; one that is not skips
it. -/
def Branched (ctx : Ctx) (s s' : St) (taken : Bool) : Prop :=
  if taken then ∃ n : Word, executed s'.log = executed s.log ++ [opcodeAt s, n] ∧
    s'.curInstrPtr = ctx.codeSegBp + 4 * n.toNat
  else executed s'.log = executed s.log ++ [opcodeAt s] ∧ s'.curInstrPtr = s.curInstrPtr + 8

namespace StackUse

/-- The operands an instruction consumes. -/
def consumed : StackUse → ℕ
  | .none | .push | .load => 0
  | .print | .store => 1
  | .arith _ | .divide _ | .compare _ => 2

/-- The values an instruction leaves. -/
def produced : StackUse → ℕ
  | .none | .print | .store | .compare _ => 0
  | .push | .load | .arith _ | .divide _ => 1

/-- The instruction pushes a new value. -/
def Pushes (u : StackUse) : Prop := u = .push ∨ u = .load

/-- What an instruction that goes on in `s'` has done: the words it computes with are
those on top of the stack, and it has popped them. -/
def Step (b : Build) (ctx : Ctx) (s s' : St) : StackUse → Prop
  | .none => operandStack b ctx s' = operandStack b ctx s
  | .push => ∃ n, executed s'.log = executed s.log ++ [opcodeAt s, n] ∧
      operandStack b ctx s' = n :: operandStack b ctx s
  | .load => ∃ i ≤ callIndex ctx s,
      operandStack b ctx s' = callWord b ctx s i :: operandStack b ctx s
  | .print => ∃ v, operandStack b ctx s = v :: operandStack b ctx s' ∧
      printed s'.log = printed s.log ++ [v]
  | .store => ∃ v, operandStack b ctx s = v :: operandStack b ctx s' ∧
      ∃ i ≤ callIndex ctx s, callWord b ctx s' i = v ∧
        ∀ j ≤ callIndex ctx s, j ≠ i → callWord b ctx s' j = callWord b ctx s j
  | .arith op => ∃ x y rest, operandStack b ctx s = y :: x :: rest ∧
      operandStack b ctx s' = op x y :: rest
  | .divide op => ∃ x y rest, operandStack b ctx s = y :: x :: rest ∧
      operandStack b ctx s' = op x y :: rest
  | .compare cond => ∃ x y, operandStack b ctx s = y :: x :: operandStack b ctx s' ∧
      Branched ctx s s' (cond x y)

/-- The errors other than underflow of an instruction that finds the words `l` on the
stack. -/
def Faults (l : List Word) (err : Err) : StackUse → Prop
  | .none => err ≠ .stackOverflow
  | .push => err = .stackOverflow
  | .load => err = .callUnderflow ∨ err = .stackOverflow
  | .print => False
  | .store => err = .callUnderflow
  | .arith _ => False
  | .divide _ => err = .divZero ∧ ∃ rest, l = 0 :: rest
  | .compare cond => err = .jmpBounds ∧ ∃ x y rest, l = y :: x :: rest ∧ cond x y

/-- What an instruction that goes on has done to the stack of the plain machine. -/
def Does (words : ℕ) (t t' : Flat) : StackUse → Prop
  | .none => t'.sp = t.sp ∧ t'.stack = t.stack
  | .push => t.sp + 1 < words ∧ t'.sp = t.sp + 1 ∧ ∃ n, t'.trace = t.trace ++ [n] ∧
      t'.stack = Function.update t.stack (t.sp + 1) (some n)
  | .load => t.sp + 1 < words ∧ t'.sp = t.sp + 1 ∧ ∃ i v, i ≤ t.cp ∧
      Flat.Reads (t.call i) v ∧ t'.stack = Function.update t.stack (t.sp + 1) (some v)
  | .print => t.sp ≠ 0 ∧ t'.sp = t.sp - 1 ∧ t'.stack = t.stack ∧
      ∃ v, Flat.Reads (t.stack t.sp) v ∧ t'.printed = t.printed ++ [v]
  | .store => t.sp ≠ 0 ∧ t'.sp = t.sp - 1 ∧ t'.stack = t.stack ∧ t'.cp = t.cp ∧
      ∃ i v, i ≤ t.cp ∧ Flat.Reads (t.stack t.sp) v ∧
        t'.call = Function.update t.call i (some v)
  | .arith op => t.sp ≠ 0 ∧ t'.sp = t.sp - 1 ∧ ∃ x y, Flat.Reads (t.stack (t.sp - 1)) x ∧
      Flat.Reads (t.stack t.sp) y ∧
      t'.stack = Function.update t.stack (t.sp - 1) (some (op x y))
  | .divide op => t.sp ≠ 0 ∧ t'.sp = t.sp - 1 ∧ ∃ x y, y ≠ 0 ∧
      Flat.Reads (t.stack (t.sp - 1)) x ∧ Flat.Reads (t.stack t.sp) y ∧
      t'.stack = Function.update t.stack (t.sp - 1) (some (op x y))
  | .compare cond => 2 ≤ t.sp ∧ t'.sp = t.sp - 2 ∧ t'.stack = t.stack ∧
      ∃ x y, Flat.Reads (t.stack (t.sp - 1)) x ∧ Flat.Reads (t.stack t.sp) y ∧
        Branches (cond x y) t t'

/-- An error that the operand stack has no part in. -/
def Unrelated (err : Err) : Prop := err ≠ .stackUnderflow ∧ err ≠ .stackOverflow

/-- The errors an instruction stops with. -/
def Fails (words : ℕ) (t : Flat) (err : Err) : StackUse → Prop
  | .none => Unrelated err
  | .push => err = .stackOverflow ∧ words ≤ t.sp + 1
  | .load => err = .callUnderflow ∨ (err = .stackOverflow ∧ words ≤ t.sp + 1)
  | .print => err = .stackUnderflow ∧ t.sp = 0
  | .store => (err = .stackUnderflow ∧ t.sp = 0) ∨ (err = .callUnderflow ∧ t.sp ≠ 0)
  | .arith _ => err = .stackUnderflow ∧ t.sp = 0
  | .divide _ => (err = .stackUnderflow ∧ t.sp = 0) ∨
      (err = .divZero ∧ t.sp ≠ 0 ∧ Flat.Reads (t.stack t.sp) 0)
  | .compare cond => (err = .stackUnderflow ∧ t.sp < 2) ∨
      (err = .jmpBounds ∧ 2 ≤ t.sp ∧ ∃ x y, Flat.Reads (t.stack (t.sp - 1)) x ∧
        Flat.Reads (t.stack t.sp) y ∧ cond x y)

end StackUse

section Handlers
open Flat StackUse
variable {p : Program}

/-- A handler uses the stack as its opcode says. -/
def Uses (p : Program) (w : Word) (x : F Ctl) : Prop :=
  ∀ t, Ends (fun _ t' => (stackUse w).Does p.stackWords t t')
    (Stops fun err _ => (stackUse w).Fails p.stackWords t err) (x t)

theorem Uses.of_ends {w : Word} {u : StackUse} {x : F Ctl} (hu : stackUse w = u)
    {Q : Flat → Flat → Prop} {P : Flat → Err → List Word → Prop}
    (h : ∀ t, HandlerEnds t x (Q t) (P t)) (hQ : ∀ t t', Q t t' → u.Does p.stackWords t t')
    (hP : ∀ t err l, P t err l → u.Fails p.stackWords t err) : Uses p w x := by
  intro t
  rw [hu]
  exact (h t).mono (fun _ t' ht' => hQ t t' ht'.2) fun _ _ he => he.mono (hP t)

theorem uses_none {w : Word} {x : F Ctl} (hu : stackUse w = .none) {Q : Flat → Flat → Prop}
    {P : Flat → Err → List Word → Prop} (h : ∀ t, HandlerEnds t x (Q t) (P t))
    (hQ : ∀ t t', Q t t' → t'.sp = t.sp ∧ t'.stack = t.stack)
    (hP : ∀ t err l, P t err l → Unrelated err) : Uses p w x := Uses.of_ends hu h hQ hP

theorem instrArith_uses {w : Word} {op op' : Word → Word → Word} (hu : stackUse w = .arith op)
    (hop : ∀ x y, op' x y = op x y) : Uses p w (instrArith (openMacros p) op') := by
  refine Uses.of_ends hu (fun t => instrArith_ends t op') ?_ fun _ _ _ h => h
  rintro t _ ⟨hpos, x, y, hx, hy, ip, ws, rfl⟩
  exact ⟨hpos, rfl, x, y, hx, hy, by simp only [hop]⟩

theorem instrDivide_uses {w : Word} {op : Word → Word → Word} (hu : stackUse w = .divide op) :
    Uses p w (instrDivide (openMacros p) op) := by
  refine Uses.of_ends hu (fun t => instrDivide_ends t op) ?_ fun _ _ _ h => h
  rintro t _ ⟨hpos, x, y, hne, hx, hy, ip, ws, rfl⟩
  exact ⟨hpos, rfl, x, y, hne, hx, hy, rfl⟩

theorem instrJcc_uses {w : Word} {cond : Word → Word → Bool} (hu : stackUse w = .compare cond) :
    Uses p w (instrJcc (openMacros p) cond) := by
  refine Uses.of_ends hu (fun t => instrJcc_ends t cond) ?_ fun _ _ _ h => h
  rintro t t' ⟨hle, x, y, hx, hy, hbranch, l, ip, ws, hnear⟩
  refine ⟨hle, ?_, ?_, x, y, hx, hy, hbranch⟩
  · rw [hnear]
  · rw [hnear]

theorem instrPush_uses : Uses p 2 (instrPush (openMacros p)) := by
  refine Uses.of_ends rfl instrPush_ends ?_ fun _ _ _ h => h
  rintro t _ ⟨hroom, n, ip, ws, rfl⟩
  exact ⟨hroom, rfl, n, rfl, rfl⟩

theorem instrPrint_uses : Uses p 3 (instrPrint (openMacros p)) := by
  refine Uses.of_ends rfl instrPrint_ends ?_ fun _ _ _ h => h
  rintro t _ ⟨hpos, v, hv, ip, ws, rfl⟩
  exact ⟨hpos, rfl, rfl, v, hv, rfl⟩

theorem instrLoad_uses : Uses p 4 (instrLoad (openMacros p)) := by
  refine Uses.of_ends rfl instrLoad_ends ?_ ?_
  · rintro t _ ⟨hroom, n, v, -, hv, ip, ws, rfl⟩
    exact ⟨hroom, rfl, _, v, Nat.sub_le _ _, hv, rfl⟩
  · rintro t err _ ⟨n, -, ⟨rfl, -⟩ | ⟨rfl, -, hfull⟩⟩
    · exact .inl rfl
    · exact .inr ⟨rfl, hfull⟩

theorem instrStore_uses : Uses p 5 (instrStore (openMacros p)) := by
  refine Uses.of_ends rfl instrStore_ends ?_ ?_
  · rintro t _ ⟨hpos, n, v, -, hv, ip, ws, rfl⟩
    exact ⟨hpos, rfl, rfl, rfl, _, v, Nat.sub_le _ _, hv, rfl⟩
  · rintro t err _ ⟨n, -, h | ⟨rfl, hpos, -⟩⟩
    · exact .inl h
    · exact .inr ⟨rfl, hpos⟩

/-- Every handler of the table uses the stack as its opcode says. -/
theorem instrTable_uses : List.Forall₂ (Uses p) opcodes (instrTable (openMacros p)) := by
  have hnop : Uses p 0 (instrNop (openMacros p)) :=
    uses_none rfl instrNop_ends (fun t t' ⟨_, _, h⟩ => h ▸ ⟨rfl, rfl⟩) fun _ _ _ => False.elim
  have hfinish : Uses p 1 (instrFinish (openMacros p)) := fun t =>
    (instrFinish_ends t).mono (fun _ t' h => h.2 ▸ ⟨rfl, rfl⟩)
      fun _ _ h => h.mono fun _ _ => False.elim
  have hjmp : Uses p 11 (instrJmp (openMacros p)) :=
    uses_none rfl instrJmp_ends (fun t t' ⟨_, _, _, _, h⟩ => h ▸ ⟨rfl, rfl⟩)
      fun _ _ _ h => by simp [h, Unrelated]
  have hcall : Uses p 18 (instrCall (openMacros p)) :=
    uses_none rfl instrCall_ends (fun t t' ⟨_, _, _, _, _, _, h⟩ => h ▸ ⟨rfl, rfl⟩)
      fun _ _ _ ⟨_, _, h⟩ => by rcases h with ⟨h, -⟩ | ⟨h, -⟩ <;> simp [h, Unrelated]
  have hret : Uses p 19 (instrRet (openMacros p)) :=
    uses_none rfl instrRet_ends (fun t t' ⟨_, _, _, _, _, _, h⟩ => h ▸ ⟨rfl, rfl⟩)
      fun _ _ _ ⟨_, _, h⟩ => by rcases h with ⟨h, -⟩ | ⟨h, -⟩ <;> simp [h, Unrelated]
  have hprolog : Uses p 20 (instrProlog (openMacros p)) :=
    uses_none rfl instrProlog_ends (fun t t' ⟨_, _, _, _, h⟩ => h ▸ ⟨rfl, rfl⟩)
      fun _ _ _ ⟨_, _, h, _⟩ => by simp [h, Unrelated]
  have hepilog : Uses p 21 (instrEpilog (openMacros p)) :=
    uses_none rfl instrEpilog_ends (fun t t' ⟨_, _, _, _, h⟩ => h ▸ ⟨rfl, rfl⟩)
      fun _ _ _ ⟨_, _, h, _⟩ => by simp [h, Unrelated]
  have hargload : Uses p 22 (instrArgload (openMacros p)) :=
    uses_none rfl instrArgload_ends (fun t t' ⟨_, _, _, _, _, h⟩ => h ▸ ⟨rfl, rfl⟩)
      fun _ _ _ h => by rcases h with h | h <;> simp [h, Unrelated]
  exact .cons hnop <| .cons hfinish <| .cons instrPush_uses <| .cons instrPrint_uses <|
    .cons instrLoad_uses <| .cons instrStore_uses <|
    .cons (instrArith_uses rfl fun _ _ => rfl) <| .cons (instrArith_uses rfl fun _ _ => rfl) <|
    .cons (instrArith_uses rfl fun x y => BitVec.mul_comm y x) <|
    .cons (instrDivide_uses rfl) <| .cons (instrDivide_uses rfl) <| .cons hjmp <|
    .cons (instrJcc_uses rfl) <| .cons (instrJcc_uses rfl) <| .cons (instrJcc_uses rfl) <|
    .cons (instrJcc_uses rfl) <| .cons (instrJcc_uses rfl) <| .cons (instrJcc_uses rfl) <|
    .cons hcall <| .cons hret <| .cons hprolog <| .cons hepilog <| .cons hargload .nil

theorem jmpThroughTable_uses (w : Word) : Uses p w (jmpThroughTable (openMacros p) w) := by
  refine jmpThroughTable_of_table (fun w hw t => ?_) instrTable_uses w
  have hnone : stackUse w = .none := by
    unfold stackUse maximumOpcode at *
    split <;> first | omega | rfl
  rw [hnone]
  exact .inr ⟨_, rfl, by simp [Fails, Unrelated]⟩

end Handlers

/-! ## Runs -/

section Runs
variable (b : Build) (ctx : Ctx)

/-- What a phase adds to the height of the stack. -/
def Phase.heightChange : Phase → St → ℤ
  | .dispatch, s => (stackUse (opcodeAt s)).produced - (stackUse (opcodeAt s)).consumed
  | _, _ => 0

/-- The states of an invocation that starts from `s₀`, with the values pushed so far
minus those popped. -/
inductive Height (s₀ : St) : Phase → St → ℤ → Prop
  | start : Height s₀ .idle (startState ctx s₀) 0
  | step {ph ph' : Phase} {s s' : St} {h : ℤ} : Height s₀ ph s h → ph.Live s →
      phaseStep b ctx ph s = .ok ph' s' → Height s₀ ph' s' (h + ph.heightChange s)
  | stop {ph : Phase} {s s' : St} {h : ℤ} {e : Err} : Height s₀ ph s h → ph.Live s →
      phaseStep b ctx ph s = .error (.error e) s' → Height s₀ .idle s' h
  | clear {s : St} {h : ℤ} (regs : CalleeRegs) : Height s₀ .idle s h →
      Height s₀ .idle (clearRegs regs s) h

variable {b ctx} {s₀ : St} {ph : Phase} {s : St}

theorem Height.reach {h : ℤ} (hs : Height b ctx s₀ ph s h) : Reach b ctx s₀ ph s := by
  induction hs with
  | start => exact .start
  | step _ hlive hrun ih => exact ih.step hlive hrun
  | stop _ hlive hrun ih => exact ih.stop hlive hrun
  | clear regs _ ih => exact .clear regs ih

theorem Reach.height (hs : Reach b ctx s₀ ph s) : ∃ h, Height b ctx s₀ ph s h := by
  induction hs with
  | start => exact ⟨0, .start⟩
  | step _ hlive hrun ih =>
      obtain ⟨h, hh⟩ := ih
      exact ⟨_, hh.step hlive hrun⟩
  | stop _ hlive hrun ih =>
      obtain ⟨h, hh⟩ := ih
      exact ⟨h, hh.stop hlive hrun⟩
  | clear regs _ ih =>
      obtain ⟨h, hh⟩ := ih
      exact ⟨h, .clear regs hh⟩

namespace StackUse

variable {words : ℕ} {t t' : Flat}

theorem Does.of_supply {u : StackUse} {ws : List Word}
    (h : u.Does words { t with supply := ws } t') : u.Does words t t' := by
  cases u <;> exact h

theorem Fails.of_supply {u : StackUse} {err : Err} {l ws : List Word}
    (h : u.Fails words { t with trace := l, supply := ws } err) : u.Fails words t err := by
  cases u <;> exact h

theorem Does.sp_eq {u : StackUse} (h : u.Does words t t') :
    (t'.sp : ℤ) = t.sp + (u.produced - u.consumed) := by
  cases u <;> simp only [Does, produced, consumed] at h ⊢ <;> omega

end StackUse

/-- What an instruction of the interpreter does to its operand stack, after its opcode
has been executed. -/
theorem dispatch_uses (hb : b.Inverts) (hc : ctx.Aligned) (hd : ctx.Apart) {m₀ : ℤ → Word}
    {t : Flat} (hs : Inside ctx m₀ s) (hst : Sim b ctx m₀ s t) :
    Ends (fun c s' => Inside ctx m₀ s' ∧ ∃ c' t', ExitRel c c' ∧ Sim b ctx m₀ s' t' ∧
        (stackUse (opcodeAt s)).Does (ctx.stackSegSize / 4)
          { t with trace := t.trace ++ [opcodeAt s] } t')
      (fun e _ => ∃ err, e = .error err ∧
        (stackUse (opcodeAt s)).Fails (ctx.stackSegSize / 4) t err)
      (dispatch (macros b ctx) s) := by
  refine dispatch_transfer hb hc hd hs hst
    (P := fun err _ => (stackUse (opcodeAt s)).Fails (ctx.stackSegSize / 4) t err) fun ws => ?_
  refine (jmpThroughTable_uses (opcodeAt s) _).mono (fun _ _ h => ?_) fun _ _ h => h.mono ?_
  · exact StackUse.Does.of_supply (t := { t with trace := t.trace ++ [opcodeAt s] }) h
  · exact fun _ _ he => he.of_supply

/-- Every reachable state that can go on has a counterpart on the plain machine, and
the height of the stack is its stack pointer. -/
theorem Height.sim (hb : b.Inverts) (hc : ctx.Aligned) (hd : ctx.Apart) {h : ℤ}
    (hs : Height b ctx s₀ ph s h) (hlive : ph.Live s) :
    ∃ t, PhaseSim b ctx s₀.mem ph s t ∧ (t.sp : ℤ) = h := by
  induction hs with
  | start => exact ⟨_, start_phaseSim hc s₀, rfl⟩
  | @step ph ph' s s' h hs hlive' hrun ih =>
      obtain ⟨t, hsim, hsp⟩ := ih hlive'
      cases ph with
      | idle =>
          obtain ⟨s₁, hrun₁, hs₁, hst₁⟩ := bispeCycleEntry_sim hc hd hsim.1 hsim.2
          have hstep : phaseStep b ctx .idle s = .ok .dispatch s₁ := bind_ok hrun₁
          cases hstep.symm.trans hrun
          exact ⟨t, ⟨hs₁, hst₁⟩, by simp [Phase.heightChange, hsp]⟩
      | dispatch =>
          obtain ⟨c, s₁, hd₁, hphase⟩ := bind_eq_ok hrun
          have huses := dispatch_uses hb hc hd hsim.1 hsim.2
          rw [hd₁] at huses
          obtain ⟨hs₁, -, t', -, hst', hdoes⟩ := huses
          refine ⟨t', ?_, ?_⟩
          · cases c <;> cases hphase <;> exact ⟨hs₁, hst'⟩
          · rw [hdoes.sp_eq, hsp]
            rfl
      | outro =>
          obtain ⟨s₁, hrun₁, hs₁, hst₁⟩ := bispeCycleOutro_sim hb hc hd hsim.1 hsim.2
          have hstep : phaseStep b ctx .outro s = .ok .idle s₁ := bind_ok hrun₁
          cases hstep.symm.trans hrun
          exact ⟨t, ⟨hs₁, hst₁⟩, by simp [Phase.heightChange, hsp]⟩
  | stop hs hlive' hrun _ =>
      have hsafe := phaseStep_safe (b := b) hc (hs.reach.safe hc) hlive'
      rw [hrun] at hsafe
      exact (Bool.false_ne_true ((hlive rfl).symm.trans hsafe.2.1)).elim
  | clear regs _ ih =>
      obtain ⟨t, hsim, hsp⟩ := ih hlive
      exact ⟨t, clearRegs_phaseSim regs hsim, hsp⟩

end Runs

/-! ## Exactness -/

def StackUse.IsArith (u : StackUse) : Prop := ∃ op, u = .arith op

def StackUse.IsDivide (u : StackUse) : Prop := ∃ op, u = .divide op

/-- The next instruction divides by the operand on top, which is zero. -/
def DividesByZero (b : Build) (ctx : Ctx) (s : St) (h : ℤ) : Prop :=
  (stackUse (opcodeAt s)).IsDivide ∧ 1 ≤ h ∧ stackWord b ctx s h.toNat = 0

/-- The stack errors of the next instruction are exact, with `h` values on a stack of
`l` lines, its other errors are those of the words it finds, and it works on pushed words
only. -/
structure OperandsExact (b : Build) (ctx : Ctx) (l : ℕ) (s : St) (h : ℤ) : Prop where
  underflow : ¬ DividesByZero b ctx s h →
    (StopsWith b ctx s .stackUnderflow ↔ h < (stackUse (opcodeAt s)).consumed)
  overflow : (stackUse (opcodeAt s)).Pushes →
    ¬ (stackUse (opcodeAt s) = .load ∧ StopsWith b ctx s .callUnderflow) →
    (StopsWith b ctx s .stackOverflow ↔ h + 1 > 4 * l - 1)
  faults : ∀ e, StopsWith b ctx s e → e ≠ .stackUnderflow →
    (stackUse (opcodeAt s)).Faults (operandStack b ctx s) e
  pushed : ∀ c s', dispatch (macros b ctx) s = .ok c s' →
    (stackUse (opcodeAt s)).Step b ctx s s'

/-- One value is on the stack, and the next instruction is an arithmetic one that does
not stop at a zero divisor. -/
def OneOperand (b : Build) (ctx : Ctx) (s : St) (h : ℤ) : Prop :=
  h = 1 ∧ ((stackUse (opcodeAt s)).IsArith ∨
    ((stackUse (opcodeAt s)).IsDivide ∧ stackWord b ctx s 1 ≠ 0))

section Exact
variable {b : Build} {ctx : Ctx} {m₀ : ℤ → Word} {s s' : St} {t t' : Flat}

/-- Two words on top of a stack. -/
theorem wordsFrom_two {f : ℕ → Word} {n : ℕ} {x y : Word} (hn : 2 ≤ n) (hx : f (n - 1) = x)
    (hy : f n = y) : wordsFrom f n = y :: x :: wordsFrom f (n - 2) := by
  obtain ⟨k, rfl⟩ : ∃ k, n = k + 2 := ⟨n - 2, by omega⟩
  rw [← hx, ← hy]
  rfl

/-- A jump of the plain machine is one of the interpreter. -/
theorem Branches.branched {taken : Bool} (hst : Sim b ctx m₀ s t) (hst' : Sim b ctx m₀ s' t')
    (h : Branches taken { t.filled b ctx s with trace := t.trace ++ [opcodeAt s] } t') :
    Branched ctx s s' taken := by
  have htrace := hst.observed.trace
  have htrace' := hst'.observed.trace
  have hip' := hst'.ip
  cases taken with
  | true =>
      obtain ⟨n, htr, hip⟩ := h
      refine ⟨n, ?_, ?_⟩
      · rw [htrace', htr, htrace, List.append_assoc]
        rfl
      · rw [hip', hip]
  | false =>
      obtain ⟨htr, hip⟩ := h
      refine ⟨?_, ?_⟩
      · rw [htrace', htr, htrace]
      · have hnext : t'.ip = t.ip + 2 := hip
        rw [hip', hst.ip, hnext]
        omega

/-- From the words that are there, an instruction with all its operands does what it
should. -/
theorem StackUse.Does.step {u : StackUse} {words : ℕ} (hst : Sim b ctx m₀ s t)
    (hst' : Sim b ctx m₀ s' t')
    (h : u.Does words { t.filled b ctx s with trace := t.trace ++ [opcodeAt s] } t')
    (hone : t.sp = 1 → ¬ u.IsArith ∧ ¬ u.IsDivide) : u.Step b ctx s s' := by
  have htrace := hst.observed.trace
  have htrace' := hst'.observed.trace
  have hstack := hst.operandStack_eq
  have hstack' := hst'.operandStack_eq
  -- a word that is read is the one that is there
  have hread {i : ℕ} {w : Word} (hr : Flat.Reads (some (stackWord b ctx s i)) w) :
      stackWord b ctx s i = w := (hr _ rfl).symm
  -- the words that an instruction leaves alone
  have hsame {n : ℕ} (hn : n ≤ t'.sp) (heq : ∀ i ≤ n, t'.stack i = some (stackWord b ctx s i)) :
      wordsFrom (stackWord b ctx s') n = wordsFrom (stackWord b ctx s) n :=
    wordsFrom_congr fun i _ hi => hst'.stackWord_eq (hi.trans hn) (heq i hi)
  -- a word pushed on `n` others
  have hpush {n : ℕ} {v : Word} (hn : n + 1 = t'.sp)
      (heq : t'.stack = Function.update (fun i => some (stackWord b ctx s i)) (n + 1) (some v)) :
      operandStack b ctx s' = v :: wordsFrom (stackWord b ctx s) n := by
    have htop : t'.stack (n + 1) = some v := by rw [heq, Function.update_self]
    rw [hstack', ← hn, wordsFrom, hst'.stackWord_eq (le_of_eq hn) htop, hsame (by omega)]
    intro i hi
    rw [heq, Function.update_of_ne (by omega)]
  -- the words left by an instruction that pops `d` of them
  have hpop {d : ℕ} (hsp : t'.sp = t.sp - d)
      (heq : t'.stack = fun i => some (stackWord b ctx s i)) :
      operandStack b ctx s' = wordsFrom (stackWord b ctx s) (t.sp - d) := by
    rw [hstack', hsame (le_refl _) fun i _ => by rw [heq], hsp]
  have htop {v : Word} (hpos : t.sp ≠ 0) (hv : Flat.Reads (some (stackWord b ctx s t.sp)) v) :
      operandStack b ctx s = v :: wordsFrom (stackWord b ctx s) (t.sp - 1) := by
    obtain ⟨n, hn⟩ := Nat.exists_eq_succ_of_ne_zero hpos
    rw [hstack, ← hread hv, hn]
    rfl
  -- the result of an operation on the two top words
  have hop {op : Word → Word → Word} {x y : Word} (hpos : t.sp ≠ 0) (hne : t.sp ≠ 1)
      (hsp : t'.sp = t.sp - 1) (hx : Flat.Reads (some (stackWord b ctx s (t.sp - 1))) x)
      (hy : Flat.Reads (some (stackWord b ctx s t.sp)) y)
      (heq : t'.stack =
        Function.update (fun i => some (stackWord b ctx s i)) (t.sp - 1) (some (op x y))) :
      ∃ x y rest, operandStack b ctx s = y :: x :: rest ∧
        operandStack b ctx s' = op x y :: rest := by
    refine ⟨x, y, wordsFrom (stackWord b ctx s) (t.sp - 2), ?_, hpush (by omega) ?_⟩
    · rw [hstack, wordsFrom_two (by omega) (hread hx) (hread hy)]
    · rw [heq, show t.sp - 2 + 1 = t.sp - 1 by omega]
  cases u with
  | none =>
      obtain ⟨hsp, heq⟩ := h
      exact (hpop (d := 0) hsp heq).trans hstack.symm
  | push =>
      obtain ⟨-, hsp, n, htr, heq⟩ := h
      refine ⟨n, ?_, ?_⟩
      · rw [htrace', htr, htrace, List.append_assoc]
        rfl
      · rw [hstack]
        exact hpush hsp.symm heq
  | load =>
      obtain ⟨-, hsp, i, v, hi, hv, heq⟩ := h
      refine ⟨i, ?_, ?_⟩
      · rw [hst.callIndex_eq]
        exact hi
      · rw [hstack, ← hv _ rfl]
        exact hpush hsp.symm heq
  | print =>
      obtain ⟨hpos, hsp, heq, v, hv, hprinted⟩ := h
      refine ⟨v, ?_, ?_⟩
      · rw [hpop hsp heq]
        exact htop hpos hv
      · rw [hst'.observed.printed, hprinted, hst.observed.printed]
        rfl
  | store =>
      obtain ⟨hpos, hsp, heq, hcp, i, v, hi, hv, hcall⟩ := h
      refine ⟨v, ?_, i, ?_, ?_, ?_⟩
      · rw [hpop hsp heq]
        exact htop hpos hv
      · rw [hst.callIndex_eq]
        exact hi
      · exact hst'.callWord_eq (hcp ▸ hi) (by rw [hcall, Function.update_self])
      · intro j hj hne
        rw [hst.callIndex_eq] at hj
        refine hst'.callWord_eq (hcp ▸ hj) ?_
        rw [hcall, Function.update_of_ne hne]
        rfl
  | arith op =>
      obtain ⟨hpos, hsp, x, y, hx, hy, heq⟩ := h
      exact hop hpos (fun h1 => (hone h1).1 ⟨op, rfl⟩) hsp hx hy heq
  | divide op =>
      obtain ⟨hpos, hsp, x, y, -, hx, hy, heq⟩ := h
      exact hop hpos (fun h1 => (hone h1).2 ⟨op, rfl⟩) hsp hx hy heq
  | compare cond =>
      obtain ⟨hle, hsp, heq, x, y, hx, hy, hbranch⟩ := h
      refine ⟨x, y, ?_, ?_⟩
      · rw [hpop hsp heq, hstack]
        exact wordsFrom_two hle (hread hx) (hread hy)
      · exact hbranch.branched hst hst'

/-- The next instruction of a reachable state, on the plain machine whose words are
those that are there. -/
theorem Height.outcome (hb : b.Inverts) (hc : ctx.Aligned) (hd : ctx.Apart) {l : ℕ}
    (hl : ctx.stackSegSize = 16 * l) {s₀ : St} {h : ℤ} (hs : Height b ctx s₀ .dispatch s h) :
    ∃ t : Flat, (t.sp : ℤ) = h ∧ Sim b ctx s₀.mem s t ∧
      ((∃ e s', dispatch (macros b ctx) s = .error (.error e) s' ∧
          (stackUse (opcodeAt s)).Fails (4 * l) (t.filled b ctx s) e) ∨
        ∃ c s' t', dispatch (macros b ctx) s = .ok c s' ∧ (stackUse (opcodeAt s)).Does (4 * l)
          { t.filled b ctx s with trace := t.trace ++ [opcodeAt s] } t' ∧
          Sim b ctx s₀.mem s' t') := by
  obtain ⟨t, ⟨hin, hst⟩, hsp⟩ := hs.sim hb hc hd (fun hidle => nomatch hidle)
  have hwords : ctx.stackSegSize / 4 = 4 * l := by omega
  have huses := dispatch_uses hb hc hd hin hst.total
  rw [hwords] at huses
  refine ⟨t, hsp, hst, ?_⟩
  cases hrun : dispatch (macros b ctx) s with
  | ok c s' =>
      rw [hrun] at huses
      obtain ⟨-, -, t', -, hst', hdoes⟩ := huses
      exact .inr ⟨c, s', t', rfl, hdoes, hst'⟩
  | error e s' =>
      rw [hrun] at huses
      obtain ⟨err, rfl, hfails⟩ := huses
      exact .inl ⟨err, s', rfl, hfails⟩

namespace StackUse

variable {u : StackUse} {words : ℕ} {err : Err}

/-- Underflow is reported when an operand is missing. -/
theorem Fails.underflow (h : u.Fails words t .stackUnderflow) :
    t.sp < u.consumed ∧ (u.IsArith ∨ u.IsDivide → t.sp = 0) := by
  cases u <;> simp [Fails, Unrelated, consumed, IsArith, IsDivide] at h ⊢ <;> omega

/-- When an operand is missing, only a zero divisor is reported instead. -/
theorem Fails.of_lt (h : u.Fails words t err) (hlt : t.sp < u.consumed) :
    err = .stackUnderflow ∨ (u.IsDivide ∧ t.sp ≠ 0 ∧ Flat.Reads (t.stack t.sp) 0) := by
  cases u with
  | none => exact (Nat.not_lt_zero _ hlt).elim
  | push => exact (Nat.not_lt_zero _ hlt).elim
  | load => exact (Nat.not_lt_zero _ hlt).elim
  | print => exact .inl h.1
  | store =>
      obtain ⟨he, -⟩ | ⟨-, hpos⟩ := h
      · exact .inl he
      · exact (hpos (Nat.lt_one_iff.mp hlt)).elim
  | arith op => exact .inl h.1
  | divide op =>
      obtain ⟨he, -⟩ | ⟨-, hpos, hzero⟩ := h
      · exact .inl he
      · exact .inr ⟨⟨op, rfl⟩, hpos, hzero⟩
  | compare cond =>
      obtain ⟨he, -⟩ | ⟨-, hle, -⟩ := h
      · exact .inl he
      · exact (Nat.not_lt.mpr hle hlt).elim

/-- The other errors are those of the words that are found. -/
theorem Fails.faults {b : Build} {ctx : Ctx} {m₀ : ℤ → Word} {s : St} (hst : Sim b ctx m₀ s t)
    (h : u.Fails words (t.filled b ctx s) err) (hne : err ≠ .stackUnderflow) :
    u.Faults (operandStack b ctx s) err := by
  have hstack := hst.operandStack_eq
  have hread {i : ℕ} {w : Word} (hr : Flat.Reads (some (stackWord b ctx s i)) w) :
      stackWord b ctx s i = w := (hr _ rfl).symm
  cases u with
  | none => exact h.2
  | push => exact h.1
  | load => exact h.imp id And.left
  | print => exact hne h.1
  | store =>
      obtain ⟨he, -⟩ | ⟨he, -⟩ := h
      · exact (hne he).elim
      · exact he
  | arith op => exact hne h.1
  | divide op =>
      obtain ⟨he, -⟩ | ⟨he, hpos, hzero⟩ := h
      · exact (hne he).elim
      · obtain ⟨n, hn⟩ := Nat.exists_eq_succ_of_ne_zero hpos
        refine ⟨he, wordsFrom (stackWord b ctx s) n, ?_⟩
        rw [hstack, ← hread hzero]
        change wordsFrom _ t.sp = stackWord b ctx s t.sp :: _
        rw [show t.sp = n + 1 from hn]
        rfl
  | compare cond =>
      obtain ⟨he, -⟩ | ⟨he, hle, x, y, hx, hy, hc⟩ := h
      · exact (hne he).elim
      · exact ⟨he, x, y, _, hstack.trans (wordsFrom_two hle (hread hx) (hread hy)), hc⟩

/-- An instruction that goes on has its operands, or is an arithmetic one with a single
operand, which is no zero divisor. -/
theorem Does.consumed_le (h : u.Does words t t') : u.consumed ≤ t.sp ∨ (t.sp = 1 ∧
    (u.IsArith ∨ (u.IsDivide ∧ ∃ y, y ≠ 0 ∧ Flat.Reads (t.stack t.sp) y))) := by
  cases u with
  | none => exact .inl (Nat.zero_le _)
  | push => exact .inl (Nat.zero_le _)
  | load => exact .inl (Nat.zero_le _)
  | print => exact .inl (Nat.one_le_iff_ne_zero.mpr h.1)
  | store => exact .inl (Nat.one_le_iff_ne_zero.mpr h.1)
  | arith op =>
      have hpos := h.1
      by_cases hone : t.sp = 1
      · exact .inr ⟨hone, .inl ⟨op, rfl⟩⟩
      · exact .inl (by simp only [consumed]; omega)
  | divide op =>
      obtain ⟨hpos, -, x, y, hne, -, hy, -⟩ := h
      by_cases hone : t.sp = 1
      · exact .inr ⟨hone, .inr ⟨⟨op, rfl⟩, y, hne, hy⟩⟩
      · exact .inl (by simp only [consumed]; omega)
  | compare cond => exact .inl h.1

theorem Fails.overflow (h : u.Fails words t .stackOverflow) : words ≤ t.sp + 1 := by
  cases u <;> simp [Fails, Unrelated] at h <;> omega

theorem Fails.of_pushes (h : u.Fails words t err) (hu : u.Pushes) :
    err = .stackOverflow ∨ (u = .load ∧ err = .callUnderflow) := by
  obtain rfl | rfl := hu
  · exact .inl h.1
  · obtain he | ⟨he, -⟩ := h
    · exact .inr ⟨rfl, he⟩
    · exact .inl he

theorem Does.room (h : u.Does words t t') (hu : u.Pushes) : t.sp + 1 < words := by
  obtain rfl | rfl := hu
  · exact h.1
  · exact h.1

end StackUse

end Exact

/-- Memory in which the first line of code decrypts to `PUSH 7`, `ADD`, `FINISH`. -/
def addState : St :=
  { nopState with
    mem := fun a => if a = 16 then 7 else if a = 20 then 2 else if a = 24 then 3
      else if a = 28 then 4 else 0 }

end Bispe
