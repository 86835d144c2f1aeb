import Bispe.Compiler.Arithmetic
import Bispe.Lib.Tracking

/-!
# The meaning of programs

What a program prints and how it ends, by its syntax and without any code.  A variable
is a word that belongs to one activation of its function; operands and arguments are
evaluated from left to right, additions and comparisons are those of signed integers, and
a division is that of unsigned ones, which is what `DIV` computes.  The bound limits the
depth of calls and the rounds of every loop.

A program has no meaning where it reads a variable that has not been assigned, calls a
function that is not defined or with another number of arguments, uses the value of a
call that returns none, or drops the value of a call statement.

## Main definitions

* `Valuation`, `Flow` — the variables of an activation, and where a statement leads.
* `Expr.sem`, `Stmt.sem` — the meaning of a phrase, by that of calls.
* `callSem`, `runProgram` — the meaning of a call and of a program.
* `WellFormed` — the programs whose code has this meaning.
* `runProgram_onlyDivZero` — the only fault is a division by zero.
-/

namespace Bispe

open Tracking

/-- The words of the variables that have been assigned. -/
abbrev Valuation := String → Option Word

/-- A statement goes on to the next one, or returns from its function. -/
abbrev Flow := Valuation ⊕ Option Word

abbrev Sem := Eval Word Err

/-- A value that has to be there. -/
def needed : Option Word → Sem Word
  | some w => pure w
  | none => .trap .undefined

/-- A value that must not be there. -/
def unneeded : Option Word → Sem Unit
  | none => pure ()
  | some _ => .trap .undefined

def NumOp.sem (op : NumOp) (a b : Word) : Sem Word :=
  match op.eval a b with
  | some w => pure w
  | none => .trap (.fault .divZero)

/-- Go on unless the function has returned. -/
def goOn (next : Valuation → Sem Flow) : Flow → Sem Flow
  | .inl ρ => next ρ
  | .inr v => pure (.inr v)

section Meaning
variable (call : String → List Word → Sem (Option Word))

mutual

def Expr.sem (ρ : Valuation) : Expr → Sem Word
  | .unary u => u.sem ρ
  | .bin u op e => do
      let a ← u.sem ρ
      let b ← e.sem ρ
      op.sem a b

def Unary.sem (ρ : Valuation) : Unary → Sem Word
  | .call g args => do
      let ws ← args.sem ρ
      let v ← call g ws
      needed v
  | .var x => needed (ρ x)
  | .lit n => pure n
  | .paren e => e.sem ρ

def Args.sem (ρ : Valuation) : Args → Sem (List Word)
  | .empty => pure []
  | .last e => do
      let w ← e.sem ρ
      pure [w]
  | .cons e args => do
      let w ← e.sem ρ
      let ws ← args.sem ρ
      pure (w :: ws)

end

def Cond.sem (c : Cond) (ρ : Valuation) : Sem Bool := do
  let a ← c.left.sem call ρ
  let b ← c.right.sem call ρ
  pure (c.op.holds a.toInt b.toInt)

def assign (x : String) (e : Expr) (ρ : Valuation) : Sem Valuation := do
  let w ← e.sem call ρ
  pure (Function.update ρ x (some w))

/-- A definition without a value leaves the variable as it is. -/
def Simple.sem : Simple → Valuation → Sem Valuation
  | .varDef _ _ none, ρ => pure ρ
  | .varDef _ x (some e), ρ => assign call x e ρ
  | .varAssign x e, ρ => assign call x e ρ

/-- A definition or an assignment as a statement. -/
def Simple.flow (s : Simple) (ρ : Valuation) : Sem Flow := do
  let ρ ← s.sem call ρ
  pure (.inl ρ)

/-- A statement whose loops have at most `k` rounds. -/
def Stmt.sem (k : ℕ) : Stmt → Valuation → Sem Flow
  | .skip, ρ => pure (.inl ρ)
  | .seq s rest, ρ => do
      let flow ← s.sem k ρ
      goOn (fun ρ => rest.sem k ρ) flow
  | .simple s, ρ => s.flow call ρ
  | .call g args, ρ => do
      let ws ← args.sem call ρ
      let v ← call g ws
      unneeded v
      pure (.inl ρ)
  | .print e, ρ => do
      let w ← e.sem call ρ
      Eval.print w
      pure (.inl ρ)
  | .ret none, _ => pure (.inr none)
  | .ret (some e), ρ => do
      let w ← e.sem call ρ
      pure (.inr (some w))
  | .ifThen c s, ρ => do
      if ← c.sem call ρ then s.sem k ρ else pure (.inl ρ)
  | .ifElse c s₁ s₂, ρ => do
      if ← c.sem call ρ then s₁.sem k ρ else s₂.sem k ρ
  | .whileLoop c body, ρ => Eval.rounds (c.sem call) (fun ρ => body.sem k ρ) k ρ
  | .forLoop init c x e body, ρ => do
      let ρ ← init.sem call ρ
      Eval.rounds (c.sem call)
        (fun ρ => do
          let flow ← body.sem k ρ
          goOn ((Simple.varAssign x e).flow call) flow) k ρ
  | .doLoop body c, ρ => do
      let flow ← body.sem k ρ
      goOn (Eval.rounds (c.sem call) (fun ρ => body.sem k ρ) k) flow

end Meaning

/-- The variables at the start of a function. -/
def Func.arguments (f : Func) (args : List Word) : Valuation :=
  fun x => args[f.params.names.idxOf x]?

/-- What a call has returned; a function that comes to its end returns nothing. -/
def returned : Flow → Option Word
  | .inl _ => none
  | .inr v => v

/-- A call, by the definitions of the program. -/
def callSem (defs : String → Option Func) : ℕ → String → List Word → Sem (Option Word)
  | 0, _, _ => .trap .timeout
  | k + 1, g, args =>
      match defs g with
      | none => .trap .undefined
      | some f =>
          if args.length = f.params.names.length then do
            let flow ← f.body.sem (callSem defs k) k (f.arguments args)
            pure (returned flow)
          else .trap .undefined

/-- The first definition of a name. -/
def definitions : List Item → String → Option Func
  | [], _ => none
  | .proto _ :: items, g => definitions items g
  | .func f :: items, g => if f.name = g then some f else definitions items g

/-- A program with its arguments: `main` takes as many as it has parameters. -/
def runProgram (items : List Item) (args : List Word) (k : ℕ) : Sem (Option Word) :=
  match definitions items "main" with
  | none => .trap .undefined
  | some main => callSem (definitions items) k "main" (args.take main.params.names.length)

/-! ## Programs -/

/-- A statement that never goes on to the next one. -/
def Stmt.returns : Stmt → Bool
  | .ret _ => true
  | .seq s rest => s.returns || rest.returns
  | .ifElse _ s₁ s₂ => s₁.returns && s₂.returns
  | _ => false

/-- Whether the last instruction of a statement is a `RET`, if it has an instruction. -/
def Stmt.lastRet : Stmt → Option Bool
  | .skip => none
  | .seq s rest => rest.lastRet.or s.lastRet
  | .simple (.varDef _ _ none) => none
  | .ret _ => some true
  | .ifThen _ s => s.lastRet.or (some false)
  | .ifElse _ _ s₂ => s₂.lastRet.or (some false)
  | _ => some false

/-- The end of the function is not reached, or the code of its body does not end in a
`RET`, so that one is appended. -/
def Func.Closes (f : Func) : Prop :=
  f.body.returns = true ∨ f.body.lastRet = some false ∨
    (f.body.lastRet = none ∧ f.body.defs ≠ [])

instance (f : Func) : Decidable f.Closes := by
  unfold Func.Closes
  infer_instance

/-- Every call is to the function it is in or to one that is defined before; prototypes
repeat the parameters of their definitions; and no function runs past its end. -/
structure WellFormed (items : List Item) : Prop where
  backward : ∀ pre f post, items = pre ++ .func f :: post → ∀ c ∈ f.body.calls,
    (definitions (pre ++ [.func f]) c.callee).isSome = true
  repeats : ∀ p f, .proto p ∈ items → .func f ∈ items → p.name = f.name →
    p.params.names = f.params.names
  closes : ∀ f, .func f ∈ items → f.Closes

/-! ## Statements that return -/

section Returning
variable {call : String → List Word → Sem (Option Word)}

theorem goOn_eq_ok {next : Valuation → Sem Flow} {flow : Flow} {ρ : Valuation}
    (h : (goOn next flow).result = .ok (.inl ρ)) :
    ∃ ρ', flow = .inl ρ' ∧ (next ρ').result = .ok (.inl ρ) := by
  cases flow with
  | inl ρ' => exact ⟨ρ', rfl, h⟩
  | inr v =>
      have hflow := Except.ok.inj h
      simp at hflow

/-- **A statement that returns** does not go on to the next one. -/
theorem Stmt.sem_returns {k : ℕ} {st : Stmt} (hst : st.returns = true) {ρ ρ' : Valuation} :
    (st.sem call k ρ).result ≠ .ok (.inl ρ') := by
  induction st generalizing ρ ρ' with
  | ret e =>
      intro h
      cases e with
      | none =>
          have hflow := Except.ok.inj h
          simp at hflow
      | some e =>
          obtain ⟨w, -, h⟩ := Eval.bind_eq_ok h
          have hflow := Except.ok.inj h
          simp at hflow
  | seq st rest ih₁ ih₂ =>
      intro h
      rw [Stmt.returns, Bool.or_eq_true] at hst
      obtain ⟨flow, hfirst, h⟩ := Eval.bind_eq_ok h
      obtain ⟨ρ₁, rfl, hrest⟩ := goOn_eq_ok h
      rcases hst with hst | hst
      · exact ih₁ hst hfirst
      · exact ih₂ hst hrest
  | ifElse c s₁ s₂ ih₁ ih₂ =>
      intro h
      rw [Stmt.returns, Bool.and_eq_true] at hst
      obtain ⟨b, -, h⟩ := Eval.bind_eq_ok h
      cases b with
      | true => exact ih₁ hst.1 h
      | false => exact ih₂ hst.2 h
  | _ => cases hst

end Returning

/-! ## Faults -/

/-- The only fault of the language is a division by zero. -/
def Sem.OnlyDivZero {α : Type} (x : Sem α) : Prop := Eval.Faults (fun e => e = .divZero) x

section Faults
variable {call : String → List Word → Sem (Option Word)}

theorem needed_onlyDivZero (v : Option Word) : Sem.OnlyDivZero (needed v) := by
  cases v with
  | none => exact .undefined
  | some w => exact .pure w

theorem unneeded_onlyDivZero (v : Option Word) : Sem.OnlyDivZero (unneeded v) := by
  cases v with
  | none => exact .pure ()
  | some w => exact .undefined

theorem NumOp.onlyDivZero (op : NumOp) (a b : Word) : Sem.OnlyDivZero (op.sem a b) := by
  rw [NumOp.sem]
  cases op.eval a b with
  | none => exact .fault rfl
  | some w => exact .pure w

theorem goOn_onlyDivZero {next : Valuation → Sem Flow} (h : ∀ ρ, Sem.OnlyDivZero (next ρ))
    (flow : Flow) : Sem.OnlyDivZero (goOn next flow) := by
  cases flow with
  | inl ρ => exact h ρ
  | inr v => exact .pure _

mutual

theorem Expr.onlyDivZero (hcall : ∀ g args, Sem.OnlyDivZero (call g args)) (ρ : Valuation) :
    ∀ e : Expr, Sem.OnlyDivZero (e.sem call ρ)
  | .unary u => u.onlyDivZero hcall ρ
  | .bin u op e =>
      .bind (u.onlyDivZero hcall ρ) fun a => .bind (e.onlyDivZero hcall ρ) fun b =>
        op.onlyDivZero a b

theorem Unary.onlyDivZero (hcall : ∀ g args, Sem.OnlyDivZero (call g args)) (ρ : Valuation) :
    ∀ u : Unary, Sem.OnlyDivZero (u.sem call ρ)
  | .call g args =>
      .bind (args.onlyDivZero hcall ρ) fun ws => .bind (hcall g ws) fun v => needed_onlyDivZero v
  | .var x => needed_onlyDivZero (ρ x)
  | .lit n => .pure n
  | .paren e => e.onlyDivZero hcall ρ

theorem Args.onlyDivZero (hcall : ∀ g args, Sem.OnlyDivZero (call g args)) (ρ : Valuation) :
    ∀ args : Args, Sem.OnlyDivZero (args.sem call ρ)
  | .empty => .pure []
  | .last e => .bind (e.onlyDivZero hcall ρ) fun w => .pure [w]
  | .cons e args => .bind (e.onlyDivZero hcall ρ) fun w =>
      .bind (args.onlyDivZero hcall ρ) fun ws => .pure (w :: ws)

end

theorem Cond.onlyDivZero (hcall : ∀ g args, Sem.OnlyDivZero (call g args)) (ρ : Valuation)
    (c : Cond) : Sem.OnlyDivZero (c.sem call ρ) :=
  .bind (c.left.onlyDivZero hcall ρ) fun _ => .bind (c.right.onlyDivZero hcall ρ) fun _ => .pure _

theorem Simple.onlyDivZero (hcall : ∀ g args, Sem.OnlyDivZero (call g args)) (ρ : Valuation)
    (st : Simple) : Sem.OnlyDivZero (st.sem call ρ) := by
  cases st with
  | varDef type x init =>
      cases init with
      | none => exact .pure ρ
      | some e => exact .bind (e.onlyDivZero hcall ρ) fun w => .pure _
  | varAssign x e => exact .bind (e.onlyDivZero hcall ρ) fun w => .pure _

theorem Stmt.onlyDivZero (hcall : ∀ g args, Sem.OnlyDivZero (call g args)) (k : ℕ) (st : Stmt) :
    ∀ ρ : Valuation, Sem.OnlyDivZero (st.sem call k ρ) := by
  induction st with
  | skip =>
      intro ρ
      exact .pure _
  | seq st rest ih₁ ih₂ =>
      intro ρ
      exact .bind (ih₁ ρ) (goOn_onlyDivZero ih₂)
  | simple st =>
      intro ρ
      exact .bind (st.onlyDivZero hcall ρ) fun ρ' => .pure _
  | call g args =>
      intro ρ
      refine .bind (args.onlyDivZero hcall ρ) fun ws => .bind (hcall g ws) fun v => ?_
      exact .bind (unneeded_onlyDivZero v) fun _ => .pure _
  | print e =>
      intro ρ
      exact .bind (e.onlyDivZero hcall ρ) fun w => .bind (.print w) fun _ => .pure _
  | ret e =>
      intro ρ
      cases e with
      | none => exact .pure _
      | some e => exact .bind (e.onlyDivZero hcall ρ) fun w => .pure _
  | ifThen c st ih =>
      intro ρ
      refine .bind (c.onlyDivZero hcall ρ) fun go => ?_
      cases go with
      | true => exact ih ρ
      | false => exact .pure _
  | ifElse c s₁ s₂ ih₁ ih₂ =>
      intro ρ
      refine .bind (c.onlyDivZero hcall ρ) fun go => ?_
      cases go with
      | true => exact ih₁ ρ
      | false => exact ih₂ ρ
  | whileLoop c body ih =>
      intro ρ
      exact .rounds (fun ρ => c.onlyDivZero hcall ρ) ih k ρ
  | forLoop init c x e body ih =>
      intro ρ
      refine .bind (init.onlyDivZero hcall ρ) fun ρ' => ?_
      refine .rounds (fun ρ => c.onlyDivZero hcall ρ) (fun ρ => ?_) k ρ'
      refine .bind (ih ρ) (goOn_onlyDivZero fun ρ => ?_)
      exact .bind (Simple.onlyDivZero hcall ρ _) fun _ => .pure _
  | doLoop body c ih =>
      intro ρ
      refine .bind (ih ρ) (goOn_onlyDivZero fun ρ => ?_)
      exact .rounds (fun ρ => c.onlyDivZero hcall ρ) ih k ρ

end Faults

theorem callSem_onlyDivZero (defs : String → Option Func) (k : ℕ) :
    ∀ g args, Sem.OnlyDivZero (callSem defs k g args) := by
  induction k with
  | zero =>
      intro g args
      exact .timeout
  | succ k ih =>
      intro g args
      rw [callSem]
      cases defs g with
      | none => exact .undefined
      | some f =>
          by_cases hlen : args.length = f.params.names.length
          · simp only [if_pos hlen]
            exact .bind (f.body.onlyDivZero ih k _) fun flow => .pure _
          · simp only [if_neg hlen]
            exact .undefined

/-- **The faults of a program** are divisions by zero. -/
theorem runProgram_onlyDivZero (items : List Item) (args : List Word) (k : ℕ) :
    Sem.OnlyDivZero (runProgram items args k) := by
  rw [runProgram]
  cases definitions items "main" with
  | none => exact .undefined
  | some main => exact callSem_onlyDivZero _ k _ _

end Bispe
