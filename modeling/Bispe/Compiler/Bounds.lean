import Bispe.Compiler.Semantics

/-!
# Larger bounds

The bound on loops and calls does not change what a program means where it is not reached:
by a larger bound the program prints the same values and ends in the same way.

## Main definitions

* `Stmt.sem_mono`, `callSem_mono` — statements and calls by a larger bound.
* `runProgram_ends` — the end of a program does not depend on the bound.
-/

namespace Bispe

open Tracking

theorem goOn_mono {next next' : Valuation → Sem Flow}
    (h : ∀ ρ, Eval.Below (next ρ) (next' ρ)) (flow : Flow) :
    Eval.Below (goOn next flow) (goOn next' flow) := by
  cases flow with
  | inl ρ => exact h ρ
  | inr v => exact .refl _

section Calls
variable {call call' : String → List Word → Sem (Option Word)}

mutual

theorem Expr.sem_mono (hcall : ∀ g args, Eval.Below (call g args) (call' g args)) (ρ : Valuation) :
    ∀ e : Expr, Eval.Below (e.sem call ρ) (e.sem call' ρ)
  | .unary u => u.sem_mono hcall ρ
  | .bin u op e =>
      .bind (u.sem_mono hcall ρ) fun a => .bind (e.sem_mono hcall ρ) fun b => .refl (op.sem a b)

theorem Unary.sem_mono (hcall : ∀ g args, Eval.Below (call g args) (call' g args)) (ρ : Valuation) :
    ∀ u : Unary, Eval.Below (u.sem call ρ) (u.sem call' ρ)
  | .call g args =>
      .bind (args.sem_mono hcall ρ) fun ws => .bind (hcall g ws) fun v => .refl (needed v)
  | .var x => .refl (needed (ρ x))
  | .lit n => .refl (pure n)
  | .paren e => e.sem_mono hcall ρ

theorem Args.sem_mono (hcall : ∀ g args, Eval.Below (call g args) (call' g args)) (ρ : Valuation) :
    ∀ args : Args, Eval.Below (args.sem call ρ) (args.sem call' ρ)
  | .empty => .refl (pure [])
  | .last e => .bind (e.sem_mono hcall ρ) fun w => .refl (pure [w])
  | .cons e args => .bind (e.sem_mono hcall ρ) fun w =>
      .bind (args.sem_mono hcall ρ) fun ws => .refl (pure (w :: ws))

end

variable (hcall : ∀ g args, Eval.Below (call g args) (call' g args))
include hcall

theorem Cond.sem_mono (ρ : Valuation) (c : Cond) : Eval.Below (c.sem call ρ) (c.sem call' ρ) :=
  .bind (c.left.sem_mono hcall ρ) fun _ => .bind (c.right.sem_mono hcall ρ) fun _ => .refl _

theorem Simple.sem_mono (ρ : Valuation) (st : Simple) :
    Eval.Below (st.sem call ρ) (st.sem call' ρ) := by
  cases st with
  | varDef type x init =>
      cases init with
      | none => exact .refl _
      | some e => exact .bind (e.sem_mono hcall ρ) fun w => .refl _
  | varAssign x e => exact .bind (e.sem_mono hcall ρ) fun w => .refl _

theorem Simple.flow_mono (st : Simple) (ρ : Valuation) :
    Eval.Below (st.flow call ρ) (st.flow call' ρ) :=
  .bind (st.sem_mono hcall ρ) fun _ => .refl _

/-- **Statements**, with more rounds for their loops. -/
theorem Stmt.sem_mono {k k' : ℕ} (hk : k ≤ k') (st : Stmt) :
    ∀ ρ : Valuation, Eval.Below (st.sem call k ρ) (st.sem call' k' ρ) := by
  induction st with
  | skip =>
      intro ρ
      exact .refl _
  | seq st rest ih₁ ih₂ =>
      intro ρ
      exact .bind (ih₁ ρ) (goOn_mono ih₂)
  | simple st =>
      intro ρ
      exact st.flow_mono hcall ρ
  | call g args =>
      intro ρ
      exact .bind (args.sem_mono hcall ρ) fun ws => .bind (hcall g ws) fun v => .refl _
  | print e =>
      intro ρ
      exact .bind (e.sem_mono hcall ρ) fun w => .refl _
  | ret e =>
      intro ρ
      cases e with
      | none => exact .refl _
      | some e => exact .bind (e.sem_mono hcall ρ) fun w => .refl _
  | ifThen c st ih =>
      intro ρ
      refine .bind (c.sem_mono hcall ρ) fun go => ?_
      cases go with
      | true => exact ih ρ
      | false => exact .refl _
  | ifElse c s₁ s₂ ih₁ ih₂ =>
      intro ρ
      refine .bind (c.sem_mono hcall ρ) fun go => ?_
      cases go with
      | true => exact ih₁ ρ
      | false => exact ih₂ ρ
  | whileLoop c body ih =>
      intro ρ
      exact .rounds (fun ρ => c.sem_mono hcall ρ) ih hk ρ
  | forLoop init c x e body ih =>
      intro ρ
      refine .bind (init.sem_mono hcall ρ) fun ρ' => ?_
      refine .rounds (fun ρ => c.sem_mono hcall ρ) (fun ρ => ?_) hk ρ'
      exact .bind (ih ρ) (goOn_mono ((Simple.varAssign x e).flow_mono hcall))
  | doLoop body c ih =>
      intro ρ
      refine .bind (ih ρ) (goOn_mono fun ρ => ?_)
      exact .rounds (fun ρ => c.sem_mono hcall ρ) ih hk ρ

end Calls

theorem callSem_mono (defs : String → Option Func) {k k' : ℕ} (hk : k ≤ k') :
    ∀ g args, Eval.Below (callSem defs k g args) (callSem defs k' g args) := by
  induction k generalizing k' with
  | zero =>
      intro g args
      exact .timeout _
  | succ k ih =>
      intro g args
      obtain ⟨k', rfl⟩ := Nat.exists_eq_add_one_of_ne_zero (by omega : k' ≠ 0)
      have hle : k ≤ k' := by omega
      rw [callSem, callSem]
      cases defs g with
      | none => exact .refl _
      | some f =>
          by_cases hlen : args.length = f.params.names.length
          · simp only [if_pos hlen]
            exact .bind (f.body.sem_mono (ih hle) hle _) fun flow => .refl _
          · simp only [if_neg hlen]
            exact .refl _

theorem runProgram_mono (items : List Item) (args : List Word) {k k' : ℕ} (hk : k ≤ k') :
    Eval.Below (runProgram items args k) (runProgram items args k') := by
  rw [runProgram, runProgram]
  cases definitions items "main" with
  | none => exact .refl _
  | some main => exact callSem_mono _ hk _ _

/-- **The end of a program** does not depend on the bound. -/
theorem runProgram_ends {items : List Item} {args : List Word} {k k' : ℕ}
    (h : (runProgram items args k).result ≠ .error .timeout)
    (h' : (runProgram items args k').result ≠ .error .timeout) :
    runProgram items args k = runProgram items args k' := by
  rcases le_total k k' with hk | hk
  · exact ((runProgram_mono items args hk).eq h).symm
  · exact (runProgram_mono items args hk).eq h'

/-- A program that has an end by some bound is defined by every bound. -/
theorem runProgram_defined {items : List Item} {args : List Word} {k : ℕ}
    (h : (runProgram items args k).result ≠ .error .timeout)
    (hdef : (runProgram items args k).result ≠ .error .undefined) (k' : ℕ) :
    (runProgram items args k').result ≠ .error .undefined := by
  intro hundefined
  have hend : (runProgram items args k').result ≠ .error .timeout := by
    rw [hundefined]
    simp
  have hsame := runProgram_ends h hend
  rw [hsame] at hdef
  exact hdef hundefined

end Bispe
