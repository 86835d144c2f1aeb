import Bispe.Lib.Signed
import Bispe.Compiler.Encoding
import Bispe.Frontend.Arguments

/-!
# Signed arithmetic

Source integers are signed: literals can be negative, conditional jumps compare as
signed and the front end prints with `%d`.  The division of the machine is unsigned.
This module says what an expression is worth in C, what its code computes, and when the
two agree: at every operation but division and remainder, and there for operands on
which unsigned division gives the signed result.

## Main definitions

* `Expr.cValue` — the value in C, under the parse tree.
* `Expr.eval` — the word the code computes.
* `Expr.DivisionsAgree` — the divisions in an expression have operands of the good kind.
* `Locals` — the words that the variables of a function hold.
* `LeavesInt` — a run leaves an integer on the operand stack.
-/

namespace Bispe

open Effect Flat

/-! ## C -/

/-- A result that an `int32_t` can hold; `none` is a signed overflow. -/
def fits (v : ℤ) : Option ℤ := if -2 ^ 31 ≤ v ∧ v < 2 ^ 31 then some v else none

theorem fits_eq_some {v u : ℤ} (h : fits v = some u) : u = v ∧ -2 ^ 31 ≤ v ∧ v < 2 ^ 31 := by
  unfold fits at h
  split at h
  · next hrange => exact ⟨(Option.some.inj h).symm, hrange⟩
  · simp at h

/-- An operation on 32-bit integers, where it is defined. -/
def NumOp.cValue : NumOp → ℤ → ℤ → Option ℤ
  | .plus, a, b => fits (a + b)
  | .minus, a, b => fits (a - b)
  | .star, a, b => fits (a * b)
  | .slash, a, b => if b = 0 then none else fits (a.tdiv b)
  | .percent, a, b => if b = 0 then none else (fits (a.tdiv b)).map fun q => a - b * q

mutual

/-- The value of an expression without calls, by the words its variables hold. -/
def Expr.cValue (ρ : String → Option Word) : Expr → Option ℤ
  | .unary u => u.cValue ρ
  | .bin u op e => do op.cValue (← u.cValue ρ) (← e.cValue ρ)

def Unary.cValue (ρ : String → Option Word) : Unary → Option ℤ
  | .call .. => none
  | .var x => (ρ x).map BitVec.toInt
  | .lit n => some n.toInt
  | .paren e => e.cValue ρ

end

/-! ## The machine -/

/-- What the handler of an operator leaves; `none` is `ERR_DIV_ZERO`. -/
def NumOp.eval : NumOp → Word → Word → Option Word
  | .plus, a, b => some (a + b)
  | .minus, a, b => some (a - b)
  | .star, a, b => some (b * a)
  | .slash, a, b => if b = 0 then none else some (a / b)
  | .percent, a, b => if b = 0 then none else some (a % b)

mutual

/-- The word the code of an expression without calls computes. -/
def Expr.eval (ρ : String → Option Word) : Expr → Option Word
  | .unary u => u.eval ρ
  | .bin u op e => do op.eval (← u.eval ρ) (← e.eval ρ)

def Unary.eval (ρ : String → Option Word) : Unary → Option Word
  | .call .. => none
  | .var x => ρ x
  | .lit n => some n
  | .paren e => e.eval ρ

end

/-- The operands are such that the unsigned operation gives the signed result. -/
def NumOp.Agrees : NumOp → ℤ → ℤ → Prop
  | .slash, a, b => Signed.DivAgrees a b
  | .percent, a, b => Signed.ModAgrees (2 ^ 32) a b
  | _, _, _ => True

mutual

/-- So are those of every division in an expression. -/
def Expr.DivisionsAgree (ρ : String → Option Word) : Expr → Prop
  | .unary u => u.DivisionsAgree ρ
  | .bin u op e => u.DivisionsAgree ρ ∧ e.DivisionsAgree ρ ∧
      ∀ a b, u.cValue ρ = some a → e.cValue ρ = some b → op.Agrees a b

def Unary.DivisionsAgree (ρ : String → Option Word) : Unary → Prop
  | .paren e => e.DivisionsAgree ρ
  | _ => True

end

/-! ## One operation -/

theorem toInt_of_bmod {w : Word} {v : ℤ} (hw : w.toInt = v.bmod (2 ^ 32))
    (h : -2 ^ 31 ≤ v ∧ v < 2 ^ 31) : w.toInt = v := by
  rw [hw, Int.bmod_eq_of_le (by omega) (by omega)]

theorem toInt_ne_zero {b : Word} (h : b.toInt ≠ 0) : b ≠ 0 := by
  rintro rfl
  exact h BitVec.toInt_zero

/-- **The machine computes the C value of an operation exactly where it agrees.** -/
theorem NumOp.eval_iff {op : NumOp} {a b : Word} {v : ℤ}
    (hv : op.cValue a.toInt b.toInt = some v) :
    (∃ w, op.eval a b = some w ∧ w.toInt = v) ↔ op.Agrees a.toInt b.toInt := by
  cases op with
  | plus =>
      obtain ⟨rfl, hfits⟩ := fits_eq_some hv
      exact iff_of_true ⟨_, rfl, toInt_of_bmod (BitVec.toInt_add a b) hfits⟩ trivial
  | minus =>
      obtain ⟨rfl, hfits⟩ := fits_eq_some hv
      exact iff_of_true ⟨_, rfl, toInt_of_bmod BitVec.toInt_sub hfits⟩ trivial
  | star =>
      obtain ⟨rfl, hfits⟩ := fits_eq_some hv
      refine iff_of_true ⟨_, rfl, toInt_of_bmod ?_ hfits⟩ trivial
      rw [BitVec.toInt_mul, mul_comm]
  | slash =>
      by_cases hb : b.toInt = 0
      · simp [NumOp.cValue, hb] at hv
      · rw [NumOp.cValue, if_neg hb] at hv
        obtain ⟨rfl, -⟩ := fits_eq_some hv
        have hb0 := toInt_ne_zero hb
        simp only [NumOp.eval, if_neg hb0, Option.some.injEq, exists_eq_left']
        exact Signed.toInt_udiv_iff (by omega) a hb0
  | percent =>
      by_cases hb : b.toInt = 0
      · simp [NumOp.cValue, hb] at hv
      · rw [NumOp.cValue, if_neg hb, Option.map_eq_some_iff] at hv
        obtain ⟨q, hq, rfl⟩ := hv
        obtain ⟨rfl, -⟩ := fits_eq_some hq
        have hb0 := toInt_ne_zero hb
        simp only [NumOp.eval, if_neg hb0, Option.some.injEq, exists_eq_left', ← Int.tmod_def]
        exact Signed.toInt_umod_iff a hb0

theorem NumOp.eval_isSome {op : NumOp} {a b : Word} {v : ℤ}
    (hv : op.cValue a.toInt b.toInt = some v) : ∃ w, op.eval a b = some w := by
  have hb (h : op = .slash ∨ op = .percent) : b ≠ 0 := by
    rintro rfl
    rcases h with rfl | rfl <;> simp [NumOp.cValue] at hv
  cases op with
  | plus => exact ⟨_, rfl⟩
  | minus => exact ⟨_, rfl⟩
  | star => exact ⟨_, rfl⟩
  | slash => exact ⟨_, if_neg (hb (.inl rfl))⟩
  | percent => exact ⟨_, if_neg (hb (.inr rfl))⟩

mutual

/-- Where the divisions agree, the code computes the C value. -/
theorem Expr.eval_of_agree {ρ : String → Option Word} : ∀ (e : Expr) {v : ℤ},
    e.DivisionsAgree ρ → e.cValue ρ = some v → ∃ w, e.eval ρ = some w ∧ w.toInt = v
  | .unary u, _, hagree, hv => u.eval_of_agree hagree hv
  | .bin u op e, v, ⟨hu, he, hop⟩, hv => by
      obtain ⟨a, ha, hrest⟩ := Option.bind_eq_some_iff.mp hv
      obtain ⟨b, hb, hv⟩ := Option.bind_eq_some_iff.mp hrest
      have hagree := hop a b ha hb
      obtain ⟨wa, hwa, rfl⟩ := u.eval_of_agree hu ha
      obtain ⟨wb, hwb, rfl⟩ := e.eval_of_agree he hb
      obtain ⟨w, hw, htoInt⟩ := (NumOp.eval_iff hv).mpr hagree
      exact ⟨w, by rw [Expr.eval, hwa, hwb]; exact hw, htoInt⟩

theorem Unary.eval_of_agree {ρ : String → Option Word} : ∀ (u : Unary) {v : ℤ},
    u.DivisionsAgree ρ → u.cValue ρ = some v → ∃ w, u.eval ρ = some w ∧ w.toInt = v
  | .call .., _, _, hv => nomatch hv
  | .var _, _, _, hv => Option.map_eq_some_iff.mp hv
  | .lit n, _, _, hv => ⟨n, rfl, Option.some.inj hv⟩
  | .paren e, _, hagree, hv => e.eval_of_agree hagree hv

end

/-! ## Runs -/

/-- The next instruction is that of the operator, with its operands on the stack. -/
structure Operands (t : Flat) (a b : Word) : Prop where
  right : t.stack t.sp = some b
  left : t.stack (t.sp - 1) = some a
  sp : t.sp ≠ 0

theorem does_numop {p : Program} {t : Flat} {op : NumOp} {a b w : Word}
    (hw : op.eval a b = some w) (hop : p.At t.ip (instrInfo op.instr).opcode)
    (ht : Operands t a b) :
    Does p t { t with
      ip := t.ip + 1, sp := t.sp - 1, stack := Function.update t.stack (t.sp - 1) (some w) } := by
  obtain ⟨hright, hleft, hsp⟩ := ht
  cases op with
  | plus =>
      cases hw
      exact .of_run hop rfl (instrArith_run (by exact hright) (by exact hleft) hsp)
  | minus =>
      cases hw
      exact .of_run hop rfl (instrArith_run (by exact hright) (by exact hleft) hsp)
  | star =>
      cases hw
      exact .of_run hop rfl (instrArith_run (by exact hright) (by exact hleft) hsp)
  | slash =>
      by_cases hb : b = 0
      · simp [NumOp.eval, hb] at hw
      · rw [NumOp.eval, if_neg hb] at hw
        cases hw
        exact .of_run hop rfl (instrDivide_run (by exact hright) (by exact hleft) hsp hb)
  | percent =>
      by_cases hb : b = 0
      · simp [NumOp.eval, hb] at hw
      · rw [NumOp.eval, if_neg hb] at hw
        cases hw
        exact .of_run hop rfl (instrDivide_run (by exact hright) (by exact hleft) hsp hb)

/-- A value has been pushed, by code of `n` words. -/
structure Pushed (t : Flat) (n : ℕ) (w : Word) (t' : Flat) : Prop where
  ip : t'.ip = t.ip + n
  sp : t'.sp = t.sp + 1
  top : t'.stack (t.sp + 1) = some w
  below : ∀ i ≤ t.sp, t'.stack i = t.stack i
  cp : t'.cp = t.cp
  call : t'.call = t.call
  printed : t'.printed = t.printed

section Expressions
variable {p : Program} {ft : FuncTable} {junk : Junk} {name : String}
  {ρ : String → Option Word} {t t' t'' : Flat} {w : Word} {n m : ℕ}

/-- The frame of the current function holds the words `ρ` in the slots of its variables. -/
structure Locals (ft : FuncTable) (name : String) (ρ : String → Option Word) (t : Flat) :
    Prop where
  inside : ∀ x w, ρ x = some w → depth (BitVec.ofNat 32 (slot ft name x)) ≤ t.cp
  cell : ∀ x w, ρ x = some w →
    t.call (t.cp - depth (BitVec.ofNat 32 (slot ft name x))) = some w

theorem Pushed.locals (h : Pushed t n w t') (hf : Locals ft name ρ t) : Locals ft name ρ t' where
  inside x w hx := by
    rw [h.cp]
    exact hf.inside x w hx
  cell x w hx := by
    rw [h.cp, h.call]
    exact hf.cell x w hx

/-- One instruction that pushes. -/
theorem Pushed.step (t : Flat) (n : ℕ) (w : Word) :
    Pushed t n w { t with
      ip := t.ip + n, sp := t.sp + 1
      stack := Function.update t.stack (t.sp + 1) (some w) } where
  ip := rfl
  sp := rfl
  top := Function.update_self ..
  below i hi := Function.update_of_ne (by omega) ..
  cp := rfl
  call := rfl
  printed := rfl

/-- Two values have been pushed. -/
theorem Pushed.operands {a b : Word} (h : Pushed t n a t') (h' : Pushed t' m b t'') :
    Operands t'' a b where
  right := by
    rw [h'.sp]
    exact h'.top
  left := by
    rw [h'.sp, Nat.add_sub_cancel, h'.below t'.sp le_rfl, h.sp]
    exact h.top
  sp := by
    rw [h'.sp]
    exact Nat.succ_ne_zero _

/-- An operation leaves its value in the place of two. -/
theorem Pushed.apply {a b : Word} (h : Pushed t n a t') (h' : Pushed t' m b t'') :
    Pushed t (n + m + 1) w { t'' with
      ip := t''.ip + 1, sp := t''.sp - 1
      stack := Function.update t''.stack (t''.sp - 1) (some w) } where
  ip := by
    rw [h'.ip, h.ip]
    ring
  sp := by
    rw [h'.sp, h.sp]
    rfl
  top := by
    rw [h'.sp, h.sp]
    exact Function.update_self ..
  below i hi := by
    have hsp := h'.sp
    have hsp' := h.sp
    exact (Function.update_of_ne (by omega) ..).trans
      ((h'.below i (by omega)).trans (h.below i hi))
  cp := h'.cp.trans h.cp
  call := h'.call.trans h.call
  printed := h'.printed.trans h.printed

mutual

/-- The places on the operand stack that an expression needs. -/
def Expr.temps : Expr → ℕ
  | .unary u => u.temps
  | .bin u _ e => max u.temps (e.temps + 1)

def Unary.temps : Unary → ℕ
  | .call _ args => args.temps
  | .var _ => 1
  | .lit _ => 1
  | .paren e => e.temps

def Args.temps : Args → ℕ
  | .empty => 1
  | .last e => e.temps
  | .cons e args => max e.temps (args.temps + 1)

end

@[simp] theorem NumOp.elem_width (op : NumOp) : (elem op.instr 0).width = 1 := by
  cases op <;> rfl

mutual

/-- **The code of an expression pushes the word it computes.** -/
theorem Expr.run : ∀ (e : Expr) {t : Flat} {w : Word}, e.eval ρ = some w →
    p.Holds t.ip (e.emit ft junk name) → Locals ft name ρ t → t.sp + e.temps < p.stackWords →
    ∃ t', Runs p (e.emit ft junk name).length t t' ∧
      Pushed t (words (e.emit ft junk name)) w t'
  | .unary u, _, _, hw, hcode, hf, hroom => u.run hw hcode hf hroom
  | .bin u op e, t, w, hw, hcode, hf, hroom => by
      obtain ⟨a, ha, hrest⟩ := Option.bind_eq_some_iff.mp hw
      obtain ⟨b, hb, hop⟩ := Option.bind_eq_some_iff.mp hrest
      rw [Expr.temps] at hroom
      obtain ⟨t₁, hrun, hpush⟩ := u.run ha hcode.left.left hf (by omega)
      have hright := hcode.left.right
      rw [← hpush.ip] at hright
      obtain ⟨t₂, hrun', hpush'⟩ := e.run hb hright (hpush.locals hf) (by rw [hpush.sp]; omega)
      have hlast := hcode.right
      rw [words_append, ← Nat.add_assoc, ← hpush.ip, ← hpush'.ip] at hlast
      have hstep := does_numop hop hlast.opcode (hpush.operands hpush')
      rw [Expr.emit, List.length_append, List.length_append, words_append, words_append,
        words_cons, NumOp.elem_width, words_nil]
      exact ⟨_, (hrun.trans hrun').trans hstep.runs, hpush.apply hpush'⟩

theorem Unary.run : ∀ (u : Unary) {t : Flat} {w : Word}, u.eval ρ = some w →
    p.Holds t.ip (u.emit ft junk name) → Locals ft name ρ t → t.sp + u.temps < p.stackWords →
    ∃ t', Runs p (u.emit ft junk name).length t t' ∧
      Pushed t (words (u.emit ft junk name)) w t'
  | .call .., _, _, hw, _, _, _ => nomatch hw
  | .var x, t, w, hw, hcode, hf, hroom => by
      have hstep := does_load hcode.opcode (hcode.operand rfl) (hf.inside x w hw)
        (hf.cell x w hw) hroom
      exact ⟨_, hstep.runs, .step t 2 w⟩
  | .lit n, t, w, hw, hcode, hf, hroom => by
      cases hw
      exact ⟨_, (does_push hcode.opcode (hcode.operand rfl) hroom).runs, .step t 2 n⟩
  | .paren e, _, _, hw, hcode, hf, hroom => e.run hw hcode hf hroom

end

/-- After `n` instructions there is a word for the integer `v` on top of the operand
stack. -/
def LeavesInt (p : Program) (t : Flat) (n : ℕ) (v : ℤ) : Prop :=
  ∃ t', Runs p n t t' ∧ ∃ w, t'.stack t'.sp = some w ∧ w.toInt = v

theorem leavesInt_iff (hrun : Runs p n t t') (hw : t'.stack t'.sp = some w) {v : ℤ} :
    LeavesInt p t n v ↔ w.toInt = v := by
  constructor
  · rintro ⟨t'', hrun', w', hw', rfl⟩
    have hend := hrun.unique hrun'
    have htop := congrArg (fun t : Flat => t.stack t.sp) hend
    rw [hw, hw'] at htop
    rw [Option.some.inj htop]
  · intro hv
    exact ⟨t', hrun, w, hw, hv⟩

section Parts
variable (ft : FuncTable) (junk : Junk) (name : String)

mutual

/-- The parts of an expression, with the number of instructions after which the value of
each is on the stack, when the code starts after `n` others. -/
def Expr.parts (n : ℕ) : Expr → List (ℕ × Expr)
  | .unary u => u.parts n
  | .bin u op e =>
      u.parts n ++ e.parts (n + (u.emit ft junk name).length) ++
        [(n + (Expr.bin u op e |>.emit ft junk name).length, .bin u op e)]

def Unary.parts (n : ℕ) : Unary → List (ℕ × Expr)
  | .call g args => [(n + (Unary.call g args |>.emit ft junk name).length, .unary (.call g args))]
  | .var x => [(n + 1, .unary (.var x))]
  | .lit k => [(n + 1, .unary (.lit k))]
  | .paren e => e.parts n

end

end Parts

/-- Every part has its C value when its code has run. -/
def EvaluatesInC (p : Program) (t : Flat) (ρ : String → Option Word) (parts : List (ℕ × Expr)) :
    Prop :=
  ∀ part ∈ parts, ∀ v, part.2.cValue ρ = some v → LeavesInt p t part.1 v

theorem evaluatesInC_append {l l' : List (ℕ × Expr)} :
    EvaluatesInC p t ρ (l ++ l') ↔ EvaluatesInC p t ρ l ∧ EvaluatesInC p t ρ l' :=
  List.forall_mem_append

theorem evaluatesInC_singleton {e : Expr} {v : ℤ} (hv : e.cValue ρ = some v) :
    EvaluatesInC p t ρ [(n, e)] ↔ LeavesInt p t n v := by
  simp [EvaluatesInC, hv]

/-- A part whose code computes its C value. -/
theorem leavesInt_of_pushed (hrun : Runs p n t t') (hrun' : Runs p m t' t'')
    {k : ℕ} (hpush : Pushed t' k w t'') {v : ℤ} : LeavesInt p t (n + m) v ↔ w.toInt = v :=
  leavesInt_iff (hrun.trans hrun') (by rw [hpush.sp]; exact hpush.top)

mutual

theorem Expr.evaluatesInC_iff : ∀ (e : Expr) {t₀ t : Flat} {n : ℕ} {v : ℤ},
    Runs p n t₀ t → e.cValue ρ = some v → p.Holds t.ip (e.emit ft junk name) →
    Locals ft name ρ t → t.sp + e.temps < p.stackWords →
    (EvaluatesInC p t₀ ρ (e.parts ft junk name n) ↔ e.DivisionsAgree ρ)
  | .unary u, _, _, _, _, hpast, hv, hcode, hf, hroom =>
      u.evaluatesInC_iff hpast hv hcode hf hroom
  | .bin u op e, t₀, t, n, v, hpast, hv, hcode, hf, hroom => by
      obtain ⟨a, ha, hrest⟩ := Option.bind_eq_some_iff.mp hv
      obtain ⟨b, hb, hvalue⟩ := Option.bind_eq_some_iff.mp hrest
      rw [Expr.temps] at hroom
      rw [Expr.parts, evaluatesInC_append, evaluatesInC_append, and_assoc,
        u.evaluatesInC_iff hpast ha hcode.left.left hf (by omega)]
      refine and_congr_right fun hu => ?_
      obtain ⟨wa, hwa, rfl⟩ := u.eval_of_agree hu ha
      obtain ⟨t₁, hrun, hpush⟩ := u.run hwa hcode.left.left hf (by omega)
      have hright := hcode.left.right
      rw [← hpush.ip] at hright
      rw [e.evaluatesInC_iff (hpast.trans hrun) hb hright (hpush.locals hf)
        (by rw [hpush.sp]; omega)]
      refine and_congr_right fun he => ?_
      obtain ⟨wb, hwb, rfl⟩ := e.eval_of_agree he hb
      obtain ⟨w, hw⟩ := NumOp.eval_isSome hvalue
      have heval : (Expr.bin u op e).eval ρ = some w := by rw [Expr.eval, hwa, hwb]; exact hw
      obtain ⟨t₂, hrun', hpush'⟩ := (Expr.bin u op e).run heval hcode hf hroom
      rw [evaluatesInC_singleton hv, leavesInt_of_pushed hpast hrun' hpush']
      have hiff := NumOp.eval_iff hvalue
      simp only [hw, Option.some.injEq, exists_eq_left'] at hiff
      rw [hiff]
      simp [ha, hb]

theorem Unary.evaluatesInC_iff : ∀ (u : Unary) {t₀ t : Flat} {n : ℕ} {v : ℤ},
    Runs p n t₀ t → u.cValue ρ = some v → p.Holds t.ip (u.emit ft junk name) →
    Locals ft name ρ t → t.sp + u.temps < p.stackWords →
    (EvaluatesInC p t₀ ρ (u.parts ft junk name n) ↔ u.DivisionsAgree ρ)
  | .call .., _, _, _, _, _, hv, _, _, _ => nomatch hv
  | .var x, t₀, t, n, v, hpast, hv, hcode, hf, hroom => by
      obtain ⟨w, hw, rfl⟩ := Option.map_eq_some_iff.mp hv
      obtain ⟨t', hrun, hpush⟩ := (Unary.var x).run hw hcode hf hroom
      rw [Unary.parts, evaluatesInC_singleton (e := .unary (.var x)) hv]
      exact iff_of_true ((leavesInt_of_pushed hpast hrun hpush).mpr rfl) trivial
  | .lit k, t₀, t, n, v, hpast, hv, hcode, hf, hroom => by
      cases hv
      obtain ⟨t', hrun, hpush⟩ := (Unary.lit k).run rfl hcode hf hroom
      rw [Unary.parts, evaluatesInC_singleton (e := .unary (.lit k)) rfl]
      exact iff_of_true ((leavesInt_of_pushed hpast hrun hpush).mpr rfl) trivial
  | .paren e, _, _, _, _, hpast, hv, hcode, hf, hroom =>
      e.evaluatesInC_iff hpast hv hcode hf hroom

end

end Expressions

/-! ## Comparisons -/

/-- The comparison a conditional jump makes. -/
def BoolOp.holds : BoolOp → ℤ → ℤ → Bool
  | .eqeq, a, b => a = b
  | .neq, a, b => a ≠ b
  | .gt, a, b => b < a
  | .lt, a, b => a < b
  | .ge, a, b => b ≤ a
  | .le, a, b => a ≤ b

theorem beq_eq_toInt (a b : Word) : (a == b) = decide (a.toInt = b.toInt) := by
  rw [Bool.eq_iff_iff, beq_iff_eq, decide_eq_true_iff, BitVec.toInt_inj]

/-- The handlers compare as signed. -/
theorem BoolOp.jcc (op : BoolOp) (p : Program) : ∃ cond : Word → Word → Bool,
    jmpThroughTable (flatMacros p) (instrInfo op.jmp).opcode = instrJcc (flatMacros p) cond ∧
      ∀ a b, cond a b = op.holds a.toInt b.toInt := by
  cases op with
  | eqeq => exact ⟨_, rfl, fun a b => beq_eq_toInt a b⟩
  | neq =>
      refine ⟨_, rfl, fun a b => ?_⟩
      rw [bne, beq_eq_toInt, BoolOp.holds, decide_not]
  | gt => exact ⟨_, rfl, fun _ _ => rfl⟩
  | lt => exact ⟨_, rfl, fun _ _ => rfl⟩
  | ge => exact ⟨_, rfl, fun _ _ => rfl⟩
  | le => exact ⟨_, rfl, fun _ _ => rfl⟩

theorem does_boolop {p : Program} {t : Flat} {op : BoolOp} {a b target : Word}
    (hop : p.At t.ip (instrInfo op.jmp).opcode) (harg : p.At (t.ip + 1) target)
    (htarget : 4 * target.toNat < p.codeSize) (hab : Operands t a b) (hsp : 2 ≤ t.sp) :
    Does p t { t with
      ip := if op.holds a.toInt b.toInt then target.toNat else t.ip + 2
      sp := t.sp - 1 - 1 } := by
  obtain ⟨cond, hjcc, hcond⟩ := op.jcc p
  rw [← hcond a b]
  exact does_jcc hop hjcc harg htarget hab.right hab.left hsp

/-! ## Literals -/

theorem literalNumber_toInt {token : Token} {s s' : PState} {w : Word} {v : ℤ}
    (h : literalNumber token s = .ok w s') (hv : strtol token.val.toList = some v) :
    w = BitVec.ofInt 32 v ∧ -2 ^ 31 ≤ v := by
  unfold literalNumber at h
  rw [hv] at h
  simp only at h
  split at h
  · cases h
  · next hrange =>
    cases h
    exact ⟨rfl, by omega⟩

theorem createIntliteral_toInt {token : Token} {s s' : PState} {node : Node} {v : ℤ}
    (h : createIntliteral token s = .ok node s') (hv : strtol token.val.toList = some v)
    (hfits : v < 2 ^ 31) :
    ∃ w : Word, node = allocNode .astIntliteral (.number w) ∧ w.toInt = v := by
  obtain ⟨w, s₁, hnumber, hnode⟩ := bind_eq_ok h
  obtain ⟨rfl, hlow⟩ := literalNumber_toInt hnumber hv
  cases hnode
  exact ⟨_, rfl, toInt_ofInt_of_fits ⟨hlow, hfits⟩⟩

theorem createNegIntliteral_toInt {token : Token} {s s' : PState} {node : Node} {v : ℤ}
    (h : createNegIntliteral token s = .ok node s') (hv : strtol token.val.toList = some v)
    (hfits : -2 ^ 31 ≤ -v ∧ -v < 2 ^ 31) :
    ∃ w : Word, node = allocNode .astIntliteral (.number w) ∧ w.toInt = -v := by
  obtain ⟨w, s₁, hnumber, hnode⟩ := bind_eq_ok h
  obtain ⟨rfl, -⟩ := literalNumber_toInt hnumber hv
  cases hnode
  refine ⟨_, rfl, ?_⟩
  rw [← BitVec.ofInt_neg]
  exact toInt_ofInt_of_fits hfits

/-! ## Division -/

/-- `DIV` and `MOD` leave the C quotient and remainder of `a` and `b`. -/
structure DividesSigned (a b : Word) : Prop where
  div : ∀ p t, Operands t a b → p.At t.ip (instrInfo .div).opcode →
    LeavesInt p t 1 (a.toInt.tdiv b.toInt)
  mod : ∀ p t, Operands t a b → p.At t.ip (instrInfo .mod).opcode →
    LeavesInt p t 1 (a.toInt - b.toInt * a.toInt.tdiv b.toInt)

/-- One operation, whatever the C value. -/
theorem leavesInt_numop {p : Program} {t : Flat} {op : NumOp} {a b w : Word}
    (hw : op.eval a b = some w) (hop : p.At t.ip (instrInfo op.instr).opcode)
    (ht : Operands t a b) (v : ℤ) : LeavesInt p t 1 v ↔ w.toInt = v :=
  leavesInt_iff (does_numop hw hop ht).runs (Function.update_self ..)

/-- A state with two operands, and a program with one instruction. -/
def operandState (a b : Word) : Flat :=
  { Flat.initial with
    sp := 2
    stack := Function.update (Function.update (fun _ => none) 1 (some a)) 2 (some b) }

theorem operandState_operands (a b : Word) : Operands (operandState a b) a b where
  right := rfl
  left := rfl
  sp := two_ne_zero

theorem dividesSigned_iff (a : Word) {b : Word} (hb : b ≠ 0) :
    DividesSigned a b ↔ Signed.DivAgrees a.toInt b.toInt := by
  have hdiv : NumOp.eval .slash a b = some (a / b) := if_neg hb
  have hmod : NumOp.eval .percent a b = some (a % b) := if_neg hb
  constructor
  · intro h
    have hcode := Program.ofCode_holds [elem .div 0] 16 16 []
    have hleaves := h.div _ (operandState a b) (operandState_operands a b) hcode.opcode
    rw [leavesInt_numop hdiv hcode.opcode (operandState_operands a b)] at hleaves
    exact (Signed.toInt_udiv_iff (by omega) a hb).mp hleaves
  · intro h
    constructor
    · intro p t ht hop
      rw [leavesInt_numop hdiv hop ht]
      exact (Signed.toInt_udiv_iff (by omega) a hb).mpr h
    · intro p t ht hop
      rw [leavesInt_numop hmod hop ht, ← Int.tmod_def]
      exact (Signed.toInt_umod_iff a hb).mpr (h.mod _)

/-! ## Signed integers throughout -/

/-- **Where integers are signed.**  Division and remainder leave the C results for
exactly the operands on which unsigned division agrees with signed division; every part
of an expression has its C value as its code runs exactly if its divisions have such
operands, and the expression then leaves its C value.  Conditional jumps compare as
signed, and literals and program arguments stand for their own value. -/
theorem signed_iff (a : Word) {b : Word} (hb : b ≠ 0) {p : Program} {ft : FuncTable}
    {junk : Junk} {name : String} {ρ : String → Option Word} {t : Flat} {e : Expr} {v : ℤ}
    (hv : e.cValue ρ = some v) (hcode : p.Holds t.ip (e.emit ft junk name))
    (hf : Locals ft name ρ t) (hroom : t.sp + e.temps < p.stackWords) :
    (DividesSigned a b ↔ Signed.DivAgrees a.toInt b.toInt) ∧
    (EvaluatesInC p t ρ (e.parts ft junk name 0) ↔ e.DivisionsAgree ρ) ∧
    (e.DivisionsAgree ρ → LeavesInt p t (e.emit ft junk name).length v) ∧
    (∀ (p : Program) (t : Flat) (op : BoolOp) (a b target : Word), Operands t a b →
      2 ≤ t.sp → p.At t.ip (instrInfo op.jmp).opcode → p.At (t.ip + 1) target →
      4 * target.toNat < p.codeSize → Does p t { t with
        ip := if op.holds a.toInt b.toInt then target.toNat else t.ip + 2
        sp := t.sp - 1 - 1 }) ∧
    (∀ (token : Token) (s s' : PState) (node : Node) (v : ℤ),
      createIntliteral token s = .ok node s' → strtol token.val.toList = some v → v < 2 ^ 31 →
      ∃ w : Word, node = allocNode .astIntliteral (.number w) ∧ w.toInt = v) ∧
    (∀ (token : Token) (s s' : PState) (node : Node) (v : ℤ),
      createNegIntliteral token s = .ok node s' → strtol token.val.toList = some v →
      -2 ^ 31 ≤ -v → -v < 2 ^ 31 →
      ∃ w : Word, node = allocNode .astIntliteral (.number w) ∧ w.toInt = -v) ∧
    (∀ (arg : String) (w : Word) (v : ℤ), interprArg arg = some w →
      strtol arg.toList = some v → v < 2 ^ 31 → w.toInt = v) := by
  refine ⟨dividesSigned_iff a hb, e.evaluatesInC_iff (.refl p t) hv hcode hf hroom,
    fun hagree => ?_, ?_, ?_, ?_, ?_⟩
  · obtain ⟨w, hw, rfl⟩ := e.eval_of_agree hagree hv
    obtain ⟨t', hrun, hpush⟩ := e.run hw hcode hf hroom
    exact (leavesInt_iff hrun (by rw [hpush.sp]; exact hpush.top)).mpr rfl
  · intro p t op a b target hab hsp hop harg htarget
    exact does_boolop hop harg htarget hab hsp
  · intro token s s' node v h hv hfits
    exact createIntliteral_toInt h hv hfits
  · intro token s s' node v h hv hlow hhigh
    exact createNegIntliteral_toInt h hv ⟨hlow, hhigh⟩
  · intro arg w v h hv hfits
    exact interprArg_toInt h hv hfits

/-- `6 / 3` -/
def sixThirds : Expr := .bin (.lit 6) .slash (.unary (.lit 3))

def sixThirdsProgram : Program :=
  .ofCode (sixThirds.emit (fun _ => none) (fun _ => 0) "main") 16 16 []

theorem signed_iff_small : DividesSigned 6 3 ∧
    EvaluatesInC sixThirdsProgram .initial (fun _ => none)
      (sixThirds.parts (fun _ => none) (fun _ => 0) "main" 0) := by
  have hcode : sixThirdsProgram.Holds Flat.initial.ip
      (sixThirds.emit (fun _ => none) (fun _ => 0) "main") := Program.ofCode_holds _ 16 16 []
  have hlocals : Locals (fun _ => none) "main" (fun _ => none) .initial := ⟨nofun, nofun⟩
  have hvalue : sixThirds.cValue (fun _ => none) = some 2 := by decide
  have hiff := signed_iff (6 : Word) (b := 3) (by decide) (p := sixThirdsProgram) hvalue hcode
    hlocals (by decide)
  refine ⟨hiff.1.mpr (by decide), hiff.2.1.mpr ⟨trivial, trivial, fun a b ha hb => ?_⟩⟩
  cases ha
  cases hb
  exact (by decide : Signed.DivAgrees (6 : Word).toInt (3 : Word).toInt)

/-- `void main(void) { print -6 / 2; }` -/
def printHalf : List Token :=
  [⟨.tokVoid, "void"⟩, ⟨.tokIdentifier, "main"⟩, ⟨.tokOpenpa, "("⟩, ⟨.tokVoid, "void"⟩,
   ⟨.tokClosepa, ")"⟩, ⟨.tokOpenbr, "\x7b"⟩, ⟨.tokPrint, "print"⟩, ⟨.tokMinus, "-"⟩,
   ⟨.tokIntliteral, "6"⟩, ⟨.tokSlash, "/"⟩, ⟨.tokIntliteral, "2"⟩,
   ⟨.tokSemicl, ";"⟩, ⟨.tokClosebr, "\x7d"⟩, ⟨.tokEof, ""⟩]

/-- Half of minus six is minus three, and the program prints another number. -/
theorem half_of_minus_six : NumOp.cValue .slash (-6) 2 = some (-3) ∧ ¬ DividesSigned (-6) 2 ∧
    (compile (fun _ => 0) 60 printHalf).map
      (fun code => ((Program.ofCode code 16 16 []).prints 20).map printLine) =
        some ["2147483645\n"] := by
  refine ⟨by decide, ?_, by decide +kernel⟩
  rw [dividesSigned_iff (-6) (by decide)]
  decide

end Bispe
