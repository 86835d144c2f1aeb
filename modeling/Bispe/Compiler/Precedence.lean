import Bispe.Compiler.Arithmetic
import Mathlib.Data.List.Chain

/-!
# Precedence

In C the operators `*`, `/` and `%` bind tighter than `+` and `-`, and operators of one
rank group to the left.  The parser has one production for all operators, and an operator
takes everything that follows as its right operand.  This module says what the tokens of
an expression mean in C, and for which sequences of operators the code computes that.

## Main definitions

* `CSum`, `CProduct`, `COperand` — the expressions of C.
* `Expr.toC` — the expression of C with the same tokens.
* `CSum.value` — its value, where no intermediate result is negative or too large.
* `Expr.levels`, `Expr.ops` — the parenthesised parts of an expression, and the
  operators at the top of one.
* `NumOp.regroups` — two operators for which both groupings compute the same.
-/

namespace Bispe

/-! ## Expressions of C -/

mutual

/-- Additive expressions. -/
inductive CSum
  | product (m : CProduct)
  | plus (a : CSum) (m : CProduct)
  | minus (a : CSum) (m : CProduct)

/-- Multiplicative expressions. -/
inductive CProduct
  | operand (p : COperand)
  | star (m : CProduct) (p : COperand)
  | slash (m : CProduct) (p : COperand)
  | percent (m : CProduct) (p : COperand)

inductive COperand
  | call (f : String) (args : Args)
  | var (x : String)
  | lit (n : Word)
  | paren (a : CSum)

end

/-- How the operand behind an operator joins the product in front of it. -/
def NumOp.factor : NumOp → CProduct → COperand → CProduct
  | .plus, _ => .operand
  | .minus, _ => .operand
  | .star, m => .star m
  | .slash, m => .slash m
  | .percent, m => .percent m

/-- How the product behind an operator joins the sum in front of it, which ends in a
product. -/
def NumOp.term : NumOp → (CProduct → CSum) → CProduct → CProduct → CSum
  | .plus, f, m => .plus (f m)
  | .minus, f, m => .minus (f m)
  | .star, f, _ => f
  | .slash, f, _ => f
  | .percent, f, _ => f

mutual

/-- The expression of C with the tokens of `e`, where `k` and `f` hold what is in front
of them. -/
def Expr.regroup : Expr → (COperand → CProduct) → (CProduct → CSum) → CSum
  | .unary u, k, f => f (k u.toC)
  | .bin u op e, k, f => e.regroup (op.factor (k u.toC)) (op.term f (k u.toC))

def Unary.toC : Unary → COperand
  | .call f args => .call f args
  | .var x => .var x
  | .lit n => .lit n
  | .paren e => .paren (e.regroup .operand .product)

end

/-- The expression of C with the same tokens. -/
def Expr.toC (e : Expr) : CSum := e.regroup .operand .product

/-! ## Values -/

/-- What the operators and the operands mean. -/
structure Meaning (α : Type) where
  apply : NumOp → α → α → Option α
  var : String → Option α
  lit : Word → Option α

namespace Meaning

variable {α : Type} (M : Meaning α)

/-- An operation whose operands need not have a value. -/
def lift (op : NumOp) (x y : Option α) : Option α := x.bind fun a => y.bind fun b => M.apply op a b

mutual

def sum : CSum → Option α
  | .product m => product m
  | .plus a m => M.lift .plus (sum a) (product m)
  | .minus a m => M.lift .minus (sum a) (product m)

def product : CProduct → Option α
  | .operand p => operand p
  | .star m p => M.lift .star (product m) (operand p)
  | .slash m p => M.lift .slash (product m) (operand p)
  | .percent m p => M.lift .percent (product m) (operand p)

def operand : COperand → Option α
  | .call .. => none
  | .var x => M.var x
  | .lit n => M.lit n
  | .paren a => sum a

end

end Meaning

/-- An `int` that is not negative. -/
def natOf (w : Word) : Option ℕ := if w.toNat < 2 ^ 31 then some w.toNat else none

/-- An operation on numbers that are not negative; `none` where the result is negative,
where it overflows and where the divisor is zero. -/
def NumOp.natValue : NumOp → ℕ → ℕ → Option ℕ
  | .plus, a, b => if a + b < 2 ^ 31 then some (a + b) else none
  | .minus, a, b => if b ≤ a then some (a - b) else none
  | .star, a, b => if a * b < 2 ^ 31 then some (a * b) else none
  | .slash, a, b => if b = 0 then none else some (a / b)
  | .percent, a, b => if b = 0 then none else some (a % b)

/-- Arithmetic of C on numbers that are not negative. -/
def natMeaning (ρ : String → Option Word) : Meaning ℕ where
  apply := NumOp.natValue
  var x := (ρ x).bind natOf
  lit := natOf

/-- Arithmetic of the handlers. -/
def wordMeaning (ρ : String → Option Word) : Meaning Word where
  apply := NumOp.eval
  var := ρ
  lit := some

/-- The value of an expression of C, if no intermediate result is negative or overflows
and no divisor is zero. -/
def CSum.value (ρ : String → Option Word) (c : CSum) : Option ℕ := (natMeaning ρ).sum c

theorem natOf_eq_some {w : Word} {v : ℕ} (h : natOf w = some v) :
    w = BitVec.ofNat 32 v ∧ v < 2 ^ 31 := by
  by_cases hw : w.toNat < 2 ^ 31
  · rw [natOf, if_pos hw] at h
    obtain rfl := Option.some.inj h
    exact ⟨by simp, hw⟩
  · rw [natOf, if_neg hw] at h
    cases h

theorem toNat_ofNat_of_lt {v : ℕ} (h : v < 2 ^ 31) : (BitVec.ofNat 32 v).toNat = v := by
  rw [BitVec.toNat_ofNat, Nat.mod_eq_of_lt (by omega)]

theorem ofNat_ne_zero {v : ℕ} (h : v < 2 ^ 31) (hv : v ≠ 0) : BitVec.ofNat 32 v ≠ 0 := by
  intro heq
  apply hv
  rw [← toNat_ofNat_of_lt h, heq]
  rfl

/-- An operation of C that has a value is what its handler computes. -/
theorem NumOp.natValue_eval {op : NumOp} {a b v : ℕ} (ha : a < 2 ^ 31) (hb : b < 2 ^ 31)
    (h : op.natValue a b = some v) :
    op.eval (BitVec.ofNat 32 a) (BitVec.ofNat 32 b) = some (BitVec.ofNat 32 v) ∧ v < 2 ^ 31 := by
  cases op with
  | plus =>
      by_cases hlt : a + b < 2 ^ 31
      · rw [NumOp.natValue, if_pos hlt] at h
        obtain rfl := Option.some.inj h
        exact ⟨congrArg some (BitVec.ofNat_add a b).symm, hlt⟩
      · rw [NumOp.natValue, if_neg hlt] at h
        cases h
  | minus =>
      by_cases hle : b ≤ a
      · rw [NumOp.natValue, if_pos hle] at h
        obtain rfl := Option.some.inj h
        refine ⟨congrArg some ?_, by omega⟩
        apply BitVec.eq_of_toNat_eq
        rw [BitVec.toNat_sub, toNat_ofNat_of_lt ha, toNat_ofNat_of_lt hb,
          toNat_ofNat_of_lt (by omega)]
        omega
      · rw [NumOp.natValue, if_neg hle] at h
        cases h
  | star =>
      by_cases hlt : a * b < 2 ^ 31
      · rw [NumOp.natValue, if_pos hlt] at h
        obtain rfl := Option.some.inj h
        refine ⟨congrArg some ?_, hlt⟩
        rw [mul_comm a b, BitVec.ofNat_mul]
      · rw [NumOp.natValue, if_neg hlt] at h
        cases h
  | slash =>
      by_cases hzero : b = 0
      · rw [NumOp.natValue, if_pos hzero] at h
        cases h
      · rw [NumOp.natValue, if_neg hzero] at h
        obtain rfl := Option.some.inj h
        have hle : a / b ≤ a := Nat.div_le_self a b
        refine ⟨?_, by omega⟩
        rw [NumOp.eval, if_neg (ofNat_ne_zero hb hzero)]
        apply congrArg some
        apply BitVec.eq_of_toNat_eq
        rw [BitVec.toNat_udiv, toNat_ofNat_of_lt ha, toNat_ofNat_of_lt hb,
          toNat_ofNat_of_lt (by omega)]
  | percent =>
      by_cases hzero : b = 0
      · rw [NumOp.natValue, if_pos hzero] at h
        cases h
      · rw [NumOp.natValue, if_neg hzero] at h
        obtain rfl := Option.some.inj h
        have hle : a % b ≤ a := Nat.mod_le a b
        refine ⟨?_, by omega⟩
        rw [NumOp.eval, if_neg (ofNat_ne_zero hb hzero)]
        apply congrArg some
        apply BitVec.eq_of_toNat_eq
        rw [BitVec.toNat_umod, toNat_ofNat_of_lt ha, toNat_ofNat_of_lt hb,
          toNat_ofNat_of_lt (by omega)]

section Words
variable {ρ : String → Option Word}

/-- `x` is the word of `v`. -/
def IsWord (x : Option Word) (v : ℕ) : Prop := x = some (BitVec.ofNat 32 v) ∧ v < 2 ^ 31

theorem isWord_lift {op : NumOp} {x y : Option ℕ} {x' y' : Option Word} {v : ℕ}
    (hx : ∀ a, x = some a → IsWord x' a) (hy : ∀ b, y = some b → IsWord y' b)
    (h : (natMeaning ρ).lift op x y = some v) : IsWord ((wordMeaning ρ).lift op x' y') v := by
  obtain ⟨a, ha, hrest⟩ := Option.bind_eq_some_iff.mp h
  obtain ⟨b, hb, hv⟩ := Option.bind_eq_some_iff.mp hrest
  obtain ⟨rfl, ha⟩ := hx a ha
  obtain ⟨rfl, hb⟩ := hy b hb
  exact NumOp.natValue_eval ha hb hv

mutual

/-- The words of the handlers stand for the numbers of C. -/
theorem sum_word : ∀ (c : CSum) {v : ℕ}, (natMeaning ρ).sum c = some v →
    IsWord ((wordMeaning ρ).sum c) v
  | .product m, _, h => product_word m h
  | .plus a m, _, h => isWord_lift (fun _ => sum_word a) (fun _ => product_word m) h
  | .minus a m, _, h => isWord_lift (fun _ => sum_word a) (fun _ => product_word m) h

theorem product_word : ∀ (m : CProduct) {v : ℕ}, (natMeaning ρ).product m = some v →
    IsWord ((wordMeaning ρ).product m) v
  | .operand p, _, h => operand_word p h
  | .star m p, _, h => isWord_lift (fun _ => product_word m) (fun _ => operand_word p) h
  | .slash m p, _, h => isWord_lift (fun _ => product_word m) (fun _ => operand_word p) h
  | .percent m p, _, h => isWord_lift (fun _ => product_word m) (fun _ => operand_word p) h

theorem operand_word : ∀ (p : COperand) {v : ℕ}, (natMeaning ρ).operand p = some v →
    IsWord ((wordMeaning ρ).operand p) v
  | .call .., _, h => nomatch h
  | .var x, v, h => by
      obtain ⟨w, hw, hv⟩ := Option.bind_eq_some_iff.mp h
      obtain ⟨rfl, hlt⟩ := natOf_eq_some hv
      exact ⟨hw, hlt⟩
  | .lit n, v, h => by
      obtain ⟨rfl, hlt⟩ := natOf_eq_some h
      exact ⟨rfl, hlt⟩
  | .paren a, _, h => sum_word a h

end

end Words

/-! ## Both groupings -/

/-- `a p b q c` has the same value as `(a p b) q c`, or `a p (b q c)` if `q` binds
tighter, and as `a p (b q c)`. -/
def NumOp.regroups : NumOp → NumOp → Bool
  | .plus, _ => true
  | .minus, .star => true
  | .minus, .slash => true
  | .minus, .percent => true
  | .star, .star => true
  | _, _ => false

mutual

/-- The expressions in parentheses, at every depth. -/
def Expr.inner : Expr → List Expr
  | .unary u => u.inner
  | .bin u _ e => u.inner ++ e.inner

def Unary.inner : Unary → List Expr
  | .call .. => []
  | .var _ => []
  | .lit _ => []
  | .paren e => e :: e.inner

end

/-- An expression and the expressions in parentheses. -/
def Expr.levels (e : Expr) : List Expr := e :: e.inner

/-- The operators outside parentheses. -/
def Expr.ops : Expr → List NumOp
  | .unary _ => []
  | .bin _ op e => op :: e.ops

/-- The operands outside parentheses. -/
def Expr.operands : Expr → List Unary
  | .unary u => [u]
  | .bin u _ e => u :: e.operands

/-- Any two operators in a row regroup. -/
def Expr.Regroups (e : Expr) : Prop := e.ops.IsChain fun p q => p.regroups q

instance (e : Expr) : Decidable e.Regroups := by
  unfold Expr.Regroups
  infer_instance

/-- Behind `*` there are only `*`. -/
theorem stars_of_isChain {l : List NumOp} (h : (.star :: l).IsChain fun p q => p.regroups q) :
    ∀ op ∈ l, op = .star := by
  induction l with
  | nil => exact fun _ hop => nomatch hop
  | cons q l ih =>
      obtain ⟨hq, hrest⟩ := List.isChain_cons_cons.mp h
      obtain rfl : q = .star := by cases q <;> first | rfl | cases hq
      intro op hop
      rcases List.mem_cons.mp hop with rfl | hop
      · rfl
      · exact ih hrest op hop

section Groupings
variable {ρ : String → Option Word}

/-- The operation of a handler, on operands that need not have a value. -/
def wordOp (op : NumOp) (x y : Option Word) : Option Word :=
  x.bind fun a => y.bind fun b => op.eval a b

theorem wordOp_assoc {p q : NumOp} (h : ∀ a b c : Word,
    (p.eval a b).bind (q.eval · c) = (q.eval b c).bind (p.eval a ·)) (x y z : Option Word) :
    wordOp q (wordOp p x y) z = wordOp p x (wordOp q y z) := by
  cases x with
  | none => rfl
  | some a =>
      cases y with
      | none => rfl
      | some b =>
          cases z with
          | none => simp [wordOp]
          | some c => simpa [wordOp] using h a b c

theorem plus_plus (x y z : Option Word) :
    wordOp .plus (wordOp .plus x y) z = wordOp .plus x (wordOp .plus y z) :=
  wordOp_assoc (p := .plus) (q := .plus)
    (fun a b c => congrArg some (BitVec.add_assoc a b c)) x y z

theorem plus_minus (x y z : Option Word) :
    wordOp .minus (wordOp .plus x y) z = wordOp .plus x (wordOp .minus y z) :=
  wordOp_assoc (p := .plus) (q := .minus) (fun a b c => by
    change some (a + b - c) = some (a + (b - c))
    rw [BitVec.sub_eq_add_neg, BitVec.sub_eq_add_neg, BitVec.add_assoc]) x y z

theorem star_star (x y z : Option Word) :
    wordOp .star (wordOp .star x y) z = wordOp .star x (wordOp .star y z) :=
  wordOp_assoc (p := .star) (q := .star)
    (fun a b c => congrArg some (BitVec.mul_assoc c b a).symm) x y z

/-- The operands have the same value in both groupings. -/
def Agrees (ρ : String → Option Word) (us : List Unary) : Prop :=
  ∀ u ∈ us, (wordMeaning ρ).operand u.toC = u.eval ρ

theorem Agrees.tail {u : Unary} {us : List Unary} (h : Agrees ρ (u :: us)) : Agrees ρ us :=
  fun v hv => h v (List.mem_cons_of_mem _ hv)

theorem Agrees.head {u : Unary} {us : List Unary} (h : Agrees ρ (u :: us)) :
    (wordMeaning ρ).operand u.toC = u.eval ρ := h u List.mem_cons_self

/-- A product, with `x` in front of it. -/
theorem sum_regroup_star : ∀ (e : Expr) {k : COperand → CProduct} {f : CProduct → CSum}
    {x : Option Word} {F : Option Word → Option Word}, Agrees ρ e.operands →
    (∀ op ∈ e.ops, op = .star) →
    (∀ p, (wordMeaning ρ).product (k p) = wordOp .star x ((wordMeaning ρ).operand p)) →
    (∀ m, (wordMeaning ρ).sum (f m) = F ((wordMeaning ρ).product m)) →
    (wordMeaning ρ).sum (e.regroup k f) = F (wordOp .star x (e.eval ρ))
  | .unary u, k, f, x, F, hu, _, hk, hf => by
      rw [Expr.regroup, hf, hk, hu.head, Expr.eval]
  | .bin u op e, k, f, x, F, hu, hops, hk, hf => by
      obtain rfl : op = .star := hops op List.mem_cons_self
      have hrest := sum_regroup_star e (k := CProduct.star (k u.toC))
        (x := wordOp .star x (u.eval ρ))
        hu.tail (fun op hop => hops op (List.mem_cons_of_mem _ hop)) (fun p => by
          rw [← hu.head, ← hk]
          rfl) hf
      exact hrest.trans (congrArg F (star_star x (u.eval ρ) (e.eval ρ)))

/-- A product, where the sum in front of it does not matter. -/
theorem sum_regroup_product (e : Expr) {k : COperand → CProduct} {f : CProduct → CSum}
    {F : Option Word → Option Word} (hu : Agrees ρ e.operands) (he : e.Regroups)
    (hhead : ∀ op ∈ e.ops.head?, op ≠ .plus ∧ op ≠ .minus)
    (hk : ∀ p, (wordMeaning ρ).product (k p) = (wordMeaning ρ).operand p)
    (hf : ∀ m, (wordMeaning ρ).sum (f m) = F ((wordMeaning ρ).product m)) :
    (wordMeaning ρ).sum (e.regroup k f) = F (e.eval ρ) := by
  cases e with
  | unary u => rw [Expr.regroup, hf, hk, hu.head, Expr.eval]
  | bin u op e =>
      have hchain := List.isChain_cons.mp he
      -- behind `/` and `%` there is no further operator
      have hlast (hop : op = .slash ∨ op = .percent) : ∃ v, e = .unary v := by
        cases e with
        | unary v => exact ⟨v, rfl⟩
        | bin v q e =>
            have hq := hchain.1 q rfl
            rcases hop with rfl | rfl <;> cases q <;> cases hq
      cases op with
      | plus => exact absurd rfl (hhead .plus rfl).1
      | minus => exact absurd rfl (hhead .minus rfl).2
      | star =>
          refine sum_regroup_star e hu.tail (stars_of_isChain he) (fun p => ?_) hf
          rw [← hu.head, ← hk]
          rfl
      | slash =>
          obtain ⟨v, rfl⟩ := hlast (.inl rfl)
          rw [Expr.regroup, Expr.regroup]
          change (wordMeaning ρ).sum (f (.slash (k u.toC) v.toC)) = _
          rw [hf, Expr.eval, Expr.eval, ← hu.head, ← hu.tail.head, ← hk]
          rfl
      | percent =>
          obtain ⟨v, rfl⟩ := hlast (.inr rfl)
          rw [Expr.regroup, Expr.regroup]
          change (wordMeaning ρ).sum (f (.percent (k u.toC) v.toC)) = _
          rw [hf, Expr.eval, Expr.eval, ← hu.head, ← hu.tail.head, ← hk]
          rfl

/-- A sum, with something in front of it to which more can be added. -/
theorem sum_regroup : ∀ (e : Expr) {k : COperand → CProduct} {f : CProduct → CSum}
    {F : Option Word → Option Word}, Agrees ρ e.operands → e.Regroups →
    (∀ p, (wordMeaning ρ).product (k p) = (wordMeaning ρ).operand p) →
    (∀ m, (wordMeaning ρ).sum (f m) = F ((wordMeaning ρ).product m)) →
    (∀ x y, wordOp .plus (F x) y = F (wordOp .plus x y)) →
    (∀ x y, wordOp .minus (F x) y = F (wordOp .minus x y)) →
    (wordMeaning ρ).sum (e.regroup k f) = F (e.eval ρ)
  | .unary u, k, f, F, hu, _, hk, hf, _, _ => by
      rw [Expr.regroup, hf, hk, hu.head, Expr.eval]
  | .bin u .plus e, k, f, F, hu, he, hk, hf, hplus, hminus => by
      have hfront : (wordMeaning ρ).sum (f (k u.toC)) = F (u.eval ρ) := by rw [hf, hk, hu.head]
      have hrest := sum_regroup e (k := .operand) (f := CSum.plus (f (k u.toC)))
        (F := fun y => wordOp .plus (F (u.eval ρ)) y) hu.tail (List.isChain_cons.mp he).2
        (fun p => rfl) (fun m => by
          rw [← hfront]
          rfl) (fun x y => plus_plus _ x y) (fun x y => plus_minus _ x y)
      exact hrest.trans (hplus (u.eval ρ) (e.eval ρ))
  | .bin u .minus e, k, f, F, hu, he, hk, hf, hplus, hminus => by
      have hfront : (wordMeaning ρ).sum (f (k u.toC)) = F (u.eval ρ) := by rw [hf, hk, hu.head]
      have hchain := List.isChain_cons.mp he
      have hhead : ∀ op ∈ e.ops.head?, op ≠ .plus ∧ op ≠ .minus := by
        intro op hop
        have hreg := hchain.1 op hop
        constructor <;> rintro rfl <;> cases hreg
      have hrest := sum_regroup_product e (k := .operand) (f := CSum.minus (f (k u.toC)))
        (F := fun y => wordOp .minus (F (u.eval ρ)) y) hu.tail hchain.2 hhead
        (fun p => rfl) (fun m => by
          rw [← hfront]
          rfl)
      exact hrest.trans (hminus (u.eval ρ) (e.eval ρ))
  | .bin u .star e, k, f, F, hu, he, hk, hf, _, _ =>
      sum_regroup_product _ hu he (by simp [Expr.ops]) hk hf
  | .bin u .slash e, k, f, F, hu, he, hk, hf, _, _ =>
      sum_regroup_product _ hu he (by simp [Expr.ops]) hk hf
  | .bin u .percent e, k, f, F, hu, he, hk, hf, _, _ =>
      sum_regroup_product _ hu he (by simp [Expr.ops]) hk hf

mutual

theorem Expr.operands_agree : ∀ (e : Expr), (∀ part ∈ e.inner, part.Regroups) →
    Agrees ρ e.operands
  | .unary u, h => List.forall_mem_singleton.mpr (u.toC_agrees h)
  | .bin u _ e, h => List.forall_mem_cons.mpr
      ⟨u.toC_agrees fun part hpart => h part (List.mem_append_left _ hpart),
        e.operands_agree fun part hpart => h part (List.mem_append_right _ hpart)⟩

theorem Unary.toC_agrees : ∀ (u : Unary), (∀ part ∈ u.inner, part.Regroups) →
    (wordMeaning ρ).operand u.toC = u.eval ρ
  | .call .., _ => rfl
  | .var _, _ => rfl
  | .lit _, _ => rfl
  | .paren e, h =>
      sum_regroup e (F := id)
        (e.operands_agree fun part hpart => h part (List.mem_cons_of_mem _ hpart))
        (h e List.mem_cons_self) (fun _ => rfl) (fun _ => rfl) (fun _ _ => rfl) (fun _ _ => rfl)

end

/-- **The handlers compute the C value** where the operators at every level regroup. -/
theorem Expr.eval_of_regroups {e : Expr} (h : ∀ part ∈ e.levels, part.Regroups) {v : ℕ}
    (hv : e.toC.value ρ = some v) : e.eval ρ = some (BitVec.ofNat 32 v) ∧ v < 2 ^ 31 := by
  have hagree := (Unary.paren e).toC_agrees (ρ := ρ) h
  have hword := sum_word e.toC hv
  exact ⟨hagree.symm.trans hword.1, hword.2⟩

end Groupings

end Bispe
