import Bispe.Compiler.Precedence

/-!
# Expressions that are grouped wrongly

Where two operators in a row do not regroup there are operands for which the code leaves
another value than C.  They are found by filling in literals: in front of the two
operators such that the value of what follows can be read off the result, behind them
such that nothing changes.

## Main definitions

* `Expr.Alike` — expressions that differ in their operands only.
* `Expr.fill` — operands for an expression of a given value.
* `Expr.Differs` — some operands make the code leave another value.
-/

namespace Bispe

/-! ## Operands -/

mutual

/-- An expression without its operands. -/
def Expr.blank : Expr → Expr
  | .unary u => .unary u.blank
  | .bin u op e => .bin u.blank op e.blank

def Unary.blank : Unary → Unary
  | .call f args => .call f args
  | .var _ => .lit 0
  | .lit _ => .lit 0
  | .paren e => .paren e.blank

end

/-- The expressions have the same operators and parentheses. -/
def Expr.Alike (e e' : Expr) : Prop := e.blank = e'.blank

theorem Expr.ops_blank (e : Expr) : e.blank.ops = e.ops := by
  induction e using Expr.ops.induct with
  | case1 u => rfl
  | case2 u op e ih => exact congrArg (op :: ·) ih

mutual

theorem Expr.inner_blank : ∀ e : Expr, e.blank.inner = e.inner.map Expr.blank
  | .unary u => u.inner_blank
  | .bin u op e => by
      rw [Expr.blank, Expr.inner, Expr.inner, u.inner_blank, e.inner_blank, List.map_append]

theorem Unary.inner_blank : ∀ u : Unary, u.blank.inner = u.inner.map Expr.blank
  | .call .. => rfl
  | .var _ => rfl
  | .lit _ => rfl
  | .paren e => congrArg (e.blank :: ·) e.inner_blank

end

mutual

theorem Expr.calls_blank : ∀ e : Expr, e.blank.calls = e.calls
  | .unary u => u.calls_blank
  | .bin u op e => by rw [Expr.blank, Expr.calls, Expr.calls, u.calls_blank, e.calls_blank]

theorem Unary.calls_blank : ∀ u : Unary, u.blank.calls = u.calls
  | .call .. => rfl
  | .var _ => rfl
  | .lit _ => rfl
  | .paren e => e.calls_blank

end

theorem Expr.regroups_blank (e : Expr) : e.blank.Regroups ↔ e.Regroups := by
  rw [Expr.Regroups, Expr.Regroups, e.ops_blank]

namespace Expr.Alike

variable {e e' : Expr}

theorem calls (h : e.Alike e') : e'.calls = e.calls := by
  rw [← e.calls_blank, ← e'.calls_blank, h]

/-- Whether operators regroup does not depend on the operands. -/
theorem levels (h : e.Alike e') (he : ∀ part ∈ e.levels, part.Regroups) :
    ∀ part ∈ e'.levels, part.Regroups := by
  have hblank (e : Expr) : (∀ part ∈ e.levels, part.Regroups) ↔
      ∀ part ∈ e.blank.levels, part.Regroups := by
    rw [Expr.levels, Expr.levels, e.inner_blank, List.forall_mem_cons, List.forall_mem_cons,
      List.forall_mem_map, e.regroups_blank]
    simp only [Expr.regroups_blank]
  rw [hblank, ← h, ← hblank]
  exact he

end Expr.Alike

mutual

/-- The operands of a part can be exchanged. -/
theorem Expr.exchange : ∀ (e : Expr) {part part' : Expr}, part ∈ e.inner → part.Alike part' →
    ∃ e', e.Alike e' ∧ part' ∈ e'.inner
  | .unary u, part, part', hmem, h => by
      obtain ⟨u', hu, hmem'⟩ := u.exchange hmem h
      exact ⟨.unary u', congrArg Expr.unary hu, hmem'⟩
  | .bin u op e, part, part', hmem, h => by
      rcases List.mem_append.mp hmem with hmem | hmem
      · obtain ⟨u', hu, hmem'⟩ := u.exchange hmem h
        exact ⟨.bin u' op e, congrArg (Expr.bin · op e.blank) hu, List.mem_append_left _ hmem'⟩
      · obtain ⟨e', he, hmem'⟩ := e.exchange hmem h
        exact ⟨.bin u op e', congrArg (Expr.bin u.blank op) he, List.mem_append_right _ hmem'⟩

theorem Unary.exchange : ∀ (u : Unary) {part part' : Expr}, part ∈ u.inner → part.Alike part' →
    ∃ u' : Unary, u.blank = u'.blank ∧ part' ∈ u'.inner
  | .paren e, part, part', hmem, h => by
      rcases List.mem_cons.mp hmem with rfl | hmem
      · exact ⟨.paren part', congrArg Unary.paren h, List.mem_cons_self⟩
      · obtain ⟨e', he, hmem'⟩ := e.exchange hmem h
        exact ⟨.paren e', congrArg Unary.paren he, List.mem_cons_of_mem _ hmem'⟩

end

/-! ## Values in C from the left -/

section Values
variable {ρ : String → Option Word}

/-- What is in front of an expression takes the value of its first operand to that of a
product, and this to that of a sum. -/
structure Front (ρ : String → Option Word) (k : COperand → CProduct) (f : CProduct → CSum)
    (K F : ℕ → Option ℕ) : Prop where
  product : ∀ p, (natMeaning ρ).product (k p) = ((natMeaning ρ).operand p).bind K
  sum : ∀ m, (natMeaning ρ).sum (f m) = ((natMeaning ρ).product m).bind F

theorem Front.start : Front ρ .operand .product some some where
  product _ := (Option.bind_fun_some _).symm
  sum _ := (Option.bind_fun_some _).symm

/-- The product behind an operator. -/
def NumOp.nextProduct (op : NumOp) (K : ℕ → Option ℕ) (a : ℕ) : ℕ → Option ℕ :=
  match op with
  | .plus | .minus => some
  | .star | .slash | .percent => fun x => (K a).bind fun m => op.natValue m x

/-- The sum behind an operator. -/
def NumOp.nextSum (op : NumOp) (K F : ℕ → Option ℕ) (a : ℕ) : ℕ → Option ℕ :=
  match op with
  | .plus | .minus => fun x => ((K a).bind F).bind fun t => op.natValue t x
  | .star | .slash | .percent => F

variable {k : COperand → CProduct} {f : CProduct → CSum} {K F : ℕ → Option ℕ}

/-- An operand and an operator join what is in front. -/
theorem Front.next (h : Front ρ k f K F) {p : COperand} {a : ℕ}
    (hp : (natMeaning ρ).operand p = some a) (op : NumOp) :
    Front ρ (op.factor (k p)) (op.term f (k p)) (op.nextProduct K a) (op.nextSum K F a) := by
  have hproduct : (natMeaning ρ).product (k p) = K a := by rw [h.product, hp]; rfl
  have hsum : (natMeaning ρ).sum (f (k p)) = (K a).bind F := by rw [h.sum, hproduct]
  have hlift (op : NumOp) {x x' : Option ℕ} (hx : x = x') (y : Option ℕ) :
      (natMeaning ρ).lift op x y = y.bind fun b => x'.bind fun a => op.natValue a b := by
    rw [← hx]
    cases x <;> cases y <;> rfl
  cases op with
  | plus => exact ⟨fun _ => (Option.bind_fun_some _).symm, fun m => hlift .plus hsum _⟩
  | minus => exact ⟨fun _ => (Option.bind_fun_some _).symm, fun m => hlift .minus hsum _⟩
  | star => exact ⟨fun q => hlift .star hproduct _, h.sum⟩
  | slash => exact ⟨fun q => hlift .slash hproduct _, h.sum⟩
  | percent => exact ⟨fun q => hlift .percent hproduct _, h.sum⟩

/-! ## Filling in -/

/-- An operand that changes nothing behind an operator, if no value in front of it
exceeds `b`. -/
def NumOp.neutral (b : ℕ) : NumOp → ℕ
  | .plus => 0
  | .minus => 0
  | .star => 1
  | .slash => 1
  | .percent => b + 1

/-- The bound behind that operand. -/
def NumOp.raise (b : ℕ) : NumOp → ℕ
  | .percent => b + 1
  | _ => b

mutual

/-- Operands with which the value is `v`. -/
def Expr.fill : Expr → ℕ → ℕ → Expr
  | .unary u, v, b => .unary (u.fill v b)
  | .bin u op e, v, b => .bin (u.fill v b) op (e.fill (op.neutral b) (op.raise b))

def Unary.fill : Unary → ℕ → ℕ → Unary
  | .call f args, _, _ => .call f args
  | .var _, v, _ => .lit (BitVec.ofNat 32 v)
  | .lit _, v, _ => .lit (BitVec.ofNat 32 v)
  | .paren e, v, b => .paren (e.fill v b)

end

mutual

/-- The number of operators. -/
def Expr.opCount : Expr → ℕ
  | .unary u => u.opCount
  | .bin u _ e => u.opCount + e.opCount + 1

def Unary.opCount : Unary → ℕ
  | .call .. => 0
  | .var _ => 0
  | .lit _ => 0
  | .paren e => e.opCount

end

mutual

theorem Expr.fill_alike : ∀ (e : Expr) (v b : ℕ), e.Alike (e.fill v b)
  | .unary u, v, b => congrArg Expr.unary (u.fill_blank v b)
  | .bin u op e, v, b => congrArg₂ (Expr.bin · op ·) (u.fill_blank v b)
      (e.fill_alike (op.neutral b) (op.raise b))

theorem Unary.fill_blank : ∀ (u : Unary) (v b : ℕ), u.blank = (u.fill v b).blank
  | .call .., _, _ => rfl
  | .var _, _, _ => rfl
  | .lit _, _, _ => rfl
  | .paren e, v, b => congrArg Unary.paren (e.fill_alike v b)

end

/-- A value and a bound that leave room for an expression with `n` operators. -/
structure Room (n v b : ℕ) : Prop where
  le : v ≤ b
  pos : 1 ≤ b
  lt : b + n < 2 ^ 31

theorem Room.bound {n v b : ℕ} (h : Room n v b) : b < 2 ^ 31 := by
  have hlt := h.lt
  omega

theorem Room.value {n v b : ℕ} (h : Room n v b) : v < 2 ^ 31 := lt_of_le_of_lt h.le h.bound

theorem natOf_ofNat {v : ℕ} (h : v < 2 ^ 31) : natOf (BitVec.ofNat 32 v) = some v := by
  rw [natOf, toNat_ofNat_of_lt h, if_pos h]

theorem Room.next {v b : ℕ} {u : Unary} {op : NumOp} {e : Expr}
    (h : Room (Expr.bin u op e).opCount v b) : Room u.opCount v b ∧
      Room e.opCount (op.neutral b) (op.raise b) := by
  obtain ⟨hle, hpos, hlt⟩ := h
  rw [Expr.opCount] at hlt
  refine ⟨⟨hle, hpos, by omega⟩, ?_⟩
  cases op <;> constructor <;> simp only [NumOp.neutral, NumOp.raise] <;> omega

theorem NumOp.eval_neutral {op : NumOp} {v b : ℕ} (hle : v ≤ b) (hlt : b + 1 < 2 ^ 31) :
    op.eval (BitVec.ofNat 32 v) (BitVec.ofNat 32 (op.neutral b)) = some (BitVec.ofNat 32 v) := by
  have hvalue : op.natValue v (op.neutral b) = some v := by
    have hmod : v % (b + 1) = v := Nat.mod_eq_of_lt (by omega)
    have hv : v < 2 ^ 31 := by omega
    cases op <;> simp [NumOp.natValue, NumOp.neutral, hmod] <;> omega
  refine (NumOp.natValue_eval (by omega) ?_ hvalue).1
  cases op <;> simp only [NumOp.neutral] <;> omega

mutual

theorem Expr.fill_eval : ∀ (e : Expr) {v b : ℕ}, e.calls = [] → Room e.opCount v b →
    (e.fill v b).eval ρ = some (BitVec.ofNat 32 v)
  | .unary u, v, b, he, hb => u.fill_eval he hb
  | .bin u op e, v, b, he, hb => by
      obtain ⟨hu, he⟩ := List.append_eq_nil_iff.mp he
      have hlt := hb.lt
      rw [Expr.opCount] at hlt
      rw [Expr.fill, Expr.eval, u.fill_eval hu hb.next.1, e.fill_eval he hb.next.2]
      exact NumOp.eval_neutral hb.le (by omega)

theorem Unary.fill_eval : ∀ (u : Unary) {v b : ℕ}, u.calls = [] → Room u.opCount v b →
    (u.fill v b).eval ρ = some (BitVec.ofNat 32 v)
  | .call .., _, _, he, _ => by simp [Unary.calls] at he
  | .var _, _, _, _, _ => rfl
  | .lit _, _, _, _, _ => rfl
  | .paren e, v, b, he, hb => e.fill_eval he hb

end

/-- The operand behind an operator changes nothing in C. -/
theorem NumOp.next_neutral {K F : ℕ → Option ℕ} {v b m s : ℕ} (op : NumOp) (hm : K v = some m)
    (hle : m ≤ b) (hb : b < 2 ^ 31) (hs : F m = some s) (hlt : s < 2 ^ 31) :
    ∃ m' ≤ op.raise b, op.nextProduct K v (op.neutral b) = some m' ∧
      op.nextSum K F v m' = some s := by
  have hmod : m % (b + 1) = m := Nat.mod_eq_of_lt (by omega)
  have hm31 : m < 2 ^ 31 := by omega
  cases op with
  | plus => exact ⟨0, Nat.zero_le _, rfl, by simpa [nextSum, hm, hs, natValue] using hlt⟩
  | minus => exact ⟨0, Nat.zero_le _, rfl, by simp [nextSum, hm, hs, natValue]⟩
  | star => exact ⟨m, hle, by simpa [nextProduct, hm, natValue, neutral] using hm31, hs⟩
  | slash => exact ⟨m, hle, by simp [nextProduct, hm, natValue, neutral], hs⟩
  | percent =>
      exact ⟨m, hle.trans (Nat.le_succ b), by simp [nextProduct, hm, natValue, neutral, hmod], hs⟩

mutual

theorem Expr.fill_value : ∀ (e : Expr) {v b m s : ℕ} {k : COperand → CProduct}
    {f : CProduct → CSum} {K F : ℕ → Option ℕ}, e.calls = [] → Room e.opCount v b →
    Front ρ k f K F → K v = some m → m ≤ b → F m = some s → s < 2 ^ 31 →
    (natMeaning ρ).sum ((e.fill v b).regroup k f) = some s
  | .unary u, v, b, m, s, k, f, K, F, he, hb, h, hm, _, hs, _ => by
      rw [Expr.fill, Expr.regroup, h.sum, h.product, u.fill_value he hb]
      change (K v).bind F = some s
      rw [hm]
      exact hs
  | .bin u op e, v, b, m, s, k, f, K, F, he, hb, h, hm, hmb, hs, hlt => by
      obtain ⟨hu, he⟩ := List.append_eq_nil_iff.mp he
      have hnext := h.next (u.fill_value hu hb.next.1) op
      obtain ⟨m', hle, hproduct, hsum⟩ := op.next_neutral hm hmb hb.bound hs hlt
      exact e.fill_value he hb.next.2 hnext hproduct hle hsum hlt

theorem Unary.fill_value : ∀ (u : Unary) {v b : ℕ}, u.calls = [] → Room u.opCount v b →
    (natMeaning ρ).operand (u.fill v b).toC = some v
  | .call .., _, _, he, _ => by simp [Unary.calls] at he
  | .var _, _, _, _, hb => natOf_ofNat hb.value
  | .lit _, _, _, _, hb => natOf_ofNat hb.value
  | .paren e, v, b, he, hb => e.fill_value he hb .start rfl hb.le rfl hb.value

end

/-! ## The first two operators -/

/-- Operands for which two operators that do not regroup show it. -/
def NumOp.sample : NumOp → NumOp → ℕ × ℕ × ℕ
  | .minus, _ => (5, 1, 1)
  | .star, .plus => (3, 2, 1)
  | .star, .minus => (3, 2, 1)
  | .star, .slash => (2, 3, 2)
  | .star, .percent => (2, 3, 4)
  | .slash, .plus => (6, 1, 1)
  | .slash, .minus => (6, 2, 1)
  | .slash, .percent => (4, 1, 3)
  | .slash, _ => (4, 2, 2)
  | .percent, .plus => (3, 4, 1)
  | .percent, .minus => (3, 5, 1)
  | .percent, .star => (3, 4, 2)
  | .percent, .slash => (3, 8, 2)
  | .percent, .percent => (5, 7, 4)
  | _, _ => (0, 0, 0)

/-- What is in front of an expression: nothing that changes its value, or `100 -`. -/
def inFront (neg : Bool) (x : ℕ) : ℕ := if neg then 100 - x else x

/-- The same for the code. -/
def inFrontWord (neg : Bool) (w : Word) : Word := if neg then 100 - w else w

/-- A value up to 100, to be taken further. -/
def small (F : ℕ → ℕ) (x : ℕ) : Option ℕ := if x ≤ 100 then some (F x) else none

theorem sample_differs : ∀ (p q : NumOp) (neg : Bool), p.regroups q = false →
    (neg = true → p ≠ .minus) →
    ∃ m ∈ (q.nextProduct (p.nextProduct (small id) (p.sample q).1) (p.sample q).2.1)
        (p.sample q).2.2, m ≤ 100 ∧
      ∃ s ∈ q.nextSum (p.nextProduct (small id) (p.sample q).1)
          (p.nextSum (small id) (small (inFront neg)) (p.sample q).1) (p.sample q).2.1 m,
        s ≤ 100 ∧
        ∃ r ∈ (q.eval (BitVec.ofNat 32 (p.sample q).2.1) (BitVec.ofNat 32 (p.sample q).2.2)).bind
            (p.eval (BitVec.ofNat 32 (p.sample q).1) ·),
          BitVec.ofNat 32 s ≠ inFrontWord neg r := by
  intro p q neg h hneg
  cases p <;> cases q <;> cases neg <;> first
    | exact Bool.noConfusion h
    | exact absurd rfl (hneg rfl)
    | exact ⟨_, rfl, by decide, _, rfl, by decide, _, rfl, by decide⟩

theorem small_eq_some {F : ℕ → ℕ} {x y : ℕ} (h : small F x = some y) : x ≤ 100 ∧ F x = y := by
  by_cases hx : x ≤ 100
  · rw [small, if_pos hx] at h
    exact ⟨hx, Option.some.inj h⟩
  · rw [small, if_neg hx] at h
    cases h

/-- `K` has the values of `G`. -/
def Extends (G K : ℕ → Option ℕ) : Prop := ∀ x y, G x = some y → K x = some y

theorem Extends.nextProduct {G K : ℕ → Option ℕ} (h : Extends G K) (op : NumOp) (a : ℕ) :
    Extends (op.nextProduct G a) (op.nextProduct K a) := by
  intro x y hx
  cases op with
  | plus => exact hx
  | minus => exact hx
  | star =>
      obtain ⟨m, hm, hy⟩ := Option.bind_eq_some_iff.mp hx
      exact Option.bind_eq_some_iff.mpr ⟨m, h a m hm, hy⟩
  | slash =>
      obtain ⟨m, hm, hy⟩ := Option.bind_eq_some_iff.mp hx
      exact Option.bind_eq_some_iff.mpr ⟨m, h a m hm, hy⟩
  | percent =>
      obtain ⟨m, hm, hy⟩ := Option.bind_eq_some_iff.mp hx
      exact Option.bind_eq_some_iff.mpr ⟨m, h a m hm, hy⟩

theorem Extends.nextSum {G K H F : ℕ → Option ℕ} (h : Extends G K) (h' : Extends H F)
    (op : NumOp) (a : ℕ) : Extends (op.nextSum G H a) (op.nextSum K F a) := by
  intro x y hx
  cases op with
  | plus =>
      obtain ⟨t, ht, hy⟩ := Option.bind_eq_some_iff.mp hx
      obtain ⟨m, hm, ht⟩ := Option.bind_eq_some_iff.mp ht
      exact Option.bind_eq_some_iff.mpr
        ⟨t, Option.bind_eq_some_iff.mpr ⟨m, h a m hm, h' m t ht⟩, hy⟩
  | minus =>
      obtain ⟨t, ht, hy⟩ := Option.bind_eq_some_iff.mp hx
      obtain ⟨m, hm, ht⟩ := Option.bind_eq_some_iff.mp ht
      exact Option.bind_eq_some_iff.mpr
        ⟨t, Option.bind_eq_some_iff.mpr ⟨m, h a m hm, h' m t ht⟩, hy⟩
  | star => exact h' x y hx
  | slash => exact h' x y hx
  | percent => exact h' x y hx

/-- Some operands make C and the code differ, behind what `neg` says. -/
def Expr.Differs (ρ : String → Option Word) (e : Expr) (neg : Bool) : Prop :=
  ∃ e' : Expr, e.Alike e' ∧ ∃ s ≤ 100, ∃ r, e'.eval ρ = some r ∧
    BitVec.ofNat 32 s ≠ inFrontWord neg r ∧
    ∀ {k f K F}, Front ρ k f K F → Extends (small id) K → Extends (small (inFront neg)) F →
      (natMeaning ρ).sum (e'.regroup k f) = some s

/-- Two operators that do not regroup, at the start. -/
theorem differs_sample {u v : Unary} {p q : NumOp} {e : Expr} {neg : Bool}
    (hcalls : (Expr.bin u p (.bin v q e)).calls = [])
    (hcount : 100 + (Expr.bin u p (.bin v q e)).opCount < 2 ^ 31) (h : p.regroups q = false)
    (hneg : neg = true → p ≠ .minus) : (Expr.bin u p (.bin v q e)).Differs ρ neg := by
  obtain ⟨hu, hrest⟩ := List.append_eq_nil_iff.mp hcalls
  obtain ⟨hv, he⟩ := List.append_eq_nil_iff.mp hrest
  rw [Expr.opCount, Expr.opCount] at hcount
  obtain ⟨m, hm, hm100, s, hs, hs100, r, hr, hne⟩ := sample_differs p q neg h hneg
  have hle : (p.sample q).1 ≤ 100 ∧ (p.sample q).2.1 ≤ 100 ∧ (p.sample q).2.2 ≤ 100 := by
    cases p <;> cases q <;> decide
  obtain ⟨hla, hlb, hlc⟩ := hle
  have hroomu : Room u.opCount (p.sample q).1 100 := ⟨hla, by omega, by omega⟩
  have hroomv : Room v.opCount (p.sample q).2.1 100 := ⟨hlb, by omega, by omega⟩
  have hroome : Room e.opCount (p.sample q).2.2 100 := ⟨hlc, by omega, by omega⟩
  refine ⟨.bin (u.fill (p.sample q).1 100) p (.bin (v.fill (p.sample q).2.1 100) q
    (e.fill (p.sample q).2.2 100)), ?_, s, hs100, r, ?_, hne, ?_⟩
  · rw [Expr.Alike, Expr.blank, Expr.blank, u.fill_blank (p.sample q).1 100,
      v.fill_blank (p.sample q).2.1 100, e.fill_alike (p.sample q).2.2 100]
    rfl
  · rw [Expr.eval, Expr.eval, u.fill_eval hu hroomu, v.fill_eval hv hroomv,
      e.fill_eval he hroome]
    exact hr
  · intro k f K F hfront hK hF
    have hfront' := (hfront.next (u.fill_value hu hroomu) p).next (v.fill_value hv hroomv) q
    have hK' := hK.nextProduct p (p.sample q).1
    have hF' := hK.nextSum hF p (p.sample q).1
    exact e.fill_value he hroome hfront' (hK'.nextProduct q _ _ _ hm) hm100
      (hK'.nextSum hF' q _ _ _ hs) (by omega)

/-- An operator in front of an expression that differs: `0 +`, `100 -` or `1 *`. -/
theorem Expr.Differs.cons {u : Unary} {op : NumOp} {e : Expr} {neg neg' : Bool} {a : ℕ}
    (hu : u.calls = []) (hroom : Room u.opCount a 100) (h : e.Differs ρ neg')
    (hword : ∀ r, ∃ r', op.eval (BitVec.ofNat 32 a) r = some r' ∧
      inFrontWord neg r' = inFrontWord neg' r)
    (hproduct : ∀ K, Extends (small id) K → Extends (small id) (op.nextProduct K a))
    (hsum : ∀ K F, Extends (small id) K → Extends (small (inFront neg)) F →
      Extends (small (inFront neg')) (op.nextSum K F a)) :
    (Expr.bin u op e).Differs ρ neg := by
  obtain ⟨e', halike, s, hs, r, hr, hne, hvalue⟩ := h
  obtain ⟨r', hr', heq⟩ := hword r
  refine ⟨.bin (u.fill a 100) op e', ?_, s, hs, r', ?_, ?_, ?_⟩
  · rw [Expr.Alike, Expr.blank, u.fill_blank a 100, halike]
    rfl
  · rw [Expr.eval, u.fill_eval hu hroom, hr]
    exact hr'
  · rwa [heq]
  · intro k f K F hfront hK hF
    exact hvalue (hfront.next (u.fill_value hu hroom) op) (hproduct K hK) (hsum K F hK hF)

/-- **Operators that do not regroup make a difference.**  The first two of them in a row
are reached through operators that do. -/
theorem Expr.differs : ∀ (e : Expr) (neg : Bool), e.calls = [] → 100 + e.opCount < 2 ^ 31 →
    ¬ e.Regroups → (neg = true → ∀ op ∈ e.ops.head?, op ≠ .plus ∧ op ≠ .minus) →
    e.Differs ρ neg
  | .unary _, _, _, _, h, _ => absurd List.isChain_nil h
  | .bin _ op (.unary _), _, _, _, h, _ => absurd (List.isChain_singleton op) h
  | .bin u p (.bin v q e), neg, hcalls, hcount, h, hneg => by
      cases hpq : p.regroups q with
      | false =>
          exact differs_sample hcalls hcount hpq fun hn => (hneg hn p rfl).2
      | true =>
          obtain ⟨hu, hrest⟩ := List.append_eq_nil_iff.mp hcalls
          have hbound : 100 + u.opCount < 2 ^ 31 ∧ 100 + (Expr.bin v q e).opCount < 2 ^ 31 := by
            rw [Expr.opCount] at hcount
            omega
          have hbad : ¬ (Expr.bin v q e).Regroups :=
            fun hgood => h (List.isChain_cons_cons.mpr ⟨hpq, hgood⟩)
          have ih (neg' : Bool) := (Expr.bin v q e).differs neg' hrest hbound.2 hbad
          have hhead (hp : p ≠ .plus) : ∀ op ∈ (Expr.bin v q e).ops.head?,
              op ≠ .plus ∧ op ≠ .minus := by
            intro op hop
            obtain rfl : q = op := Option.some.inj hop
            constructor <;> rintro rfl <;> cases p <;> first | exact absurd rfl hp | cases hpq
          cases p with
          | plus =>
              obtain rfl : neg = false := by
                cases neg with
                | false => rfl
                | true => exact absurd rfl (hneg rfl .plus rfl).1
              refine (ih false fun hn => absurd hn Bool.false_ne_true).cons (a := 0) hu
                ⟨Nat.zero_le _, by decide, hbound.1⟩ (fun r => ⟨0 + r, rfl, ?_⟩) ?_ ?_
              · simp
              · intro K _ x y hx
                exact congrArg some (small_eq_some hx).2
              · intro K F hK hF x y hx
                obtain ⟨hle, rfl⟩ := small_eq_some hx
                have hlt : x < 2 ^ 31 := by omega
                simpa [NumOp.nextSum, hK 0 0 rfl, hF 0 0 rfl, NumOp.natValue, inFront] using hlt
          | minus =>
              obtain rfl : neg = false := by
                cases neg with
                | false => rfl
                | true => exact absurd rfl (hneg rfl .minus rfl).2
              refine (ih true fun _ => hhead (by decide)).cons (a := 100) hu
                ⟨le_refl _, by decide, hbound.1⟩ (fun r => ⟨100 - r, rfl, rfl⟩) ?_ ?_
              · intro K _ x y hx
                exact congrArg some (small_eq_some hx).2
              · intro K F hK hF x y hx
                obtain ⟨hle, rfl⟩ := small_eq_some hx
                simpa [NumOp.nextSum, hK 100 100 rfl, hF 100 100 rfl, NumOp.natValue, inFront]
                  using hle
          | star =>
              refine (ih neg fun _ => hhead (by decide)).cons (a := 1) hu
                ⟨by decide, by decide, hbound.1⟩
                (fun r => ⟨r * 1, rfl, ?_⟩) ?_ ?_
              · simp
              · intro K hK x y hx
                obtain ⟨hle, rfl⟩ := small_eq_some hx
                have hlt : x < 2 ^ 31 := by omega
                simpa [NumOp.nextProduct, hK 1 1 rfl, NumOp.natValue] using hlt
              · exact fun K F _ hF => hF
          | slash => cases q <;> cases hpq
          | percent => cases q <;> cases hpq

end Values

/-! ## Runs -/

/-- The code of an expression leaves its C value on the operand stack, for all values of
its variables for which it has one. -/
def Expr.MeansC (e : Expr) : Prop :=
  ∀ (ρ : String → Option Word) (v : ℕ), e.toC.value ρ = some v →
    ∀ (p : Program) (ft : FuncTable) (junk : Junk) (name : String) (t : Flat),
      p.Holds t.ip (e.emit ft junk name) → Locals ft name ρ t → t.sp + e.temps < p.stackWords →
      LeavesInt p t (e.emit ft junk name).length v

theorem toInt_ofNat_of_lt {v : ℕ} (h : v < 2 ^ 31) : (BitVec.ofNat 32 v).toInt = v := by
  rw [BitVec.toInt_eq_toNat_of_lt (by rw [toNat_ofNat_of_lt h]; omega), toNat_ofNat_of_lt h]

/-- Expressions in which operators regroup mean what they mean in C. -/
theorem Expr.meansC_of_regroups {e : Expr} (h : ∀ part ∈ e.levels, part.Regroups) :
    e.MeansC := by
  intro ρ v hv p ft junk name t hcode hf hroom
  obtain ⟨hw, hlt⟩ := Expr.eval_of_regroups h hv
  obtain ⟨t', hrun, hpush⟩ := e.run hw hcode hf hroom
  rw [leavesInt_iff hrun (by rw [hpush.sp]; exact hpush.top)]
  exact toInt_ofNat_of_lt hlt

/-- Where two operators in a row do not regroup, some operands show it. -/
theorem Expr.exists_not_meansC {e : Expr} (hcalls : e.calls = [])
    (hcount : 100 + e.opCount < 2 ^ 31) (h : ¬ e.Regroups) :
    ∃ e' : Expr, e.Alike e' ∧ ¬ e'.MeansC := by
  obtain ⟨e', halike, s, hs, r, hr, hne, hvalue⟩ :=
    e.differs (ρ := fun _ => none) false hcalls hcount h nofun
  refine ⟨e', halike, fun hmeans => hne ?_⟩
  have hC : e'.toC.value (fun _ => none) = some s := by
    apply hvalue .start
    · exact fun x y hx => congrArg some (small_eq_some hx).2
    · exact fun x y hx => congrArg some (small_eq_some hx).2
  let code := e'.emit (fun _ => none) (fun _ => 0) "main"
  have hcode := Program.ofCode_holds code (e'.temps + 1) 16 []
  have hlocals : Locals (fun _ => none) "main" (fun _ => none) .initial := ⟨nofun, nofun⟩
  have hroom : Flat.initial.sp + e'.temps <
      (Program.ofCode code (e'.temps + 1) 16 []).stackWords := by
    change 0 + e'.temps < e'.temps + 1
    omega
  obtain ⟨t', hrun, hpush⟩ := e'.run hr hcode hlocals hroom
  have hleaves := hmeans _ s hC _ _ _ _ _ hcode hlocals hroom
  rw [leavesInt_iff hrun (by rw [hpush.sp]; exact hpush.top)] at hleaves
  apply BitVec.eq_of_toInt_eq
  rw [toInt_ofNat_of_lt (by omega), ← hleaves]
  rfl

end Bispe
