import Bispe.Compiler.Accepted
import Bispe.Compiler.Literals
import Bispe.Compiler.Regrouping
import Bispe.Compiler.Unique
import Mathlib.Tactic.IntervalCases

/-!
# Expressions and their tokens

The tokens of an expression without calls and signs, as the parser groups them and as C
does.  The parser reads each such list as the expression it spells, and the same tokens
spell the expression of C.

## Main definitions

* `Expr.Spells`, `CSum.Spells` — the tokens of an expression, and of one of C.
* `Plain` — no identifier of a token list is called and no `-` is a sign.
* `ReadAs` — the parser accepts tokens as an expression.
-/

namespace Bispe

open Effect

/-! ## Tokens -/

mutual

/-- The tokens of an expression without calls. -/
inductive Expr.Spells : Expr → List Token → Prop
  | unary {u : Unary} {w : List Token} (h : Unary.Spells u w) : Expr.Spells (.unary u) w
  | bin {u : Unary} {op : NumOp} {e : Expr} {w w' : List Token} {token : Token}
      (hu : Unary.Spells u w) (hop : token.type = op.tok) (he : Expr.Spells e w') :
      Expr.Spells (.bin u op e) (w ++ token :: w')

inductive Unary.Spells : Unary → List Token → Prop
  | var {token : Token} (htype : token.type = .tokIdentifier) :
      Unary.Spells (.var token.val) [token]
  | lit {token : Token} {n : Word} (htype : token.type = .tokIntliteral)
      (hn : ∀ s, literalNumber token s = .ok n s) : Unary.Spells (.lit n) [token]
  | paren {e : Expr} {w : List Token} {opening closing : Token} (ho : opening.type = .tokOpenpa)
      (hc : closing.type = .tokClosepa) (h : Expr.Spells e w) :
      Unary.Spells (.paren e) (opening :: (w ++ [closing]))

end

mutual

/-- The tokens of an expression of C. -/
inductive CSum.Spells : CSum → List Token → Prop
  | product {m : CProduct} {w : List Token} (h : CProduct.Spells m w) : CSum.Spells (.product m) w
  | plus {a : CSum} {m : CProduct} {w w' : List Token} {token : Token} (ha : CSum.Spells a w)
      (hop : token.type = .tokPlus) (hm : CProduct.Spells m w') :
      CSum.Spells (.plus a m) (w ++ token :: w')
  | minus {a : CSum} {m : CProduct} {w w' : List Token} {token : Token} (ha : CSum.Spells a w)
      (hop : token.type = .tokMinus) (hm : CProduct.Spells m w') :
      CSum.Spells (.minus a m) (w ++ token :: w')

inductive CProduct.Spells : CProduct → List Token → Prop
  | operand {p : COperand} {w : List Token} (h : COperand.Spells p w) :
      CProduct.Spells (.operand p) w
  | star {m : CProduct} {p : COperand} {w w' : List Token} {token : Token}
      (hm : CProduct.Spells m w) (hop : token.type = .tokStar) (hp : COperand.Spells p w') :
      CProduct.Spells (.star m p) (w ++ token :: w')
  | slash {m : CProduct} {p : COperand} {w w' : List Token} {token : Token}
      (hm : CProduct.Spells m w) (hop : token.type = .tokSlash) (hp : COperand.Spells p w') :
      CProduct.Spells (.slash m p) (w ++ token :: w')
  | percent {m : CProduct} {p : COperand} {w w' : List Token} {token : Token}
      (hm : CProduct.Spells m w) (hop : token.type = .tokPercent) (hp : COperand.Spells p w') :
      CProduct.Spells (.percent m p) (w ++ token :: w')

inductive COperand.Spells : COperand → List Token → Prop
  | var {token : Token} (htype : token.type = .tokIdentifier) :
      COperand.Spells (.var token.val) [token]
  | lit {token : Token} {n : Word} (htype : token.type = .tokIntliteral)
      (hn : ∀ s, literalNumber token s = .ok n s) : COperand.Spells (.lit n) [token]
  | paren {a : CSum} {w : List Token} {opening closing : Token} (ho : opening.type = .tokOpenpa)
      (hc : closing.type = .tokClosepa) (h : CSum.Spells a w) :
      COperand.Spells (.paren a) (opening :: (w ++ [closing]))

end

/-- The tokens in front of an expression: of the sum and of the product that it goes on. -/
structure SpellsFront (k : COperand → CProduct) (f : CProduct → CSum) (w w' : List Token) :
    Prop where
  product : ∀ p x, COperand.Spells p x → CProduct.Spells (k p) (w' ++ x)
  sum : ∀ m x, CProduct.Spells m x → CSum.Spells (f m) (w ++ x)

theorem SpellsFront.next {k : COperand → CProduct} {f : CProduct → CSum} {w w' x : List Token}
    (h : SpellsFront k f w w') {p : COperand} (hp : COperand.Spells p x) {op : NumOp}
    {token : Token} (hop : token.type = op.tok) :
    ∃ v v', v ++ v' = w ++ w' ++ x ++ [token] ∧
      SpellsFront (op.factor (k p)) (op.term f (k p)) v v' := by
  have hproduct := h.product p x hp
  have hsum := h.sum (k p) _ hproduct
  cases op with
  | plus =>
      refine ⟨w ++ (w' ++ x) ++ [token], [], by simp, fun p x hp => .operand hp, ?_⟩
      intro m y hm
      simpa [NumOp.term] using CSum.Spells.plus hsum hop hm
  | minus =>
      refine ⟨w ++ (w' ++ x) ++ [token], [], by simp, fun p x hp => .operand hp, ?_⟩
      intro m y hm
      simpa [NumOp.term] using CSum.Spells.minus hsum hop hm
  | star =>
      refine ⟨w, w' ++ x ++ [token], by simp, ?_, h.sum⟩
      intro q y hq
      simpa [NumOp.factor] using CProduct.Spells.star hproduct hop hq
  | slash =>
      refine ⟨w, w' ++ x ++ [token], by simp, ?_, h.sum⟩
      intro q y hq
      simpa [NumOp.factor] using CProduct.Spells.slash hproduct hop hq
  | percent =>
      refine ⟨w, w' ++ x ++ [token], by simp, ?_, h.sum⟩
      intro q y hq
      simpa [NumOp.factor] using CProduct.Spells.percent hproduct hop hq

mutual

theorem Expr.Spells.regroup : ∀ {e : Expr} {x : List Token}, e.Spells x →
    ∀ {k : COperand → CProduct} {f : CProduct → CSum} {w w' : List Token},
      SpellsFront k f w w' → CSum.Spells (e.regroup k f) (w ++ w' ++ x)
  | _, _, .unary hu, k, f, w, w', h => by
      rw [List.append_assoc]
      exact h.sum _ _ (h.product _ _ hu.toC)
  | .bin u op e, _, .bin hu hop he, k, f, w, w', h => by
      obtain ⟨v, v', hv, hnext⟩ := h.next hu.toC hop
      have hrest := he.regroup hnext
      rw [hv] at hrest
      rw [Expr.regroup]
      simpa using hrest

/-- **The tokens of an expression spell an expression of C.** -/
theorem Unary.Spells.toC : ∀ {u : Unary} {x : List Token}, u.Spells x → COperand.Spells u.toC x
  | _, _, .var htype => .var htype
  | _, _, .lit htype hn => .lit htype hn
  | _, _, .paren ho hc he =>
      have hfront : SpellsFront .operand .product [] [] :=
        ⟨fun _ _ hp => .operand hp, fun _ _ hm => .product hm⟩
      .paren ho hc (he.regroup hfront)

end

/-! ## Tokens for an expression -/

theorem exists_octalDigit : ∀ d < 8, ∃ ch, isOctalDigit ch = true ∧ digitVal ch = some d := by
  intro d hd
  refine ⟨['0', '1', '2', '3', '4', '5', '6', '7'].getD d '0', ?_⟩
  interval_cases d <;> decide

/-- Every number has a numeral. -/
theorem exists_numeral (n : ℕ) : ∃ text, IsNumeral text n := by
  have hdigits : ∃ ds, (∀ ch ∈ ds, isOctalDigit ch = true) ∧ numeralValue 8 ds = n := by
    induction n using Nat.strong_induction_on with
    | _ n ih =>
        by_cases hn : n = 0
        · exact ⟨[], nofun, hn.symm⟩
        · obtain ⟨ds, hds, hvalue⟩ := ih (n / 8) (by omega)
          obtain ⟨ch, hch, hdigit⟩ := exists_octalDigit (n % 8) (by omega)
          refine ⟨ds ++ [ch], ?_, ?_⟩
          · intro c hc
            rcases List.mem_append.mp hc with hc | hc
            · exact hds c hc
            · rwa [List.mem_singleton.mp hc]
          · rw [numeralValue, List.foldl_append, ← numeralValue, hvalue]
            simp only [List.foldl_cons, List.foldl_nil, hdigit, Option.getD_some]
            omega
  obtain ⟨ds, hds, rfl⟩ := hdigits
  exact ⟨'0' :: ds, .octal ds hds⟩

mutual

/-- An expression without calls has tokens. -/
theorem Expr.exists_spells : ∀ (e : Expr), e.calls = [] → ∃ w, e.Spells w
  | .unary u, he => by
      obtain ⟨w, hw⟩ := u.exists_spells he
      exact ⟨w, .unary hw⟩
  | .bin u op e, he => by
      obtain ⟨hu, he⟩ := List.append_eq_nil_iff.mp he
      obtain ⟨w, hw⟩ := u.exists_spells hu
      obtain ⟨w', hw'⟩ := e.exists_spells he
      exact ⟨w ++ ⟨op.tok, ""⟩ :: w', .bin hw rfl hw'⟩

theorem Unary.exists_spells : ∀ (u : Unary), u.calls = [] → ∃ w, u.Spells w
  | .call .., he => by simp [Unary.calls] at he
  | .var x, _ =>
      let token : Token := ⟨.tokIdentifier, x⟩
      ⟨[token], .var (show token.type = .tokIdentifier from rfl)⟩
  | .lit n, _ => by
      obtain ⟨text, htext⟩ := exists_numeral n.toNat
      have hnumeral :
          IsNumeral (Token.mk .tokIntliteral (String.ofList text)).val.toList n.toNat := by
        simpa using htext
      refine ⟨[⟨.tokIntliteral, String.ofList text⟩], .lit rfl fun s => ?_⟩
      have hlt := n.isLt
      rw [hnumeral.literalNumber_eq, if_pos (by omega)]
      simp
  | .paren e, he => by
      obtain ⟨w, hw⟩ := e.exists_spells he
      exact ⟨⟨.tokOpenpa, ""⟩ :: (w ++ [⟨.tokClosepa, ""⟩]), .paren rfl rfl hw⟩

end

mutual

theorem Expr.Spells.calls : ∀ {e : Expr} {w : List Token}, e.Spells w → e.calls = []
  | _, _, .unary hu => hu.calls
  | _, _, .bin hu _ he => List.append_eq_nil_iff.mpr ⟨hu.calls, he.calls⟩

theorem Unary.Spells.calls : ∀ {u : Unary} {w : List Token}, u.Spells w → u.calls = []
  | _, _, .var _ => rfl
  | _, _, .lit _ _ => rfl
  | _, _, .paren _ _ he => he.calls

end

mutual

/-- There is a token for each operator. -/
theorem Expr.Spells.opCount_le : ∀ {e : Expr} {w : List Token}, e.Spells w → e.opCount ≤ w.length
  | _, _, .unary hu => hu.opCount_le
  | _, _, .bin hu _ he => by
      have hu := hu.opCount_le
      have he := he.opCount_le
      rw [Expr.opCount, List.length_append, List.length_cons]
      omega

theorem Unary.Spells.opCount_le : ∀ {u : Unary} {w : List Token}, u.Spells w →
    u.opCount ≤ w.length
  | _, _, .var _ => Nat.zero_le _
  | _, _, .lit _ _ => Nat.zero_le _
  | _, _, .paren _ _ he => by
      have he := he.opCount_le
      rw [Unary.opCount, List.length_cons, List.length_append]
      omega

end

/-! ## The tokens of a phrase -/

/-- The token ends an operand. -/
def Token.EndsOperand (t : Token) : Prop :=
  t.type = .tokIdentifier ∨ t.type = .tokIntliteral ∨ t.type = .tokClosepa

/-- A `-` between the tokens would be no sign, and a `(` no call. -/
def Token.Joins (t t' : Token) : Prop :=
  (t'.type = .tokMinus → t.EndsOperand) ∧ (t'.type = .tokOpenpa → t.type ≠ .tokIdentifier)

/-- No identifier is called and no `-` is a sign. -/
structure Plain (w : List Token) : Prop where
  start : ∀ t ∈ w.head?, t.type ≠ .tokMinus
  joins : w.IsChain Token.Joins

theorem Plain.left {w w' : List Token} (h : Plain (w ++ w')) : Plain w where
  start t ht := h.start t (by rw [List.head?_append, ht]; rfl)
  joins := (List.isChain_append.mp h.joins).1

/-- Behind a token that does not end an operand. -/
theorem Plain.behind {w w' : List Token} {t : Token} (h : Plain (w ++ t :: w'))
    (ht : ¬ t.EndsOperand) : Plain w' := by
  obtain ⟨-, hrest, -⟩ := List.isChain_append.mp h.joins
  obtain ⟨hhead, hrest⟩ := List.isChain_cons.mp hrest
  refine ⟨fun t' ht' hminus => ht ((hhead t' ht').1 hminus), hrest⟩

/-- An operator is one token. -/
theorem Parses.numop {w : List Token} {node : Node} (h : Parses [.nonterminal .numop] w [node]) :
    ∃ (op : NumOp) (t : Token), w = [t] ∧ t.type = op.tok ∧ node = numopNode op := by
  obtain ⟨p, hp, cs, hsyms, hbuilds⟩ := h.production_of rfl
  have hop : ∃ op : NumOp, p = ([.terminal op.tok (some .numop)], .astNumop) := by
    change p ∈ checkNumop.prods at hp
    simp only [checkNumop, List.mem_cons, List.not_mem_nil, or_false] at hp
    rcases hp with rfl | rfl | rfl | rfl | rfl
    · exact ⟨.plus, rfl⟩
    · exact ⟨.minus, rfl⟩
    · exact ⟨.star, rfl⟩
    · exact ⟨.slash, rfl⟩
    · exact ⟨.percent, rfl⟩
  obtain ⟨op, rfl⟩ := hop
  obtain ⟨t, w', new, cs', rfl, rfl, htype, hmakes, hnil⟩ := hsyms.token
  cases hnil
  obtain ⟨s, s', hnew⟩ := hmakes
  obtain ⟨rfl, -⟩ := EStateM.Result.ok.inj hnew
  refine ⟨op, t, rfl, htype, ?_⟩
  change Builds .astNumop _ _ at hbuilds
  rw [hbuilds.plain (by decide) (by decide) (by decide) (by decide), htype]
  rfl

/-- A call begins with an identifier and a parenthesis. -/
theorem Parses.retFcall {w : List Token} {node : Node}
    (h : Parses [.nonterminal .retFcall] w [node]) : ∃ t t' w', w = t :: t' :: w' ∧
      t.type = .tokIdentifier ∧ t'.type = .tokOpenpa := by
  obtain ⟨p, hp, cs, hsyms, -⟩ := h.production_of rfl
  obtain rfl := List.mem_singleton.mp (show p ∈ checkRetFcall.prods from hp)
  obtain ⟨t, w', _, _, rfl, -, htype, -, hsyms⟩ := hsyms.token
  obtain ⟨t', w'', _, _, rfl, -, htype', -, -⟩ := hsyms.token
  exact ⟨t, t', w'', rfl, htype, htype'⟩

section Inversion
variable {n : ℕ}

/-- What a plain operand is, where expressions with fewer tokens are known. -/
theorem Parses.expr1 {w : List Token} {node : Node} (hw : w.length ≤ n + 1) (hplain : Plain w)
    (hexpr : ∀ (w : List Token) (node : Node), w.length ≤ n → Plain w →
      Parses [.nonterminal .expr] w [node] → ∃ e : Expr, node = e.node .str ∧ e.Spells w)
    (h : Parses [.nonterminal .expr1] w [node]) :
    ∃ u : Unary, node = u.node .str ∧ u.Spells w := by
  obtain ⟨p, hp, cs, hsyms, hbuilds⟩ := h.production_of rfl
  have hmem : p ∈ checkExpr1.prods := hp
  simp only [checkExpr1, List.mem_cons, List.not_mem_nil, or_false] at hmem
  rcases hmem with rfl | rfl | rfl | rfl | rfl
  · -- a call
    obtain ⟨w₁, w₂, _, _, rfl, -, hcall, -⟩ := hsyms.split
    obtain ⟨t, t', w', rfl, htype, htype'⟩ := hcall.retFcall
    have hjoins := (List.isChain_cons_cons.mp hplain.joins).1
    exact absurd htype (hjoins.2 htype')
  · obtain ⟨t, w', new, cs', rfl, rfl, htype, hmakes, hnil⟩ := hsyms.token
    cases hnil
    obtain ⟨s, s', hnew⟩ := hmakes
    obtain ⟨rfl, -⟩ := EStateM.Result.ok.inj hnew
    refine ⟨.var t.val, ?_, .var htype⟩
    rw [hbuilds.plain (by decide) (by decide) (by decide) (by decide)]
    rfl
  · obtain ⟨t, w', new, cs', rfl, rfl, htype, hmakes, hnil⟩ := hsyms.token
    cases hnil
    obtain ⟨s, s', hnew⟩ := hmakes
    obtain ⟨literal, s₁, hliteral, hnew⟩ := bind_eq_ok hnew
    obtain ⟨rfl, -⟩ := EStateM.Result.ok.inj hnew
    obtain ⟨number, s₂, hnumber, hliteral⟩ := bind_eq_ok hliteral
    obtain ⟨rfl, -⟩ := EStateM.Result.ok.inj hliteral
    refine ⟨.lit number, ?_, .lit htype (literalNumber_stateless hnumber)⟩
    rw [hbuilds.plain (by decide) (by decide) (by decide) (by decide)]
    rfl
  · -- a sign
    obtain ⟨t, w', _, _, rfl, -, htype, -, -⟩ := hsyms.token
    exact absurd htype (hplain.start t rfl)
  · obtain ⟨t, w', new, cs', rfl, rfl, htype, hmakes, hsyms⟩ := hsyms.token
    obtain ⟨w₁, w₂, inside, cs'', rfl, rfl, hinside, hsyms⟩ := hsyms.split
    obtain ⟨t', w'', new', cs''', rfl, rfl, htype', hmakes', hnil⟩ := hsyms.token
    cases hnil
    obtain ⟨s, s', hnew⟩ := hmakes
    obtain ⟨s₁, s₁', hnew'⟩ := hmakes'
    obtain ⟨rfl, -⟩ := EStateM.Result.ok.inj hnew
    obtain ⟨rfl, -⟩ := EStateM.Result.ok.inj hnew'
    have hends : ¬ t.EndsOperand := by
      rw [Token.EndsOperand, htype]
      decide
    have hlen : w₁.length ≤ n := by
      rw [List.length_cons, List.length_append] at hw
      omega
    obtain ⟨e, rfl, he⟩ := hexpr w₁ inside hlen
      (@Plain.behind [] w₁ t (@Plain.left (t :: w₁) [t'] hplain) hends) hinside
    refine ⟨.paren e, ?_, .paren htype htype' he⟩
    rw [hbuilds.plain (by decide) (by decide) (by decide) (by decide)]
    rfl

end Inversion

theorem NumOp.not_endsOperand {op : NumOp} {t : Token} (h : t.type = op.tok) :
    ¬ t.EndsOperand := by
  rw [Token.EndsOperand, h]
  cases op <;> decide

theorem Parses.expr1_ne_nil {w : List Token} {node : Node}
    (h : Parses [.nonterminal .expr1] w [node]) : w ≠ [] := by
  obtain ⟨p, hp, cs, hsyms, -⟩ := h.production_of rfl
  have hmem : p ∈ checkExpr1.prods := hp
  simp only [checkExpr1, List.mem_cons, List.not_mem_nil, or_false] at hmem
  rcases hmem with rfl | rfl | rfl | rfl | rfl
  · obtain ⟨w₁, w₂, _, _, rfl, -, hcall, -⟩ := hsyms.split
    obtain ⟨t, t', w', rfl, -, -⟩ := hcall.retFcall
    exact List.cons_ne_nil _ _
  · obtain ⟨t, w', _, _, rfl, -⟩ := hsyms.token
    exact List.cons_ne_nil _ _
  · obtain ⟨t, w', _, _, rfl, -⟩ := hsyms.token
    exact List.cons_ne_nil _ _
  · obtain ⟨t, w', _, _, rfl, -⟩ := hsyms.token
    exact List.cons_ne_nil _ _
  · obtain ⟨t, w', _, _, rfl, -⟩ := hsyms.token
    exact List.cons_ne_nil _ _

theorem Parses.expr_ne_nil {w : List Token} {node : Node}
    (h : Parses [.nonterminal .expr] w [node]) : w ≠ [] := by
  obtain ⟨p, hp, cs, hsyms, -⟩ := h.production_of rfl
  have hmem : p ∈ checkExpr.prods := hp
  simp only [checkExpr, List.mem_cons, List.not_mem_nil, or_false] at hmem
  rcases hmem with rfl | rfl
  · obtain ⟨w₁, w₂, _, _, rfl, -, hleft, -⟩ := hsyms.split
    exact List.append_ne_nil_of_left_ne_nil hleft.expr1_ne_nil _
  · obtain ⟨w₁, w₂, _, _, rfl, -, hleft, -⟩ := hsyms.split
    exact List.append_ne_nil_of_left_ne_nil hleft.expr1_ne_nil _

/-- **The parser reads a plain expression as the tree of the tokens.** -/
theorem Parses.expr (n : ℕ) : ∀ (w : List Token) (node : Node), w.length ≤ n → Plain w →
    Parses [.nonterminal .expr] w [node] → ∃ e : Expr, node = e.node .str ∧ e.Spells w := by
  induction n with
  | zero =>
      intro w node hw _ h
      exact absurd (List.length_eq_zero_iff.mp (Nat.le_zero.mp hw)) h.expr_ne_nil
  | succ n ih =>
      intro w node hw hplain h
      obtain ⟨p, hp, cs, hsyms, hbuilds⟩ := h.production_of rfl
      have hmem : p ∈ checkExpr.prods := hp
      simp only [checkExpr, List.mem_cons, List.not_mem_nil, or_false] at hmem
      rcases hmem with rfl | rfl
      · obtain ⟨w₁, w', left, cs', rfl, rfl, hleft, hsyms⟩ := hsyms.split
        obtain ⟨w₂, w₃, mid, cs'', rfl, rfl, hmid, hsyms⟩ := hsyms.split
        obtain ⟨w₃, w₄, right, cs''', rfl, rfl, hright, hnil⟩ := hsyms.split
        cases hnil
        obtain ⟨op, t, rfl, htype, rfl⟩ := hmid.numop
        rw [List.append_nil] at hw hplain ⊢
        have hlen : w₃.length ≤ n := by
          rw [List.length_append, List.length_append] at hw
          simp only [List.length_cons, List.length_nil] at hw
          omega
        have hlen₁ : w₁.length ≤ n + 1 := by
          rw [List.length_append] at hw
          omega
        obtain ⟨u, rfl, hu⟩ := hleft.expr1 hlen₁ hplain.left ih
        obtain ⟨e, rfl, he⟩ := ih w₃ right hlen (hplain.behind (NumOp.not_endsOperand htype)) hright
        refine ⟨.bin u op e, ?_, .bin hu htype he⟩
        rw [hbuilds.plain (by decide) (by decide) (by decide) (by decide)]
        rfl
      · obtain ⟨w₁, w', left, cs', rfl, rfl, hleft, hnil⟩ := hsyms.split
        cases hnil
        rw [List.append_nil] at hw hplain ⊢
        obtain ⟨u, rfl, hu⟩ := hleft.expr1 hw hplain ih
        refine ⟨.unary u, ?_, .unary hu⟩
        rw [hbuilds.plain (by decide) (by decide) (by decide) (by decide)]
        rfl

/-! ## The run of the parser -/

section Forward
variable {rec : Check → P Node}

/-- A production that matches ends the search. -/
theorem tryMatching_some {tokenSaved : List Token} {acceptsEmpty : Bool} {prod : List Sym}
    {type : AstType} {prods : List (List Sym × AstType)} {s s' : PState} {node : Node}
    (h : matchProd rec type prod s = .ok node s') (hnode : node ≠ .null) :
    tryMatching rec tokenSaved acceptsEmpty ((prod, type) :: prods) s = .ok node s' :=
  (bind_ok h).trans (congrFun (if_neg hnode) s')

variable (rec)

/-- A nonterminal that matches, in front of the rest of a production. -/
theorem matchSyms_check {c : Check} (prod : List Sym) (children : List Node) {s s' : PState}
    {node : Node} (htok : s.token ≠ []) (h : rec c s = .ok node s') (hnode : node ≠ .null) :
    matchSyms rec (.nonterminal c :: prod) children s =
      matchSyms rec prod (children ++ [node]) s' := by
  obtain ⟨t, y, htok⟩ := List.exists_cons_of_ne_nil htok
  rw [matchSyms_nonterminal htok, bind_ok h, if_neg hnode]

/-- A nonterminal that does not. -/
theorem matchSyms_check_null {c : Check} (prod : List Sym) (children : List Node)
    {s s' : PState} (htok : s.token ≠ []) (h : rec c s = .ok .null s') :
    matchSyms rec (.nonterminal c :: prod) children s = .ok none s' := by
  obtain ⟨t, y, htok⟩ := List.exists_cons_of_ne_nil htok
  rw [matchSyms_nonterminal htok, bind_ok h, if_pos rfl]
  rfl

/-- A terminal that matches. -/
theorem matchSyms_token (create : Option Creator) (prod : List Sym) (children : List Node)
    {type : TokenType} {cs : List Node} {s : PState} {t : Token} {y : List Token}
    (htok : s.token = t :: y)
    (htype : t.type = type) (h : createChild create t children s = .ok cs s) :
    matchSyms rec (.terminal type create :: prod) children s =
      matchSyms rec prod cs { s with token := y } := by
  rw [matchSyms_terminal htok htype, bind_ok h]
  rfl

end Forward

theorem check_retFcall_null (fuel : ℕ) {s : PState} {t : Token} {y : List Token}
    (htok : s.token = t :: y)
    (h : t.type = .tokIdentifier → ∀ t' ∈ y.head?, t'.type ≠ .tokOpenpa) :
    check (fuel + 1) .retFcall s = .ok .null s := by
  have hprod : ∃ z, matchProd (check fuel) .astRetFcall
      [identifier, tok .tokOpenpa, .nonterminal .fcallArglist, tok .tokClosepa] s =
        .ok .null { s with token := z } := by
    by_cases htype : t.type = .tokIdentifier
    · have hfirst := matchSyms_token (check fuel) (some .identifier)
        [tok .tokOpenpa, .nonterminal .fcallArglist, tok .tokClosepa] [] htok htype rfl
      cases y with
      | nil =>
          exact ⟨[], bind_ok (hfirst.trans (matchSyms_nil _ rfl))⟩
      | cons t' y =>
          exact ⟨y, bind_ok (hfirst.trans (matchSyms_mismatch rfl (h htype t' rfl)))⟩
    · exact ⟨y, matchProd_mismatch htok htype⟩
  obtain ⟨z, hprod⟩ := hprod
  have hstep : check (fuel + 1) .retFcall s =
      tryMatching (check fuel) s.token false checkRetFcall.prods s := rfl
  rw [hstep, checkRetFcall, tryMatching_null hprod]
  rfl

/-- The production of a call fails on another operand, and the next one is tried. -/
theorem matchProd_retFcall_null (fuel : ℕ) {s : PState} {t : Token} {y : List Token}
    (htok : s.token = t :: y)
    (h : t.type = .tokIdentifier → ∀ t' ∈ y.head?, t'.type ≠ .tokOpenpa) :
    matchProd (check (fuel + 1)) .astExpression1 [.nonterminal .retFcall] s = .ok .null s := by
  have hne : s.token ≠ [] := by simp [htok]
  exact bind_ok (matchSyms_check_null (check (fuel + 1)) [] [] hne
    (check_retFcall_null fuel htok h))

theorem numop_ne {op : NumOp} : op.tok ≠ .tokOpenpa := by
  cases op <;> decide

theorem check_numop (fuel : ℕ) {op : NumOp} {s : PState} {t : Token} {y : List Token}
    (htok : s.token = t :: y) (htype : t.type = op.tok) :
    check (fuel + 1) .numop s = .ok (numopNode op) { s with token := y } := by
  obtain ⟨token, maxArgCount, funcTable⟩ := s
  obtain ⟨type, val⟩ := t
  cases htok
  cases htype
  cases op <;> rfl

theorem check_numop_null (fuel : ℕ) {s : PState} {t : Token} {y : List Token}
    (htok : s.token = t :: y) (htype : ∀ op : NumOp, t.type ≠ op.tok) :
    check (fuel + 1) .numop s = .ok .null s := by
  have hstep : check (fuel + 1) .numop s =
      tryMatching (check fuel) s.token false checkNumop.prods s := rfl
  have hplus : t.type ≠ .tokPlus := htype .plus
  have hminus : t.type ≠ .tokMinus := htype .minus
  have hstar : t.type ≠ .tokStar := htype .star
  have hslash : t.type ≠ .tokSlash := htype .slash
  have hpercent : t.type ≠ .tokPercent := htype .percent
  rw [hstep, checkNumop, tryMatching_null (matchProd_mismatch htok hplus),
    tryMatching_null (matchProd_mismatch htok hminus),
    tryMatching_null (matchProd_mismatch htok hstar),
    tryMatching_null (matchProd_mismatch htok hslash),
    tryMatching_null (matchProd_mismatch htok hpercent)]
  rfl

mutual

/-- The parser reads the tokens of an expression, behind which there is no operator. -/
theorem Expr.Spells.read : ∀ {e : Expr} {w : List Token}, e.Spells w →
    ∀ {s : PState} {t : Token} {y : List Token}, s.token = w ++ t :: y → t.type ≠ .tokOpenpa →
      (∀ op : NumOp, t.type ≠ op.tok) →
      ∃ N, ∀ fuel ≥ N, check fuel .expr s = .ok (e.node .str) { s with token := t :: y }
  | .unary u, w, .unary hu, s, t, y, htok, hopen, hop => by
      obtain ⟨N, hN⟩ := hu.read htok hopen
      have hne : s.token ≠ [] := by simp [htok]
      refine ⟨N + 2, fun fuel hfuel => ?_⟩
      obtain ⟨fuel, rfl⟩ := Nat.exists_eq_add_of_le' hfuel
      have hread := hN (fuel + N + 1) (by omega)
      have hfirst := matchSyms_check (check (fuel + N + 1))
        [.nonterminal .numop, .nonterminal .expr] [] hne hread (u.node_ne_null .str)
      have hfail := hfirst.trans (matchSyms_check_null (check (fuel + N + 1)) [.nonterminal .expr] _
        (List.cons_ne_nil t y) (check_numop_null (fuel + N) rfl hop))
      have hlast := matchSyms_check (check (fuel + N + 1)) [] [] hne hread (u.node_ne_null .str)
      have hstep : check (fuel + N + 2) .expr s =
          tryMatching (check (fuel + N + 1)) s.token false checkExpr.prods s := rfl
      exact hstep.trans ((tryMatching_null (bind_ok hfail)).trans
        (tryMatching_some (bind_ok hlast) nofun))
  | _, _, @Expr.Spells.bin u op e w w' token hu htype he, s, t, y, htok, hopen, hop => by
      rw [List.append_assoc, List.cons_append] at htok
      obtain ⟨N, hN⟩ := hu.read htok (by rw [htype]; exact numop_ne)
      obtain ⟨M, hM⟩ := he.read (s := { s with token := w' ++ t :: y }) rfl hopen hop
      have hne : s.token ≠ [] := by simp [htok]
      refine ⟨N + M + 2, fun fuel hfuel => ?_⟩
      obtain ⟨fuel, rfl⟩ := Nat.exists_eq_add_of_le' hfuel
      have hfirst := matchSyms_check (check (fuel + (N + M) + 1))
        [.nonterminal .numop, .nonterminal .expr] [] hne (hN (fuel + (N + M) + 1) (by omega))
        (u.node_ne_null .str)
      have hop := matchSyms_check (check (fuel + (N + M) + 1)) [.nonterminal .expr]
        ([] ++ [u.node .str]) (s := { s with token := token :: (w' ++ t :: y) })
        (List.cons_ne_nil _ _) (check_numop (fuel + (N + M)) rfl htype) nofun
      have hlast := matchSyms_check (check (fuel + (N + M) + 1)) []
        ([] ++ [u.node .str] ++ [numopNode op]) (by simp) (hM (fuel + (N + M) + 1) (by omega))
        (e.node_ne_null .str)
      have hstep : check (fuel + (N + M) + 2) .expr s =
          tryMatching (check (fuel + (N + M) + 1)) s.token false checkExpr.prods s := rfl
      exact hstep.trans (tryMatching_some (bind_ok (hfirst.trans (hop.trans hlast))) nofun)

theorem Unary.Spells.read : ∀ {u : Unary} {w : List Token}, u.Spells w →
    ∀ {s : PState} {t : Token} {y : List Token}, s.token = w ++ t :: y → t.type ≠ .tokOpenpa →
      ∃ N, ∀ fuel ≥ N, check fuel .expr1 s = .ok (u.node .str) { s with token := t :: y }
  | _, _, .var htype, s, t, y, htok, hopen => by
      refine ⟨2, fun fuel hfuel => ?_⟩
      obtain ⟨fuel, rfl⟩ := Nat.exists_eq_add_of_le' hfuel
      have hcall := matchProd_retFcall_null fuel htok fun _ t' ht' => by
        obtain rfl := Option.some.inj ht'
        exact hopen
      have hvar := matchSyms_token (check (fuel + 1)) (some .identifier) [] [] htok htype rfl
      have hstep : check (fuel + 2) .expr1 s =
          tryMatching (check (fuel + 1)) s.token false checkExpr1.prods s := rfl
      exact hstep.trans ((tryMatching_null hcall).trans (tryMatching_some (bind_ok hvar) nofun))
  | _, _, @Unary.Spells.lit token n htype hn, s, t, y, htok, hopen => by
      refine ⟨2, fun fuel hfuel => ?_⟩
      obtain ⟨fuel, rfl⟩ := Nat.exists_eq_add_of_le' hfuel
      have hident : token.type ≠ .tokIdentifier := by
        rw [htype]
        decide
      have hcall := matchProd_retFcall_null fuel htok fun h => absurd h hident
      have hlit := matchSyms_token (check (fuel + 1)) (some .intliteral) [] [] htok htype
        (bind_ok (bind_ok (hn s)))
      have hstep : check (fuel + 2) .expr1 s =
          tryMatching (check (fuel + 1)) s.token false checkExpr1.prods s := rfl
      exact hstep.trans ((tryMatching_null hcall).trans
        ((tryMatching_null (matchProd_mismatch htok hident)).trans
          (tryMatching_some (bind_ok hlit) nofun)))
  | _, _, @Unary.Spells.paren e w opening closing ho hc he, s, t, y, htok, hopen => by
      rw [List.cons_append, List.append_assoc, List.singleton_append] at htok
      have hclose : closing.type ≠ .tokOpenpa ∧ ∀ op : NumOp, closing.type ≠ op.tok := by
        rw [hc]
        refine ⟨by decide, fun op => ?_⟩
        cases op <;> decide
      obtain ⟨N, hN⟩ := he.read (s := { s with token := w ++ closing :: t :: y }) rfl
        hclose.1 hclose.2
      refine ⟨N + 2, fun fuel hfuel => ?_⟩
      obtain ⟨fuel, rfl⟩ := Nat.exists_eq_add_of_le' hfuel
      have hident : opening.type ≠ .tokIdentifier := by
        rw [ho]
        decide
      have hlit : opening.type ≠ .tokIntliteral := by
        rw [ho]
        decide
      have hminus : opening.type ≠ .tokMinus := by
        rw [ho]
        decide
      have hcall := matchProd_retFcall_null (fuel + N) htok fun h => absurd h hident
      have hfirst := matchSyms_token (check (fuel + N + 1)) none
        [.nonterminal .expr, tok .tokClosepa] [] htok ho rfl
      have hinside := matchSyms_check (check (fuel + N + 1)) [tok .tokClosepa] []
        (s := { s with token := w ++ closing :: t :: y }) (by simp)
        (hN (fuel + N + 1) (by omega)) (e.node_ne_null .str)
      have hlast := matchSyms_token (check (fuel + N + 1)) none [] ([] ++ [e.node .str])
        (s := { s with token := closing :: t :: y }) rfl hc rfl
      have hstep : check (fuel + N + 2) .expr1 s =
          tryMatching (check (fuel + N + 1)) s.token false checkExpr1.prods s := rfl
      exact hstep.trans ((tryMatching_null hcall).trans
        ((tryMatching_null (matchProd_mismatch htok hident)).trans
          ((tryMatching_null (matchProd_mismatch htok hlit)).trans
            ((tryMatching_null (matchProd_mismatch htok hminus)).trans
              (tryMatching_some (bind_ok (hfirst.trans (hinside.trans hlast))) nofun)))))

end

/-! ## What expressions mean -/

mutual

theorem Expr.inner_le : ∀ (e : Expr), e.calls = [] → ∀ part ∈ e.inner,
    part.calls = [] ∧ part.opCount ≤ e.opCount
  | .unary u, he => u.inner_le he
  | .bin u op e, he => by
      obtain ⟨hu, he⟩ := List.append_eq_nil_iff.mp he
      intro part hpart
      rw [Expr.opCount]
      rcases List.mem_append.mp hpart with hpart | hpart
      · obtain ⟨hcalls, hle⟩ := u.inner_le hu part hpart
        exact ⟨hcalls, by omega⟩
      · obtain ⟨hcalls, hle⟩ := e.inner_le he part hpart
        exact ⟨hcalls, by omega⟩

theorem Unary.inner_le : ∀ (u : Unary), u.calls = [] → ∀ part ∈ u.inner,
    part.calls = [] ∧ part.opCount ≤ u.opCount
  | .call .., he => by simp [Unary.calls] at he
  | .var _, _ => fun _ hpart => nomatch hpart
  | .lit _, _ => fun _ hpart => nomatch hpart
  | .paren e, he => List.forall_mem_cons.mpr ⟨⟨he, le_refl _⟩, e.inner_le he⟩

end

mutual

theorem Expr.inner_trans : ∀ (e : Expr) {part : Expr}, part ∈ e.inner →
    ∀ inside ∈ part.inner, inside ∈ e.inner
  | .unary u, _, hpart => u.inner_trans hpart
  | .bin u _ e, part, hpart => by
      intro inside hinside
      rcases List.mem_append.mp hpart with hpart | hpart
      · exact List.mem_append_left _ (u.inner_trans hpart inside hinside)
      · exact List.mem_append_right _ (e.inner_trans hpart inside hinside)

theorem Unary.inner_trans : ∀ (u : Unary) {part : Expr}, part ∈ u.inner →
    ∀ inside ∈ part.inner, inside ∈ u.inner
  | .paren e, part, hpart => by
      intro inside hinside
      rcases List.mem_cons.mp hpart with rfl | hpart
      · exact List.mem_cons_of_mem _ hinside
      · exact List.mem_cons_of_mem _ (e.inner_trans hpart inside hinside)

end

/-- The levels of a level are levels. -/
theorem Expr.levels_trans {e part : Expr} (h : part ∈ e.levels) :
    ∀ inside ∈ part.levels, inside ∈ e.levels := by
  intro inside hinside
  rcases List.mem_cons.mp h with rfl | h
  · exact hinside
  · rcases List.mem_cons.mp hinside with rfl | hinside
    · exact List.mem_cons_of_mem _ h
    · exact List.mem_cons_of_mem _ (e.inner_trans h inside hinside)

/-- The parser accepts the tokens as the expression `e`, in front of others. -/
def ReadAs (w : List Token) (e : Expr) : Prop :=
  ∃ fuel s s', check fuel .expr s = .ok (e.node .str) s' ∧ s.token = w ++ s'.token

/-- The parser reads what spells an expression. -/
theorem Expr.Spells.reads {e : Expr} {w : List Token} (h : e.Spells w) : ReadAs w e := by
  obtain ⟨N, hN⟩ := h.read (s := .initial (w ++ [⟨.tokSemicl, ""⟩])) (t := ⟨.tokSemicl, ""⟩) rfl
    (by decide) (fun op => by cases op <;> decide)
  exact ⟨N, _, _, hN N le_rfl, rfl⟩

/-- All expressions that differ from `e` in their operands only mean what they mean in C,
and so do the expressions in their parentheses. -/
def Expr.AllMeanC (e : Expr) : Prop :=
  ∀ (e' : Expr) (w : List Token), e.Alike e' → ReadAs w e' → ∀ part ∈ e'.levels, part.MeansC

theorem Expr.allMeanC_of_regroups {e : Expr} (h : ∀ part ∈ e.levels, part.Regroups) :
    e.AllMeanC := by
  intro e' w halike _ part hpart
  exact Expr.meansC_of_regroups fun inside hinside =>
    halike.levels h inside (Expr.levels_trans hpart inside hinside)

theorem Expr.regroups_of_allMeanC {e : Expr} (hcalls : e.calls = [])
    (hcount : 100 + e.opCount < 2 ^ 31) (h : e.AllMeanC) : ∀ part ∈ e.levels, part.Regroups := by
  by_contra hbad
  push Not at hbad
  obtain ⟨part, hpart, hbad⟩ := hbad
  have hpart' : part.calls = [] ∧ part.opCount ≤ e.opCount := by
    rcases List.mem_cons.mp hpart with rfl | hpart
    · exact ⟨hcalls, le_refl _⟩
    · exact e.inner_le hcalls part hpart
  obtain ⟨part', halike, hnot⟩ := Expr.exists_not_meansC hpart'.1 (by omega) hbad
  have hexchange : ∃ e' : Expr, e.Alike e' ∧ part' ∈ e'.levels := by
    rcases List.mem_cons.mp hpart with rfl | hpart
    · exact ⟨part', halike, List.mem_cons_self⟩
    · obtain ⟨e', he, hmem⟩ := e.exchange hpart halike
      exact ⟨e', he, List.mem_cons_of_mem _ hmem⟩
  obtain ⟨e', he, hmem⟩ := hexchange
  obtain ⟨w, hw⟩ := e'.exists_spells (he.calls.trans hcalls)
  exact hnot (h e' w he hw.reads part' hmem)

/-- **Where expressions mean what they mean in C.**  The parser reads a plain token list
as the expression it spells, and the same tokens spell an expression of C.  Whatever the
operands are, the code leaves the C value exactly if any two operators in a row, at every
level of parentheses, regroup. -/
theorem expressions_mean_c_iff {fuel : ℕ} {s s' : PState} {node : Node} {w : List Token}
    (h : check fuel .expr s = .ok node s') (hnode : node ≠ .null) (hw : s.token = w ++ s'.token)
    (hplain : Plain w) :
    ∃ e : Expr, node = e.node .str ∧ e.Spells w ∧ e.toC.Spells w ∧
      ((∀ part ∈ e.levels, part.Regroups) → e.AllMeanC) ∧
      (100 + w.length < 2 ^ 31 → e.AllMeanC → ∀ part ∈ e.levels, part.Regroups) := by
  obtain ⟨w', hw', hphrase⟩ := check_matches fuel .expr s node s' h hnode
  obtain rfl := List.append_cancel_right (hw.symm.trans hw')
  obtain ⟨e, rfl, he⟩ := Parses.expr w.length w node le_rfl hplain hphrase
  have hfront : SpellsFront .operand .product [] [] :=
    ⟨fun _ _ hp => .operand hp, fun _ _ hm => .product hm⟩
  refine ⟨e, rfl, he, he.regroup hfront, Expr.allMeanC_of_regroups, fun hlength => ?_⟩
  have hcount := he.opCount_le
  exact Expr.regroups_of_allMeanC he.calls (by omega)

/-- `10 - 4 - 3` -/
def tenLess : Expr := .bin (.lit 10) .minus (.bin (.lit 4) .minus (.unary (.lit 3)))

def tenLessTokens : List Token :=
  [⟨.tokIntliteral, "10"⟩, ⟨.tokMinus, "-"⟩, ⟨.tokIntliteral, "4"⟩, ⟨.tokMinus, "-"⟩,
   ⟨.tokIntliteral, "3"⟩]

def tenPlusTokens : List Token :=
  [⟨.tokIntliteral, "10"⟩, ⟨.tokPlus, "+"⟩, ⟨.tokIntliteral, "4"⟩, ⟨.tokMinus, "-"⟩,
   ⟨.tokIntliteral, "3"⟩]

/-- `10 + 4 - 3` -/
def tenPlus : Expr := .bin (.lit 10) .plus (.bin (.lit 4) .minus (.unary (.lit 3)))

/-- A sum goes on with a difference, but a difference does not. -/
theorem expressions_mean_c_iff_small : tenPlus.AllMeanC ∧ ¬ tenLess.AllMeanC := by
  have hsum : ∃ s', check 6 .expr (.initial (tenPlusTokens ++ [⟨.tokSemicl, ";"⟩])) =
      .ok (tenPlus.node .str) s' ∧ s'.token = [⟨.tokSemicl, ";"⟩] := ⟨_, rfl, rfl⟩
  have hdiff : ∃ s', check 6 .expr (.initial (tenLessTokens ++ [⟨.tokSemicl, ";"⟩])) =
      .ok (tenLess.node .str) s' ∧ s'.token = [⟨.tokSemicl, ";"⟩] := ⟨_, rfl, rfl⟩
  have hplain : Plain tenPlusTokens :=
    ⟨by simp [tenPlusTokens], by simp [tenPlusTokens, Token.Joins, Token.EndsOperand]⟩
  have hplain' : Plain tenLessTokens :=
    ⟨by simp [tenLessTokens], by simp [tenLessTokens, Token.Joins, Token.EndsOperand]⟩
  obtain ⟨s', hrun, htok⟩ := hsum
  obtain ⟨s'', hrun', htok'⟩ := hdiff
  obtain ⟨e, hnode, -, -, hmeans, -⟩ :=
    expressions_mean_c_iff hrun (tenPlus.node_ne_null .str) (by rw [htok]; rfl) hplain
  obtain rfl := Expr.node_injective _ _ hnode
  obtain ⟨e', hnode', -, -, -, hregroups⟩ :=
    expressions_mean_c_iff hrun' (tenLess.node_ne_null .str) (by rw [htok']; rfl) hplain'
  obtain rfl := Expr.node_injective _ _ hnode'
  refine ⟨hmeans ?_, fun hall => ?_⟩
  · decide
  · have hbad := hregroups (by decide) hall tenLess List.mem_cons_self
    revert hbad
    decide

/-- `void main(void) { print 10 - 4 - 3; }` -/
def printTenLess : List Token :=
  [⟨.tokVoid, "void"⟩, ⟨.tokIdentifier, "main"⟩, ⟨.tokOpenpa, "("⟩, ⟨.tokVoid, "void"⟩,
   ⟨.tokClosepa, ")"⟩, ⟨.tokOpenbr, "\x7b"⟩, ⟨.tokPrint, "print"⟩] ++ tenLessTokens ++
  [⟨.tokSemicl, ";"⟩, ⟨.tokClosebr, "\x7d"⟩, ⟨.tokEof, ""⟩]

/-- In C this is 3, and the program prints 9. -/
theorem ten_less_four_less_three : Plain tenLessTokens ∧ ReadAs tenLessTokens tenLess ∧
    tenLess.toC.value (fun _ => none) = some 3 ∧ ¬ tenLess.MeansC ∧
    (compile (fun _ => 0) 60 printTenLess).map
      (fun code => ((Program.ofCode code 16 16 []).prints 20).map printLine) = some ["9\n"] := by
  have hspells : tenLess.Spells tenLessTokens :=
    .bin (.lit rfl fun _ => rfl) rfl (.bin (.lit rfl fun _ => rfl) rfl
      (.unary (.lit rfl fun _ => rfl)))
  have hplain : Plain tenLessTokens :=
    ⟨by simp [tenLessTokens], by simp [tenLessTokens, Token.Joins, Token.EndsOperand]⟩
  have hvalue : tenLess.toC.value (fun _ => none) = some 3 := by decide
  refine ⟨hplain, hspells.reads, hvalue, fun hmeans => ?_, by decide +kernel⟩
  let code := tenLess.emit (fun _ => none) (fun _ => 0) "main"
  have hcode := Program.ofCode_holds code 16 16 []
  have hlocals : Locals (fun _ => none) "main" (fun _ => none) .initial := ⟨nofun, nofun⟩
  have hroom : Flat.initial.sp + tenLess.temps < (Program.ofCode code 16 16 []).stackWords := by
    decide
  have heval : tenLess.eval (fun _ => none) = some 9 := by decide
  obtain ⟨t', hrun, hpush⟩ := tenLess.run heval hcode hlocals hroom
  have hleaves := hmeans _ 3 hvalue _ _ _ _ _ hcode hlocals hroom
  rw [leavesInt_iff hrun (by rw [hpush.sp]; exact hpush.top)] at hleaves
  exact absurd hleaves (by decide)

end Bispe
