import Bispe.Compiler.Parser
import Bispe.Compiler.Syntax
import Mathlib.Algebra.Order.Ring.Nat
import Mathlib.Data.List.Forall2
import Mathlib.Tactic.Common

/-!
# What the parser returns

The trees that come out of the `check_*` functions, as syntax.  Within a function
the actions only look at the function table, so a phrase is characterised by the
table and by the argument count the parser has recorded.

## Main definitions

* `CallOk` — what `create_fcall` has checked.
* `Shape` — the trees of a nonterminal.
* `Frame` — what a phrase within a function can change.
* `Parsed` — the outcome of a `check_*` function.
-/

namespace Bispe

open Effect

/-- The call was checked against the function table, and recorded. -/
def CallOk (t : FuncTable) (M : ℕ) (c : Call) : Prop :=
  ∃ info, t c.callee = some info ∧ info.argCount = c.argCount ∧
    (c.mustReturn = true → info.retType ≠ .dtypeVoid) ∧ c.argCount ≤ M

/-- Every call of the list is. -/
def CallsOk (t : FuncTable) (M : ℕ) (calls : List Call) : Prop := ∀ c ∈ calls, CallOk t M c

theorem CallsOk.mono {t : FuncTable} {M M' : ℕ} {calls : List Call} (h : CallsOk t M calls)
    (hM : M ≤ M') : CallsOk t M' calls := by
  intro c hc
  obtain ⟨info, hinfo, hcount, hret, hle⟩ := h c hc
  exact ⟨info, hinfo, hcount, hret, hle.trans hM⟩

theorem CallsOk.append {t : FuncTable} {M : ℕ} {l l' : List Call} (h : CallsOk t M l)
    (h' : CallsOk t M l') : CallsOk t M (l ++ l') := fun c hc =>
  (List.mem_append.mp hc).elim (h c) (h' c)

theorem CallsOk.nil {t : FuncTable} {M : ℕ} : CallsOk t M [] := fun _ hc => nomatch hc

/-- The trees of a nonterminal within a function. -/
def Shape (t : FuncTable) (M : ℕ) : Check → Node → Prop
  | .type, n => ∃ d : Dtype, n = typeNode d
  | .varDef, n => ∃ d x init, CallsOk t M (exprCalls? init) ∧ n = Simple.raw (.varDef d x init)
  | .varAssign, n => ∃ x e, CallsOk t M e.calls ∧ n = Simple.raw (.varAssign x e)
  | .print, n => ∃ e : Expr, CallsOk t M e.calls ∧ n = inner .astPrint (e.node .str)
  | .return, n => ∃ e, CallsOk t M (exprCalls? e) ∧ n = inner .astReturn (exprNode? .str e)
  | .expr, n => ∃ e : Expr, CallsOk t M e.calls ∧ n = e.node .str
  | .expr1, n => ∃ u : Unary, CallsOk t M u.calls ∧ n = u.node .str
  | .cond, n => ∃ c : Cond, CallsOk t M c.calls ∧ n = c.node .str
  | .numop, n => ∃ op, n = numopNode op
  | .boolop, n => ∃ op, n = boolopNode op
  | .statement, n
  | .sequence, n
  | .branch, n
  | .loop, n => ∃ s : Stmt, CallsOk t M s.calls ∧ n = s.raw
  | .forLoopHead, n => ∃ init c x e,
      CallsOk t M (Simple.calls init ++ Cond.calls c ++ Expr.calls e) ∧
        n = .mk .astForLoopHead .uninit init.raw (c.node .str) (Simple.varAssign x e).raw
  | .fcallArglist, n => ∃ args : Args, CallsOk t M args.calls ∧ n = args.node .str
  | .retFcall, n => ∃ f args, CallsOk t M (Unary.call f args).calls ∧
      n = .mk .astRetFcall (.func f) (args.node .str) .null .null
  | .fcall, n => ∃ f args, CallsOk t M (Stmt.call f args).calls ∧
      n = .mk .astFcall (.func f) (args.node .str) .null .null
  | .argdef, n => ∃ d x, n = argdefNode d x
  | .argdeflist, n => ∃ params : Params, n = params.node
  | .func, _
  | .program, _ => False

theorem Shape.mono {t : FuncTable} {M M' : ℕ} (hM : M ≤ M') {c : Check} {n : Node}
    (h : Shape t M c n) : Shape t M' c n := by
  cases c with
  | type => exact h
  | varDef => obtain ⟨d, x, init, hok, hn⟩ := h; exact ⟨d, x, init, hok.mono hM, hn⟩
  | varAssign => obtain ⟨x, e, hok, hn⟩ := h; exact ⟨x, e, hok.mono hM, hn⟩
  | print => obtain ⟨e, hok, hn⟩ := h; exact ⟨e, hok.mono hM, hn⟩
  | «return» => obtain ⟨e, hok, hn⟩ := h; exact ⟨e, hok.mono hM, hn⟩
  | expr => obtain ⟨e, hok, hn⟩ := h; exact ⟨e, hok.mono hM, hn⟩
  | expr1 => obtain ⟨u, hok, hn⟩ := h; exact ⟨u, hok.mono hM, hn⟩
  | cond => obtain ⟨c, hok, hn⟩ := h; exact ⟨c, hok.mono hM, hn⟩
  | numop => exact h
  | boolop => exact h
  | statement => obtain ⟨s, hok, hn⟩ := h; exact ⟨s, hok.mono hM, hn⟩
  | sequence => obtain ⟨s, hok, hn⟩ := h; exact ⟨s, hok.mono hM, hn⟩
  | branch => obtain ⟨s, hok, hn⟩ := h; exact ⟨s, hok.mono hM, hn⟩
  | loop => obtain ⟨s, hok, hn⟩ := h; exact ⟨s, hok.mono hM, hn⟩
  | forLoopHead =>
      obtain ⟨init, c, x, e, hok, hn⟩ := h
      exact ⟨init, c, x, e, hok.mono hM, hn⟩
  | fcallArglist => obtain ⟨args, hok, hn⟩ := h; exact ⟨args, hok.mono hM, hn⟩
  | retFcall => obtain ⟨f, args, hok, hn⟩ := h; exact ⟨f, args, hok.mono hM, hn⟩
  | fcall => obtain ⟨f, args, hok, hn⟩ := h; exact ⟨f, args, hok.mono hM, hn⟩
  | argdef => exact h
  | argdeflist => exact h
  | func => exact h
  | program => exact h

/-! ## Frames -/

/-- What a phrase within a function can change, besides the token: the recorded
argument count, which becomes that of a declared function. -/
structure Frame (s s' : PState) : Prop where
  table : s'.funcTable = s.funcTable
  max_le : s.maxArgCount ≤ s'.maxArgCount
  max_eq : s'.maxArgCount = s.maxArgCount ∨
    ∃ g info, s.funcTable g = some info ∧ s'.maxArgCount = info.argCount

namespace Frame

theorem refl (s : PState) : Frame s s := ⟨rfl, le_refl _, .inl rfl⟩

theorem trans {s s' s'' : PState} (h : Frame s s') (h' : Frame s' s'') : Frame s s'' where
  table := h'.table.trans h.table
  max_le := h.max_le.trans h'.max_le
  max_eq := by
    rcases h'.max_eq with heq | ⟨g, info, hg, hmax⟩
    · rw [heq]
      exact h.max_eq
    · exact .inr ⟨g, info, h.table ▸ hg, hmax⟩

theorem setToken (s : PState) (token : List Token) : Frame s { s with token := token } :=
  ⟨rfl, le_refl _, .inl rfl⟩

end Frame

/-! ## Weights

Every declaration takes two tokens, which bounds the number of variables and
arguments by the length of the program. -/

/-- The tokens the declarations of a tree take at least. -/
def Node.decls : Node → ℕ
  | .null => 0
  | .mk type _ left middle right =>
      (if type = .astVarDef ∨ type = .astArgdef then 2 else 0) +
        left.decls + middle.decls + right.decls

/-- The tokens a symbol takes at least, besides those of its declarations. -/
def Sym.least : Sym → ℕ
  | .terminal .. => 1
  | .nonterminal c => if c = .type then 1 else 0

def Check.least (c : Check) : ℕ := (Sym.nonterminal c).least

/-- The outcome of a `check_*` function within a function. -/
structure Parsed (c : Check) (s : PState) (node : Node) (s' : PState) : Prop where
  frame : Frame s s'
  shape : node ≠ .null → Shape s.funcTable s'.maxArgCount c node
  consumed : node ≠ .null → node.decls + c.least + s'.token.length ≤ s.token.length

/-! ## Matching -/

/-- The node a token makes. -/
def Creator.Makes (token : Token) : Creator → Node → Prop
  | .identifier, n => n = identNode token.val
  | .intliteral, n => ∃ w, n = allocNode .astIntliteral (.number w)
  | .negIntliteral, n => ∃ w, n = allocNode .astIntliteral (.number w)
  | .numop, n => n = allocNode .astNumopLeaf (.type token.type)
  | .boolop, n => n = allocNode .astBoolopLeaf (.type token.type)
  | .type, n => n = allocNode .astTypeleaf (.type token.type)

/-- The symbol leaves a child. -/
def Sym.makes : Sym → Bool
  | .terminal _ create => create.isSome
  | .nonterminal _ => true

/-- The children a symbol can leave. -/
def ChildOf (t : FuncTable) (M : ℕ) : Sym → Node → Prop
  | .terminal _ none, _ => False
  | .terminal type (some creator), n => ∃ token : Token, token.type = type ∧ creator.Makes token n
  | .nonterminal c, n => Shape t M c n

theorem ChildOf.mono {t : FuncTable} {M M' : ℕ} (hM : M ≤ M') {sym : Sym} {n : Node}
    (h : ChildOf t M sym n) : ChildOf t M' sym n := by
  cases sym with
  | terminal type create => cases create <;> exact h
  | nonterminal c => exact Shape.mono hM h

/-- The children of a production. -/
abbrev Children (t : FuncTable) (M : ℕ) (prod : List Sym) (children : List Node) : Prop :=
  List.Forall₂ (ChildOf t M) (prod.filter Sym.makes) children

theorem literalNumber_frame (token : Token) (s : PState) :
    Ends (fun _ s' => s' = s) (fun _ _ => True) (literalNumber token s) := by
  unfold literalNumber
  cases strtol token.val.toList with
  | none => trivial
  | some number =>
      by_cases h : 2 ^ 32 - 1 < number ∨ number < -2 ^ 31
      · simp only [if_pos h]
        trivial
      · simp only [if_neg h]
        rfl

/-- A creator leaves the state as it is. -/
theorem Creator.create_spec (creator : Creator) (token : Token) (s : PState) :
    Ends (fun node s' => s' = s ∧ creator.Makes token node ∧ node.decls = 0) (fun _ _ => True)
      (creator.create token s) := by
  cases creator with
  | identifier => exact ⟨rfl, rfl, rfl⟩
  | intliteral =>
      exact (literalNumber_frame token s).bind fun w s' hs => ⟨hs, ⟨w, rfl⟩, rfl⟩
  | negIntliteral =>
      exact (literalNumber_frame token s).bind fun w s' hs => ⟨hs, ⟨-w, rfl⟩, rfl⟩
  | numop => exact ⟨rfl, rfl, rfl⟩
  | boolop => exact ⟨rfl, rfl, rfl⟩
  | type => exact ⟨rfl, rfl, rfl⟩

/-- The weight of some children. -/
def declsSum (children : List Node) : ℕ := (children.map Node.decls).sum

/-- The weight of a production. -/
def leastSum (prod : List Sym) : ℕ := (prod.map Sym.least).sum

/-- The symbols of a phrase within a function. -/
def Sym.plain : Sym → Bool
  | .terminal .. => true
  | .nonterminal c => c ≠ .func ∧ c ≠ .program

/-- What matching the rest of a production adds to the children. -/
def Matched (prod : List Sym) (children : List Node) (s : PState) (r : Option (List Node))
    (s' : PState) : Prop :=
  Frame s s' ∧ ∀ cs, r = some cs → ∃ new, cs = children ++ new ∧
    Children s.funcTable s'.maxArgCount prod new ∧
    declsSum new + leastSum prod + s'.token.length ≤ s.token.length

theorem createChild_spec (create : Option Creator) (type : TokenType) {token : Token}
    (htype : token.type = type) (children : List Node) (s : PState) :
    Ends (fun cs s' => s' = s ∧ ∃ new, cs = children ++ new ∧ declsSum new = 0 ∧
        ∀ t M, Children t M [.terminal type create] new) (fun _ _ => True)
      (createChild create token children s) := by
  cases create with
  | none => exact ⟨rfl, [], (List.append_nil _).symm, rfl, fun _ _ => .nil⟩
  | some creator =>
      refine (creator.create_spec token s).bind fun node s' ⟨hs, hmakes, hdecls⟩ => ?_
      refine ⟨hs, [node], rfl, ?_, fun _ _ => .cons ⟨token, htype, hmakes⟩ .nil⟩
      simp [declsSum, hdecls]

section Loop
variable {rec : Check → P Node}

theorem matchSyms_nil (rec : Check → P Node) {sym : Sym} {prod : List Sym} {children : List Node}
    {s : PState} (h : s.token = []) : matchSyms rec (sym :: prod) children s = .ok none s := by
  have htok : getToken s = .ok [] s := by rw [getToken, h]
  cases sym with
  | terminal type create => exact bind_ok htok
  | nonterminal c => exact bind_ok htok

theorem matchSyms_terminal {type : TokenType} {create : Option Creator} {prod : List Sym}
    {children : List Node} {s : PState} {token : Token} {next : List Token}
    (h : s.token = token :: next) (htype : token.type = type) :
    matchSyms rec (.terminal type create :: prod) children s =
      (createChild create token children >>= fun cs => do
        setToken next
        matchSyms rec prod cs) s := by
  have htok : getToken s = .ok (token :: next) s := by rw [getToken, h]
  exact (bind_ok htok).trans (congrFun (if_pos htype) s)

theorem matchSyms_mismatch {type : TokenType} {create : Option Creator} {prod : List Sym}
    {children : List Node} {s : PState} {token : Token} {next : List Token}
    (h : s.token = token :: next) (htype : token.type ≠ type) :
    matchSyms rec (.terminal type create :: prod) children s =
      .ok none { s with token := next } := by
  have htok : getToken s = .ok (token :: next) s := by rw [getToken, h]
  exact (bind_ok htok).trans (congrFun (if_neg htype) s)

theorem matchSyms_nonterminal {c : Check} {prod : List Sym} {children : List Node} {s : PState}
    {token : Token} {next : List Token} (h : s.token = token :: next) :
    matchSyms rec (.nonterminal c :: prod) children s =
      (rec c >>= fun node =>
        if node = .null then pure none else matchSyms rec prod (children ++ [node])) s := by
  have htok : getToken s = .ok (token :: next) s := by rw [getToken, h]
  exact bind_ok htok

/-- Match one more symbol in front. -/
theorem Matched.cons {sym : Sym} {prod : List Sym} {children new : List Node} {s s₁ s' : PState}
    {r : Option (List Node)} (hframe : Frame s s₁)
    (hnew : Children s.funcTable s₁.maxArgCount [sym] new)
    (hconsumed : declsSum new + sym.least + s₁.token.length ≤ s.token.length)
    (h : Matched prod (children ++ new) s₁ r s') : Matched (sym :: prod) children s r s' := by
  refine ⟨hframe.trans h.1, fun cs hcs => ?_⟩
  obtain ⟨rest, rfl, hrest, hle⟩ := h.2 cs hcs
  refine ⟨new ++ rest, List.append_assoc .., ?_, ?_⟩
  · have hsplit : (sym :: prod).filter Sym.makes =
        [sym].filter Sym.makes ++ prod.filter Sym.makes := by
      rw [← List.filter_append]
      rfl
    rw [hframe.table] at hrest
    rw [Children, hsplit]
    exact List.rel_append (hnew.imp fun _ _ hc => hc.mono h.1.max_le) hrest
  · simp only [declsSum, leastSum, List.map_append, List.sum_append, List.map_cons,
      List.sum_cons] at hle hconsumed ⊢
    omega

theorem matchSyms_spec
    (hrec : ∀ c, (Sym.nonterminal c).plain = true → ∀ s,
      Ends (Parsed c s) (fun _ _ => True) (rec c s))
    (prod : List Sym) (hplain : ∀ sym ∈ prod, sym.plain = true) (children : List Node)
    (s : PState) :
    Ends (Matched prod children s) (fun _ _ => True) (matchSyms rec prod children s) := by
  induction prod generalizing children s with
  | nil =>
      refine ⟨.refl s, fun cs hcs => ⟨[], ?_, .nil, ?_⟩⟩
      · rw [List.append_nil]
        exact (Option.some.inj hcs).symm
      · simp [declsSum, leastSum]
  | cons sym prod ih =>
      have ih := ih fun x hx => hplain x (List.mem_cons_of_mem _ hx)
      cases htok : s.token with
      | nil =>
          rw [matchSyms_nil rec htok]
          exact ⟨.refl s, fun _ hcs => nomatch hcs⟩
      | cons token next =>
          cases sym with
          | terminal type create =>
              by_cases htype : token.type = type
              · rw [matchSyms_terminal htok htype]
                refine (createChild_spec create type htype children s).bind fun cs s₁ h => ?_
                obtain ⟨rfl, new, rfl, hdecls, hnew⟩ := h
                refine (ih (children ++ new) _).mono (fun r s' h' => ?_) fun _ _ h' => h'
                refine Matched.cons (.setToken s₁ next) (hnew _ _) ?_ h'
                simp only [Sym.least, hdecls, htok, List.length_cons]
                omega
              · rw [matchSyms_mismatch htok htype]
                exact ⟨.setToken s next, fun _ hcs => nomatch hcs⟩
          | nonterminal c =>
              rw [matchSyms_nonterminal htok]
              have hc := hplain _ List.mem_cons_self
              refine (hrec c hc s).bind fun node s₁ h => ?_
              by_cases hnull : node = .null
              · rw [if_pos hnull]
                exact ⟨h.frame, fun _ hcs => nomatch hcs⟩
              · rw [if_neg hnull]
                refine (ih (children ++ [node]) s₁).mono (fun r s' h' => ?_) fun _ _ h' => h'
                refine Matched.cons h.frame (.cons (h.shape hnull) .nil) ?_ h'
                have := h.consumed hnull
                simpa [declsSum, Check.least] using this

end Loop

/-! ## Building nodes -/

/-- The node of a production without an action. -/
def plainNode (type : AstType) (cs : List Node) : Node :=
  .mk type .uninit (child cs 0) (child cs 1) (child cs 2)

theorem child_decls_le (cs : List Node) :
    (child cs 0).decls + (child cs 1).decls + (child cs 2).decls ≤ declsSum cs := by
  match cs with
  | [] => simp [child, Node.decls]
  | [a] => simp [child, Node.decls, declsSum]
  | [a, b] => simp [child, Node.decls, declsSum]
  | a :: b :: c :: rest =>
      simp only [child, List.getD_cons_zero, List.getD_cons_succ, declsSum, List.map_cons,
        List.sum_cons]
      omega

section Shapes
variable {t : FuncTable} {M : ℕ} {cs : List Node}

theorem children_one {a : Sym} (h : List.Forall₂ (ChildOf t M) [a] cs) :
    ∃ x, ChildOf t M a x ∧ cs = [x] := by
  simpa [List.forall₂_cons_left_iff] using h

theorem children_two {a b : Sym} (h : List.Forall₂ (ChildOf t M) [a, b] cs) :
    ∃ x y, ChildOf t M a x ∧ ChildOf t M b y ∧ cs = [x, y] := by
  cases h with
  | cons ha h =>
      obtain ⟨y, hb, rfl⟩ := children_one h
      exact ⟨_, y, ha, hb, rfl⟩

theorem children_three {a b c : Sym} (h : List.Forall₂ (ChildOf t M) [a, b, c] cs) :
    ∃ x y z, ChildOf t M a x ∧ ChildOf t M b y ∧ ChildOf t M c z ∧ cs = [x, y, z] := by
  cases h with
  | cons ha h =>
      obtain ⟨y, z, hb, hc, rfl⟩ := children_two h
      exact ⟨_, y, z, ha, hb, hc, rfl⟩

theorem shape_type {prod : List Sym} {type : AstType} (hmem : (prod, type) ∈ checkType.prods)
    (h : Children t M prod cs) : Shape t M .type (plainNode type cs) := by
  simp only [checkType, List.mem_cons, List.not_mem_nil, or_false, Prod.mk.injEq] at hmem
  rcases hmem with ⟨rfl, rfl⟩ | ⟨rfl, rfl⟩
  · obtain ⟨x, ⟨token, htype, hx⟩, rfl⟩ := children_one h
    exact ⟨.dtypeVoid, by rw [hx, htype]; rfl⟩
  · obtain ⟨x, ⟨token, htype, hx⟩, rfl⟩ := children_one h
    exact ⟨.dtypeInt, by rw [hx, htype]; rfl⟩

theorem shape_numop {prod : List Sym} {type : AstType} (hmem : (prod, type) ∈ checkNumop.prods)
    (h : Children t M prod cs) : Shape t M .numop (plainNode type cs) := by
  have hone : ∃ op : NumOp, prod = [.terminal op.tok (some .numop)] ∧ type = .astNumop := by
    simp only [checkNumop, List.mem_cons, List.not_mem_nil, or_false, Prod.mk.injEq] at hmem
    rcases hmem with h | h | h | h | h
    · exact ⟨.plus, h⟩
    · exact ⟨.minus, h⟩
    · exact ⟨.star, h⟩
    · exact ⟨.slash, h⟩
    · exact ⟨.percent, h⟩
  obtain ⟨op, rfl, rfl⟩ := hone
  obtain ⟨x, ⟨token, htype, hx⟩, rfl⟩ := children_one h
  exact ⟨op, by rw [hx, htype]; rfl⟩

theorem shape_boolop {prod : List Sym} {type : AstType} (hmem : (prod, type) ∈ checkBoolop.prods)
    (h : Children t M prod cs) : Shape t M .boolop (plainNode type cs) := by
  have hone : ∃ op : BoolOp, prod = [.terminal op.tok (some .boolop)] ∧ type = .astBoolop := by
    simp only [checkBoolop, List.mem_cons, List.not_mem_nil, or_false, Prod.mk.injEq] at hmem
    rcases hmem with h | h | h | h | h | h
    · exact ⟨.eqeq, h⟩
    · exact ⟨.neq, h⟩
    · exact ⟨.gt, h⟩
    · exact ⟨.lt, h⟩
    · exact ⟨.ge, h⟩
    · exact ⟨.le, h⟩
  obtain ⟨op, rfl, rfl⟩ := hone
  obtain ⟨x, ⟨token, htype, hx⟩, rfl⟩ := children_one h
  exact ⟨op, by rw [hx, htype]; rfl⟩

theorem shape_varDef {prod : List Sym} {type : AstType} (hmem : (prod, type) ∈ checkVarDef.prods)
    (h : Children t M prod cs) : Shape t M .varDef (plainNode type cs) := by
  simp only [checkVarDef, List.mem_cons, List.not_mem_nil, or_false, Prod.mk.injEq] at hmem
  rcases hmem with ⟨rfl, rfl⟩ | ⟨rfl, rfl⟩
  · obtain ⟨_, _, _, ⟨d, rfl⟩, ⟨token, -, rfl⟩, ⟨e, he, rfl⟩, rfl⟩ := children_three h
    exact ⟨d, token.val, some e, he, rfl⟩
  · obtain ⟨_, _, ⟨d, rfl⟩, ⟨token, -, rfl⟩, rfl⟩ := children_two h
    exact ⟨d, token.val, none, .nil, rfl⟩

theorem shape_varAssign {prod : List Sym} {type : AstType}
    (hmem : (prod, type) ∈ checkVarAssign.prods) (h : Children t M prod cs) :
    Shape t M .varAssign (plainNode type cs) := by
  simp only [checkVarAssign, List.mem_cons, List.not_mem_nil, or_false, Prod.mk.injEq] at hmem
  obtain ⟨rfl, rfl⟩ := hmem
  obtain ⟨_, _, ⟨token, -, rfl⟩, ⟨e, he, rfl⟩, rfl⟩ := children_two h
  exact ⟨token.val, e, he, rfl⟩

theorem shape_print {prod : List Sym} {type : AstType} (hmem : (prod, type) ∈ checkPrint.prods)
    (h : Children t M prod cs) : Shape t M .print (plainNode type cs) := by
  simp only [checkPrint, List.mem_cons, List.not_mem_nil, or_false, Prod.mk.injEq] at hmem
  obtain ⟨rfl, rfl⟩ := hmem
  obtain ⟨_, ⟨e, he, rfl⟩, rfl⟩ := children_one h
  exact ⟨e, he, rfl⟩

theorem shape_return {prod : List Sym} {type : AstType} (hmem : (prod, type) ∈ checkReturn.prods)
    (h : Children t M prod cs) : Shape t M .return (plainNode type cs) := by
  simp only [checkReturn, List.mem_cons, List.not_mem_nil, or_false, Prod.mk.injEq] at hmem
  rcases hmem with ⟨rfl, rfl⟩ | ⟨rfl, rfl⟩
  · obtain ⟨_, ⟨e, he, rfl⟩, rfl⟩ := children_one h
    exact ⟨some e, he, rfl⟩
  · cases h
    exact ⟨none, .nil, rfl⟩

theorem shape_expr {prod : List Sym} {type : AstType} (hmem : (prod, type) ∈ checkExpr.prods)
    (h : Children t M prod cs) : Shape t M .expr (plainNode type cs) := by
  simp only [checkExpr, List.mem_cons, List.not_mem_nil, or_false, Prod.mk.injEq] at hmem
  rcases hmem with ⟨rfl, rfl⟩ | ⟨rfl, rfl⟩
  · obtain ⟨_, _, _, ⟨u, hu, rfl⟩, ⟨op, rfl⟩, ⟨e, he, rfl⟩, rfl⟩ := children_three h
    exact ⟨.bin u op e, hu.append he, rfl⟩
  · obtain ⟨_, ⟨u, hu, rfl⟩, rfl⟩ := children_one h
    exact ⟨.unary u, hu, rfl⟩

theorem shape_expr1 {prod : List Sym} {type : AstType} (hmem : (prod, type) ∈ checkExpr1.prods)
    (h : Children t M prod cs) : Shape t M .expr1 (plainNode type cs) := by
  simp only [checkExpr1, List.mem_cons, List.not_mem_nil, or_false, Prod.mk.injEq] at hmem
  rcases hmem with ⟨rfl, rfl⟩ | ⟨rfl, rfl⟩ | ⟨rfl, rfl⟩ | ⟨rfl, rfl⟩ | ⟨rfl, rfl⟩
  · obtain ⟨_, ⟨f, args, hf, rfl⟩, rfl⟩ := children_one h
    exact ⟨.call f args, hf, rfl⟩
  · obtain ⟨_, ⟨token, -, rfl⟩, rfl⟩ := children_one h
    exact ⟨.var token.val, .nil, rfl⟩
  · obtain ⟨_, ⟨token, -, w, rfl⟩, rfl⟩ := children_one h
    exact ⟨.lit w, .nil, rfl⟩
  · obtain ⟨_, ⟨token, -, w, rfl⟩, rfl⟩ := children_one h
    exact ⟨.lit w, .nil, rfl⟩
  · obtain ⟨_, ⟨e, he, rfl⟩, rfl⟩ := children_one h
    exact ⟨.paren e, he, rfl⟩

theorem shape_cond {prod : List Sym} {type : AstType} (hmem : (prod, type) ∈ checkCond.prods)
    (h : Children t M prod cs) : Shape t M .cond (plainNode type cs) := by
  simp only [checkCond, List.mem_cons, List.not_mem_nil, or_false, Prod.mk.injEq] at hmem
  obtain ⟨rfl, rfl⟩ := hmem
  obtain ⟨_, _, _, ⟨e, he, rfl⟩, ⟨op, rfl⟩, ⟨e', he', rfl⟩, rfl⟩ := children_three h
  exact ⟨⟨e, op, e'⟩, he.append he', rfl⟩

theorem shape_statement {prod : List Sym} {type : AstType}
    (hmem : (prod, type) ∈ checkStatement.prods) (h : Children t M prod cs) :
    Shape t M .statement (plainNode type cs) := by
  simp only [checkStatement, List.mem_cons, List.not_mem_nil, or_false, Prod.mk.injEq] at hmem
  rcases hmem with ⟨rfl, rfl⟩ | ⟨rfl, rfl⟩ | ⟨rfl, rfl⟩ | ⟨rfl, rfl⟩ | ⟨rfl, rfl⟩
  · obtain ⟨_, ⟨d, x, init, hok, rfl⟩, rfl⟩ := children_one h
    exact ⟨.simple (.varDef d x init), hok, rfl⟩
  · obtain ⟨_, ⟨x, e, hok, rfl⟩, rfl⟩ := children_one h
    exact ⟨.simple (.varAssign x e), hok, rfl⟩
  · obtain ⟨_, ⟨f, args, hok, rfl⟩, rfl⟩ := children_one h
    exact ⟨.call f args, hok, rfl⟩
  · obtain ⟨_, ⟨e, hok, rfl⟩, rfl⟩ := children_one h
    exact ⟨.print e, hok, rfl⟩
  · obtain ⟨_, ⟨e, hok, rfl⟩, rfl⟩ := children_one h
    exact ⟨.ret e, hok, rfl⟩

theorem shape_sequence {prod : List Sym} {type : AstType}
    (hmem : (prod, type) ∈ checkSequence.prods) (h : Children t M prod cs) :
    Shape t M .sequence (plainNode type cs) := by
  have htwo : type = .astSequence ∧ ∃ x y, (∃ s : Stmt, CallsOk t M s.calls ∧ x = s.raw) ∧
      (∃ s : Stmt, CallsOk t M s.calls ∧ y = s.raw) ∧ cs = [x, y] := by
    simp only [checkSequence, List.mem_cons, List.not_mem_nil, or_false, Prod.mk.injEq] at hmem
    rcases hmem with ⟨rfl, rfl⟩ | ⟨rfl, rfl⟩ | ⟨rfl, rfl⟩
    · exact ⟨rfl, children_two h⟩
    · exact ⟨rfl, children_two h⟩
    · exact ⟨rfl, children_two h⟩
  obtain ⟨rfl, _, _, ⟨s, hs, rfl⟩, ⟨rest, hrest, rfl⟩, rfl⟩ := htwo
  exact ⟨.seq s rest, hs.append hrest, rfl⟩

theorem shape_branch {prod : List Sym} {type : AstType} (hmem : (prod, type) ∈ checkBranch.prods)
    (h : Children t M prod cs) : Shape t M .branch (plainNode type cs) := by
  simp only [checkBranch, List.mem_cons, List.not_mem_nil, or_false, Prod.mk.injEq] at hmem
  rcases hmem with ⟨rfl, rfl⟩ | ⟨rfl, rfl⟩
  · obtain ⟨_, _, _, ⟨c, hc, rfl⟩, ⟨s₁, hs₁, rfl⟩, ⟨s₂, hs₂, rfl⟩, rfl⟩ := children_three h
    exact ⟨.ifElse c s₁ s₂, (hc.append hs₁).append hs₂, rfl⟩
  · obtain ⟨_, _, ⟨c, hc, rfl⟩, ⟨s, hs, rfl⟩, rfl⟩ := children_two h
    exact ⟨.ifThen c s, hc.append hs, rfl⟩

theorem shape_forLoopHead {prod : List Sym} {type : AstType}
    (hmem : (prod, type) ∈ checkForLoopHead.prods) (h : Children t M prod cs) :
    Shape t M .forLoopHead (plainNode type cs) := by
  simp only [checkForLoopHead, List.mem_cons, List.not_mem_nil, or_false, Prod.mk.injEq] at hmem
  rcases hmem with ⟨rfl, rfl⟩ | ⟨rfl, rfl⟩
  · obtain ⟨_, _, _, ⟨d, x, init, hok, rfl⟩, ⟨c, hc, rfl⟩, ⟨y, e, he, rfl⟩, rfl⟩ := children_three h
    exact ⟨.varDef d x init, c, y, e, (hok.append hc).append he, rfl⟩
  · obtain ⟨_, _, _, ⟨x, init, hok, rfl⟩, ⟨c, hc, rfl⟩, ⟨y, e, he, rfl⟩, rfl⟩ := children_three h
    exact ⟨.varAssign x init, c, y, e, (hok.append hc).append he, rfl⟩

theorem shape_loop {prod : List Sym} {type : AstType} (hmem : (prod, type) ∈ checkLoop.prods)
    (h : Children t M prod cs) : Shape t M .loop (plainNode type cs) := by
  simp only [checkLoop, List.mem_cons, List.not_mem_nil, or_false, Prod.mk.injEq] at hmem
  rcases hmem with ⟨rfl, rfl⟩ | ⟨rfl, rfl⟩ | ⟨rfl, rfl⟩
  · obtain ⟨_, _, ⟨c, hc, rfl⟩, ⟨body, hbody, rfl⟩, rfl⟩ := children_two h
    exact ⟨.whileLoop c body, hc.append hbody, rfl⟩
  · obtain ⟨_, _, ⟨init, c, x, e, hhead, rfl⟩, ⟨body, hbody, rfl⟩, rfl⟩ := children_two h
    exact ⟨.forLoop init c x e body, hhead.append hbody, rfl⟩
  · obtain ⟨_, _, ⟨body, hbody, rfl⟩, ⟨c, hc, rfl⟩, rfl⟩ := children_two h
    exact ⟨.doLoop body c, hbody.append hc, rfl⟩

theorem shape_fcallArglist {prod : List Sym} {type : AstType}
    (hmem : (prod, type) ∈ checkFcallArglist.prods) (h : Children t M prod cs) :
    Shape t M .fcallArglist (plainNode type cs) := by
  simp only [checkFcallArglist, List.mem_cons, List.not_mem_nil, or_false, Prod.mk.injEq] at hmem
  rcases hmem with ⟨rfl, rfl⟩ | ⟨rfl, rfl⟩
  · obtain ⟨_, _, ⟨e, he, rfl⟩, ⟨args, hargs, rfl⟩, rfl⟩ := children_two h
    exact ⟨.cons e args, he.append hargs, rfl⟩
  · obtain ⟨_, ⟨e, he, rfl⟩, rfl⟩ := children_one h
    exact ⟨.last e, he, rfl⟩

theorem shape_argdef {prod : List Sym} {type : AstType} (hmem : (prod, type) ∈ checkArgdef.prods)
    (h : Children t M prod cs) : Shape t M .argdef (plainNode type cs) := by
  simp only [checkArgdef, List.mem_cons, List.not_mem_nil, or_false, Prod.mk.injEq] at hmem
  obtain ⟨rfl, rfl⟩ := hmem
  obtain ⟨_, _, ⟨d, rfl⟩, ⟨token, -, rfl⟩, rfl⟩ := children_two h
  exact ⟨d, token.val, rfl⟩

theorem shape_argdeflist {prod : List Sym} {type : AstType}
    (hmem : (prod, type) ∈ checkArgdeflist.prods) (h : Children t M prod cs) :
    Shape t M .argdeflist (plainNode type cs) := by
  simp only [checkArgdeflist, List.mem_cons, List.not_mem_nil, or_false, Prod.mk.injEq] at hmem
  rcases hmem with ⟨rfl, rfl⟩ | ⟨rfl, rfl⟩ | ⟨rfl, rfl⟩
  · obtain ⟨_, _, ⟨d, x, rfl⟩, ⟨params, rfl⟩, rfl⟩ := children_two h
    exact ⟨.cons d x params, rfl⟩
  · obtain ⟨_, ⟨d, x, rfl⟩, rfl⟩ := children_one h
    exact ⟨.last d x, rfl⟩
  · cases h
    exact ⟨.void, rfl⟩

/-! ### Calls -/

theorem countArgs_node (ref : String → NodeVal) :
    ∀ args : Args, countArgs (args.node ref) = args.count
  | .empty => rfl
  | .last _ => rfl
  | .cons _ args => congrArg (· + 1) (countArgs_node ref args)

/-- A call that is accepted was checked, and its argument count recorded. -/
theorem createFcall_spec (type : AstType) (f : String) (args : Args) (mustReturn : Bool)
    {s : PState} (hargs : CallsOk s.funcTable s.maxArgCount args.calls) :
    Ends (fun node s' => Frame s s' ∧ s'.token = s.token ∧ (node ≠ .null →
        node = .mk type (.func f) (args.node .str) .null .null ∧
          CallsOk s.funcTable s'.maxArgCount (args.calls ++ [⟨f, args.count, mustReturn⟩])))
      (fun _ _ => True) (createFcall type [identNode f, args.node .str] mustReturn s) := by
  refine Ends.bind (P := fun r s' => r = s.funcTable f ∧ s' = s) ⟨rfl, rfl⟩ ?_
  rintro r s' ⟨rfl, rfl⟩
  cases hinfo : s'.funcTable f with
  | none => exact ⟨.refl s', rfl, fun h => (h rfl).elim⟩
  | some func =>
      have hargCount : countArgs (child [identNode f, args.node .str] 1) = args.count :=
        countArgs_node .str args
      simp only [hargCount]
      by_cases hvoid : mustReturn = true ∧ func.retType = .dtypeVoid
      · simp only [if_pos hvoid]
        exact ⟨.refl s', rfl, fun h => (h rfl).elim⟩
      · by_cases hcount : args.count = func.argCount
        · simp only [if_neg hvoid, if_neg (not_not.mpr hcount)]
          have hframe : Frame s' { s' with maxArgCount := max s'.maxArgCount args.count } := by
            refine ⟨rfl, le_max_left _ _, ?_⟩
            rcases le_total args.count s'.maxArgCount with hle | hle
            · exact .inl (max_eq_left hle)
            · exact .inr ⟨f, func, hinfo, (max_eq_right hle).trans hcount⟩
          refine ⟨hframe, rfl, fun _ => ⟨rfl, (hargs.mono (le_max_left _ _)).append ?_⟩⟩
          intro c hc
          obtain rfl := List.mem_singleton.mp hc
          exact ⟨func, hinfo, hcount.symm, fun hret hv => hvoid ⟨hret, hv⟩, le_max_right _ _⟩
        · simp only [if_neg hvoid, if_pos hcount]
          exact ⟨.refl s', rfl, fun h => (h rfl).elim⟩

/-- The trees of a nonterminal without an action, from those of its symbols. -/
theorem shape_plain {c : Check} {prod : List Sym} {type : AstType}
    (hc : (Sym.nonterminal c).plain = true) (hmem : (prod, type) ∈ c.rule.prods)
    (hfcall : c ≠ .fcall) (hret : c ≠ .retFcall) (h : Children t M prod cs) :
    Shape t M c (plainNode type cs) := by
  cases c with
  | type => exact shape_type hmem h
  | varDef => exact shape_varDef hmem h
  | varAssign => exact shape_varAssign hmem h
  | print => exact shape_print hmem h
  | «return» => exact shape_return hmem h
  | expr => exact shape_expr hmem h
  | expr1 => exact shape_expr1 hmem h
  | cond => exact shape_cond hmem h
  | numop => exact shape_numop hmem h
  | boolop => exact shape_boolop hmem h
  | statement => exact shape_statement hmem h
  | sequence => exact shape_sequence hmem h
  | branch => exact shape_branch hmem h
  | forLoopHead => exact shape_forLoopHead hmem h
  | loop => exact shape_loop hmem h
  | fcallArglist => exact shape_fcallArglist hmem h
  | retFcall => exact (hret rfl).elim
  | fcall => exact (hfcall rfl).elim
  | argdef => exact shape_argdef hmem h
  | argdeflist => exact shape_argdeflist hmem h
  | func => exact Bool.noConfusion hc
  | program => exact Bool.noConfusion hc

end Shapes

/-! ## The outcome -/

/-- What the node type of a production weighs. -/
def AstType.weight (type : AstType) : ℕ := if type = .astVarDef ∨ type = .astArgdef then 2 else 0

/-- The productions of plain nonterminals are made of plain symbols, have no action
but that of calls, and pay for their declarations. -/
theorem rule_plain : ∀ c : Check, (Sym.nonterminal c).plain = true → ∀ p ∈ c.rule.prods,
    (∀ sym ∈ p.1, sym.plain = true) ∧ p.2 ≠ .astFunction ∧ p.2 ≠ .astFunctionProto ∧
      (p.2 = .astFcall ↔ c = .fcall) ∧ (p.2 = .astRetFcall ↔ c = .retFcall) ∧
      p.2.weight + c.least ≤ leastSum p.1 := by
  intro c
  cases c <;> decide

theorem createNode_plain {type : AstType} (h₁ : type ≠ .astFunction) (h₂ : type ≠ .astFunctionProto)
    (h₃ : type ≠ .astFcall) (h₄ : type ≠ .astRetFcall) (cs : List Node) :
    createNode type cs = pure (plainNode type cs) := by
  cases type <;> first | rfl | contradiction

theorem plainNode_decls_le (type : AstType) (cs : List Node) :
    (plainNode type cs).decls ≤ type.weight + declsSum cs := by
  have := child_decls_le cs
  simp only [plainNode, Node.decls, AstType.weight]
  omega

/-- The outcome of a production. -/
def Built (c : Check) (prod : List Sym) (cs : List Node) (s : PState) (node : Node)
    (s' : PState) : Prop :=
  Frame s s' ∧ s'.token = s.token ∧ (node ≠ .null →
    Shape s.funcTable s'.maxArgCount c node ∧ node.decls + c.least ≤ declsSum cs + leastSum prod)

theorem createNode_spec {c : Check} {prod : List Sym} {type : AstType}
    (hc : (Sym.nonterminal c).plain = true) (hmem : (prod, type) ∈ c.rule.prods) {s : PState}
    {cs : List Node} (h : Children s.funcTable s.maxArgCount prod cs) :
    Ends (Built c prod cs s) (fun _ _ => True) (createNode type cs s) := by
  obtain ⟨-, hfunc, hproto, hfcall, hret, hweight⟩ := rule_plain c hc _ hmem
  simp only at hfunc hproto hfcall hret hweight
  by_cases hcf : c = .fcall
  · subst hcf
    obtain rfl := hfcall.mpr rfl
    simp only [Check.rule, checkFcall, List.mem_singleton, Prod.mk.injEq, and_true] at hmem
    subst hmem
    obtain ⟨_, _, ⟨token, -, rfl⟩, ⟨args, hargs, rfl⟩, rfl⟩ := children_two h
    refine (createFcall_spec .astFcall token.val args false hargs).mono ?_ fun _ _ h => h
    rintro node s' ⟨hframe, htoken, hnode⟩
    refine ⟨hframe, htoken, fun hne => ?_⟩
    obtain ⟨rfl, hcalls⟩ := hnode hne
    refine ⟨⟨token.val, args, hcalls, rfl⟩, ?_⟩
    simp [Node.decls, declsSum, identNode, allocNode, Check.least, Sym.least]
  · by_cases hcr : c = .retFcall
    · subst hcr
      obtain rfl := hret.mpr rfl
      simp only [Check.rule, checkRetFcall, List.mem_singleton, Prod.mk.injEq, and_true] at hmem
      subst hmem
      obtain ⟨_, _, ⟨token, -, rfl⟩, ⟨args, hargs, rfl⟩, rfl⟩ := children_two h
      refine (createFcall_spec .astRetFcall token.val args true hargs).mono ?_ fun _ _ h => h
      rintro node s' ⟨hframe, htoken, hnode⟩
      refine ⟨hframe, htoken, fun hne => ?_⟩
      obtain ⟨rfl, hcalls⟩ := hnode hne
      refine ⟨⟨token.val, args, hcalls, rfl⟩, ?_⟩
      simp [Node.decls, declsSum, identNode, allocNode, Check.least, Sym.least]
    · rw [createNode_plain hfunc hproto (mt hfcall.mp hcf) (mt hret.mp hcr)]
      have hdecls := plainNode_decls_le type cs
      exact ⟨.refl s, rfl, fun _ => ⟨shape_plain hc hmem hcf hcr h, by omega⟩⟩

theorem matchProd_spec {rec : Check → P Node}
    (hrec : ∀ c, (Sym.nonterminal c).plain = true → ∀ s,
      Ends (Parsed c s) (fun _ _ => True) (rec c s))
    {c : Check} {prod : List Sym} {type : AstType} (hc : (Sym.nonterminal c).plain = true)
    (hmem : (prod, type) ∈ c.rule.prods) (s : PState) :
    Ends (Parsed c s) (fun _ _ => True) (matchProd rec type prod s) := by
  have hplain := (rule_plain c hc _ hmem).1
  refine (matchSyms_spec hrec prod hplain [] s).bind fun r s₁ h => ?_
  cases r with
  | none => exact ⟨h.1, fun hne => (hne rfl).elim, fun hne => (hne rfl).elim⟩
  | some cs =>
      obtain ⟨new, rfl, hchildren, hle⟩ := h.2 cs rfl
      have htable := h.1.table
      rw [← htable] at hchildren
      refine (createNode_spec hc hmem hchildren).mono ?_ fun _ _ h => h
      rintro node s' ⟨hframe, htoken, hnode⟩
      refine ⟨h.1.trans hframe, fun hne => htable ▸ (hnode hne).1, fun hne => ?_⟩
      have hbuilt := (hnode hne).2
      rw [htoken]
      change node.decls + c.least ≤ declsSum cs + leastSum prod at hbuilt
      omega

theorem tryMatching_spec {rec : Check → P Node}
    (hrec : ∀ c, (Sym.nonterminal c).plain = true → ∀ s,
      Ends (Parsed c s) (fun _ _ => True) (rec c s))
    {c : Check} (hc : (Sym.nonterminal c).plain = true) (prods : List (List Sym × AstType))
    (hmem : ∀ p ∈ prods, p ∈ c.rule.prods) {s₀ s : PState} (hs : Frame s₀ s)
    (htoken : s.token = s₀.token) :
    Ends (Parsed c s₀) (fun _ _ => True)
      (tryMatching rec s₀.token c.rule.acceptsEmpty prods s) := by
  induction prods generalizing s with
  | nil =>
      have hnull : Parsed c s₀ .null s :=
        ⟨hs, fun hne => (hne rfl).elim, fun hne => (hne rfl).elim⟩
      have hempty (hshape : Shape s₀.funcTable s.maxArgCount c emptyNode) (hleast : c.least = 0) :
          Parsed c s₀ emptyNode s :=
        ⟨hs, fun _ => hshape, fun _ => by simp [emptyNode, allocNode, Node.decls, hleast, htoken]⟩
      cases c with
      | sequence => exact hempty ⟨.skip, .nil, rfl⟩ rfl
      | fcallArglist => exact hempty ⟨.empty, .nil, rfl⟩ rfl
      | program => exact Bool.noConfusion hc
      | _ => exact hnull
  | cons p prods ih =>
      have hmem' := fun q hq => hmem q (List.mem_cons_of_mem p hq)
      have hp : (p.1, p.2) ∈ c.rule.prods := hmem p List.mem_cons_self
      refine (matchProd_spec hrec hc hp s).bind fun node s₁ h => ?_
      by_cases hnull : node = .null
      · rw [if_pos hnull]
        exact ih hmem' (s := { s₁ with token := s₀.token })
          ((hs.trans h.frame).trans (.setToken s₁ s₀.token)) rfl
      · rw [if_neg hnull]
        exact ⟨hs.trans h.frame, fun hne => hs.table ▸ h.shape hne,
          fun hne => htoken ▸ h.consumed hne⟩

/-- **The trees of the nonterminals within a function.** -/
theorem check_spec (fuel : ℕ) {c : Check} (hc : (Sym.nonterminal c).plain = true) (s : PState) :
    Ends (Parsed c s) (fun _ _ => True) (check fuel c s) := by
  induction fuel generalizing c s with
  | zero => trivial
  | succ fuel ih =>
      have hne : c ≠ .func := fun h => by rw [h] at hc; exact Bool.noConfusion hc
      have hstep : check (fuel + 1) c s =
          tryMatching (check fuel) s.token c.rule.acceptsEmpty c.rule.prods s := by
        rw [check, bind_ok (f := _) (show getToken s = .ok s.token s from rfl)]
        simp only [if_neg hne]
      rw [hstep]
      exact tryMatching_spec (fun c hc s => ih hc s) hc _ (fun _ h => h) (.refl s) rfl

end Bispe
