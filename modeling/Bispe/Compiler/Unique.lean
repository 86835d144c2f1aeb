import Bispe.Compiler.CallSize
import Bispe.Lib.Unambiguous

/-!
# A text has one reading

The tokens of a phrase determine its nodes, and the tokens of a program its declarations:
the grammar is unambiguous, the actions do not look at the state where they succeed, and a
tree is the tree of one phrase only.

## Main definitions

* `Item.Written`, `Written` — the tokens of a declaration and of a program.
* `Parses.unique` — phrases are read in one way.
* `Stmt.raw_injective` — trees of statements are those of one statement.
* `Written.unique` — so are programs.
-/

namespace Bispe

open Effect Grammar

/-! ## Actions -/

/-- The node of a token does not depend on the state. -/
theorem Makes.unique {create : Option Creator} {token : Token} {new new' : List Node}
    (h : Makes create token new) (h' : Makes create token new') : new = new' := by
  obtain ⟨s, s₁, h⟩ := h
  obtain ⟨s', s₁', h'⟩ := h'
  cases create with
  | none =>
      obtain ⟨rfl, -⟩ := EStateM.Result.ok.inj h
      obtain ⟨rfl, -⟩ := EStateM.Result.ok.inj h'
      rfl
  | some creator =>
      obtain ⟨node, s₂, hnode, h⟩ := bind_eq_ok h
      obtain ⟨node', s₂', hnode', h'⟩ := bind_eq_ok h'
      obtain ⟨rfl, -⟩ := EStateM.Result.ok.inj h
      obtain ⟨rfl, -⟩ := EStateM.Result.ok.inj h'
      have hsame : node = node' := by
        cases creator with
        | intliteral =>
            obtain ⟨n, s₃, hn, hnode⟩ := bind_eq_ok hnode
            obtain ⟨n', s₃', hn', hnode'⟩ := bind_eq_ok hnode'
            obtain ⟨rfl, -⟩ := EStateM.Result.ok.inj
              ((literalNumber_stateless hn s').symm.trans hn')
            exact (EStateM.Result.ok.inj hnode).1.symm.trans (EStateM.Result.ok.inj hnode').1
        | negIntliteral =>
            obtain ⟨n, s₃, hn, hnode⟩ := bind_eq_ok hnode
            obtain ⟨n', s₃', hn', hnode'⟩ := bind_eq_ok hnode'
            obtain ⟨rfl, -⟩ := EStateM.Result.ok.inj
              ((literalNumber_stateless hn s').symm.trans hn')
            exact (EStateM.Result.ok.inj hnode).1.symm.trans (EStateM.Result.ok.inj hnode').1
        | _ => exact (EStateM.Result.ok.inj hnode).1.symm.trans (EStateM.Result.ok.inj hnode').1
      rw [hsame]

/-- The node of a call that is accepted. -/
theorem createFcall_node {type : AstType} {cs : List Node} {node : Node} {mustReturn : Bool}
    {s s' : PState} (h : createFcall type cs mustReturn s = .ok node s') (hne : node ≠ .null) :
    node = .mk type (.func (child cs 0).str) (child cs 1) .null .null := by
  obtain ⟨func, s₁, hget, h⟩ := bind_eq_ok h
  cases func with
  | none =>
      obtain ⟨rfl, -⟩ := EStateM.Result.ok.inj h
      exact absurd rfl hne
  | some func =>
      simp only at h
      split_ifs at h with hvoid hcount
      · obtain ⟨rfl, -⟩ := EStateM.Result.ok.inj h
        exact absurd rfl hne
      · obtain ⟨rfl, -⟩ := EStateM.Result.ok.inj h
        exact absurd rfl hne
      · exact (EStateM.Result.ok.inj h).1.symm

/-- The node of a production within a function is determined by its children. -/
theorem Builds.unique {type : AstType} {cs : List Node} {node node' : Node}
    (h₁ : type ≠ .astFunction) (h₂ : type ≠ .astFunctionProto) (h : Builds type cs node)
    (h' : Builds type cs node') : node = node' := by
  by_cases h₃ : type = .astFcall
  · subst h₃
    obtain ⟨hne, s, s₁, h⟩ := h
    obtain ⟨hne', s', s₁', h'⟩ := h'
    exact (createFcall_node h hne).trans (createFcall_node h' hne').symm
  · by_cases h₄ : type = .astRetFcall
    · subst h₄
      obtain ⟨hne, s, s₁, h⟩ := h
      obtain ⟨hne', s', s₁', h'⟩ := h'
      exact (createFcall_node h hne).trans (createFcall_node h' hne').symm
    · exact (h.plain h₁ h₂ h₃ h₄).trans (h'.plain h₁ h₂ h₃ h₄).symm

/-! ## Phrases -/

/-- The productions of a nonterminal differ in their symbols, and none is empty. -/
theorem prods_symbols : ∀ c : Check, ∀ p ∈ c.rule.prods, p.1.map Sym.symbol ≠ [] ∧
    ∀ q ∈ c.rule.prods, p.1.map Sym.symbol = q.1.map Sym.symbol → p = q := by
  intro c
  cases c <;> decide

theorem mem_productions {c : Check} {p : List Sym × AstType} (hp : p ∈ c.rule.prods) :
    p.1.map Sym.symbol ∈ c.productions := List.mem_append_left _ (List.mem_map_of_mem hp)

theorem nil_mem_productions {c : Check} (h : c.rule.acceptsEmpty = true) : [] ∈ c.productions := by
  rw [Check.productions, if_pos h]
  exact List.mem_append_right _ (List.mem_singleton_self _)

/-- What comes after the first phrase of a sequence. -/
theorem Parses.before {c : Check} {prod : List Sym} {F : List TokenType} {w w' x : List Token}
    {cs : List Node} (h : Parses prod w' cs)
    (hf : follows Check.productions Check.starts Check.follow F
      ((Sym.nonterminal c :: prod).map Sym.symbol) = true)
    (hx : Before Token.type F (w ++ w') x) :
    Before Token.type c.follow w x ∧ ∃ x', x = w ++ x' ∧ Before Token.type F w' x' := by
  obtain ⟨ds, hds⟩ := h.leftmost
  obtain ⟨t, y, rfl, ht⟩ := hx
  obtain ⟨u, z, hz, hu⟩ := hds.mem_firsts check_lookahead ht y
  refine ⟨⟨u, z, ?_, follows_cons hf hu⟩, w' ++ t :: y, List.append_assoc .., t, y, rfl, ht⟩
  rw [List.append_assoc, hz]

/-- **Phrases are read in one way.**  Tokens of the same symbols at the same place, with
expected tokens after them, are the same and leave the same nodes. -/
theorem Parses.unique {prod : List Sym} {w : List Token} {cs : List Node} (h : Parses prod w cs) :
    ∀ {F : List TokenType} {w' x : List Token} {cs' : List Node},
      (∀ sym ∈ prod, sym.plain = true) →
      follows Check.productions Check.starts Check.follow F (prod.map Sym.symbol) = true →
      Before Token.type F w x → Parses prod w' cs' → Before Token.type F w' x →
      w = w' ∧ cs = cs' := by
  induction h with
  | nil =>
      intro F w' x cs' _ _ _ h' _
      cases h'
      exact ⟨rfl, rfl⟩
  | @terminal type create prod token w new cs htype hmakes h ih =>
      intro F w' x cs' hplain hf hx h' hx'
      obtain ⟨token', w', new', cs', rfl, rfl, -, hmakes', hrest⟩ := h'.token
      obtain ⟨t, y, rfl, ht⟩ := hx
      obtain ⟨t', y', heq, ht'⟩ := hx'
      obtain ⟨rfl, htail⟩ := List.cons.inj heq
      obtain ⟨rfl, rfl⟩ := ih (fun sym hsym => hplain sym (List.mem_cons_of_mem _ hsym))
        (follows_tail hf) ⟨t, y, rfl, ht⟩ hrest ⟨t', y', htail, ht'⟩
      rw [hmakes.unique hmakes']
      exact ⟨rfl, rfl⟩
  | @production c p prod w w₂ node cs cs₂ hp hsyms hbuilds h ih ih₂ =>
      intro F w' x cs' hplain hf hx h' hx'
      have hplainc : (Sym.nonterminal c).plain = true := hplain _ List.mem_cons_self
      obtain ⟨hplainp, hfunc, hproto, -⟩ := rule_plain c hplainc p hp
      obtain ⟨hxw, x₂, rfl, hx₂⟩ := h.before hf hx
      obtain ⟨ds, hds⟩ := hsyms.leftmost
      cases h' with
      | @production _ p' _ w' w₂' node' cs' cs₂' hp' hsyms' hbuilds' h' =>
          obtain ⟨hxw', x₂', hsplit, hx₂'⟩ := h'.before hf hx'
          obtain ⟨ds', hds'⟩ := hsyms'.leftmost
          obtain ⟨hpp, rfl⟩ := hds.production_unique check_lookahead (mem_productions hp)
            (mem_productions hp') hxw hds' hxw'
          obtain rfl := (prods_symbols c p hp).2 p' hp' hpp
          rw [List.append_cancel_left_eq] at hsplit
          subst hsplit
          obtain ⟨-, rfl⟩ := ih hplainp (check_lookahead.follows_prod c _ (mem_productions hp)) hxw
            hsyms' hxw'
          obtain ⟨rfl, rfl⟩ := ih₂ (fun sym hsym => hplain sym (List.mem_cons_of_mem _ hsym))
            (follows_tail hf) hx₂ h' hx₂'
          rw [hbuilds.unique hfunc hproto hbuilds']
          exact ⟨rfl, rfl⟩
      | empty hempty h' =>
          have hxw' := (h'.before (w := []) hf hx').1
          obtain ⟨hpp, -⟩ := hds.production_unique check_lookahead (mem_productions hp)
            (nil_mem_productions hempty) hxw .nil hxw'
          exact absurd hpp (prods_symbols c p hp).1
  | @empty c prod w cs hempty h ih =>
      intro F w' x cs' hplain hf hx h' hx'
      obtain ⟨hxw, x₂, hx₂, hb⟩ := h.before (w := []) hf hx
      cases h' with
      | @production _ p' _ w' w₂' node' cs' cs₂' hp' hsyms' hbuilds' h' =>
          obtain ⟨hxw', -⟩ := h'.before hf hx'
          obtain ⟨ds', hds'⟩ := hsyms'.leftmost
          obtain ⟨hpp, -⟩ := hds'.production_unique check_lookahead (mem_productions hp')
            (nil_mem_productions hempty) hxw' .nil hxw
          exact absurd hpp (prods_symbols c p' hp').1
      | empty _ h' =>
          obtain ⟨rfl, rfl⟩ := ih (fun sym hsym => hplain sym (List.mem_cons_of_mem _ hsym))
            (follows_tail hf) hx h' hx'
          exact ⟨rfl, rfl⟩

/-! ## Trees -/

theorem NumOp.tok_injective : ∀ op op' : NumOp, op.tok = op'.tok → op = op' := by
  intro op op'
  cases op <;> cases op' <;> decide

theorem BoolOp.tok_injective : ∀ op op' : BoolOp, op.tok = op'.tok → op = op' := by
  intro op op'
  cases op <;> cases op' <;> decide

theorem typeNode_injective {d d' : Dtype} (h : typeNode d = typeNode d') : d = d' := by
  simp only [typeNode, inner, allocNode, Node.mk.injEq, NodeVal.type.injEq] at h
  rw [← tokTypeToDtype_tok d, h.2.2.1.2.1, tokTypeToDtype_tok]

theorem identNode_injective {x x' : String} (h : identNode x = identNode x') : x = x' := by
  simpa [identNode, allocNode] using h

mutual

/-- An expression is determined by its tree. -/
theorem Expr.node_injective : ∀ e e' : Expr, e.node .str = e'.node .str → e = e'
  | .unary u, .unary u', h => by
      rw [Unary.node_injective u u' (Node.mk.inj h).2.2.1]
  | .bin u op e, .bin u' op' e', h => by
      obtain ⟨-, -, hu, hop, he⟩ := Node.mk.inj h
      rw [Unary.node_injective u u' hu, Expr.node_injective e e' he]
      simp only [numopNode, inner, allocNode, Node.mk.injEq, NodeVal.type.injEq] at hop
      rw [op.tok_injective op' hop.2.2.1.2.1]
  | .unary u, .bin u' op' e', h => by simp [Expr.node, inner, numopNode] at h
  | .bin u op e, .unary u', h => by simp [Expr.node, inner, numopNode] at h

theorem Unary.node_injective : ∀ u u' : Unary, u.node .str = u'.node .str → u = u'
  | .call f args, .call f' args', h => by
      obtain ⟨-, hf, hargs, -⟩ := Node.mk.inj (Node.mk.inj h).2.2.1
      rw [NodeVal.func.inj hf, Args.node_injective args args' hargs]
  | .var x, .var x', h => by
      obtain ⟨-, hx, -⟩ := Node.mk.inj (Node.mk.inj h).2.2.1
      rw [NodeVal.str.inj hx]
  | .lit n, .lit n', h => by
      obtain ⟨-, hn, -⟩ := Node.mk.inj (Node.mk.inj h).2.2.1
      rw [NodeVal.number.inj hn]
  | .paren e, .paren e', h => by
      rw [Expr.node_injective e e' (Node.mk.inj h).2.2.1]
  | .call f args, .var x', h => by simp [Unary.node, inner, allocNode] at h
  | .call f args, .lit n', h => by simp [Unary.node, inner, allocNode] at h
  | .call f args, .paren e', h => by cases e' <;> simp [Unary.node, Expr.node, inner] at h
  | .var x, .call f' args', h => by simp [Unary.node, inner, allocNode] at h
  | .var x, .lit n', h => by simp [Unary.node, inner, allocNode] at h
  | .var x, .paren e', h => by cases e' <;> simp [Unary.node, Expr.node, inner, allocNode] at h
  | .lit n, .call f' args', h => by simp [Unary.node, inner, allocNode] at h
  | .lit n, .var x', h => by simp [Unary.node, inner, allocNode] at h
  | .lit n, .paren e', h => by cases e' <;> simp [Unary.node, Expr.node, inner, allocNode] at h
  | .paren e, .call f' args', h => by cases e <;> simp [Unary.node, Expr.node, inner] at h
  | .paren e, .var x', h => by cases e <;> simp [Unary.node, Expr.node, inner, allocNode] at h
  | .paren e, .lit n', h => by cases e <;> simp [Unary.node, Expr.node, inner, allocNode] at h

theorem Args.node_injective : ∀ args args' : Args, args.node .str = args'.node .str → args = args'
  | .empty, .empty, _ => rfl
  | .last e, .last e', h => by
      rw [Expr.node_injective e e' (Node.mk.inj h).2.2.1]
  | .cons e args, .cons e' args', h => by
      obtain ⟨-, -, he, hargs, -⟩ := Node.mk.inj h
      rw [Expr.node_injective e e' he, Args.node_injective args args' hargs]
  | .empty, .last e', h => by simp [Args.node, emptyNode, allocNode, inner] at h
  | .empty, .cons e' args', h => by simp [Args.node, emptyNode, allocNode, inner] at h
  | .last e, .empty, h => by simp [Args.node, emptyNode, allocNode, inner] at h
  | .last e, .cons e' args', h => by
      cases args' <;> simp [Args.node, emptyNode, allocNode, inner] at h
  | .cons e args, .empty, h => by simp [Args.node, emptyNode, allocNode, inner] at h
  | .cons e args, .last e', h => by
      cases args <;> simp [Args.node, emptyNode, allocNode, inner] at h

end

theorem exprNode?_injective {e e' : Option Expr} (h : exprNode? .str e = exprNode? .str e') :
    e = e' := by
  cases e with
  | none =>
      cases e' with
      | none => rfl
      | some e' => exact absurd h.symm (e'.node_ne_null _)
  | some e =>
      cases e' with
      | none => exact absurd h (e.node_ne_null _)
      | some e' => rw [e.node_injective e' h]

theorem Cond.node_injective {c c' : Cond} (h : c.node .str = c'.node .str) : c = c' := by
  obtain ⟨l, op, r⟩ := c
  obtain ⟨l', op', r'⟩ := c'
  obtain ⟨-, -, hl, hop, hr⟩ := Node.mk.inj h
  simp only [boolopNode, inner, allocNode, Node.mk.injEq, NodeVal.type.injEq] at hop
  rw [l.node_injective l' hl, op.tok_injective op' hop.2.2.1.2.1, r.node_injective r' hr]

theorem Simple.raw_injective {s s' : Simple} (h : s.raw = s'.raw) : s = s' := by
  cases s with
  | varDef type x init =>
      cases s' with
      | varDef type' x' init' =>
          obtain ⟨-, -, htype, hx, hinit⟩ := Node.mk.inj h
          rw [typeNode_injective htype, identNode_injective hx, exprNode?_injective hinit]
      | varAssign x' e' => simp [Simple.raw, inner] at h
  | varAssign x e =>
      cases s' with
      | varDef type' x' init' => simp [Simple.raw, inner] at h
      | varAssign x' e' =>
          obtain ⟨-, -, hx, he, -⟩ := Node.mk.inj h
          rw [identNode_injective hx, e.node_injective e' he]

theorem Stmt.raw_ne_null (s : Stmt) : s.raw ≠ .null := by
  cases s <;> simp [Stmt.raw, Stmt.nodeWith, emptyNode, allocNode, inner]

theorem Stmt.raw_ne_cond (s : Stmt) (c : Cond) : s.raw ≠ c.node .str := by
  cases s <;> simp [Stmt.raw, Stmt.nodeWith, Cond.node, emptyNode, allocNode, inner]

theorem Stmt.raw_ne_head (s : Stmt) (l m r : Node) : s.raw ≠ .mk .astForLoopHead .uninit l m r := by
  cases s <;> simp [Stmt.raw, Stmt.nodeWith, emptyNode, allocNode, inner]

/-- **A statement is determined by its tree.** -/
theorem Stmt.raw_injective {s s' : Stmt} (h : s.raw = s'.raw) : s = s' := by
  induction s generalizing s' with
  | skip =>
      cases s' with
      | skip => rfl
      | _ => simp [Stmt.raw, Stmt.nodeWith, emptyNode, allocNode, inner] at h
  | seq s rest ih ih' =>
      cases s' with
      | seq s' rest' =>
          obtain ⟨-, -, hs, hrest, -⟩ := Node.mk.inj h
          rw [ih hs, ih' hrest]
      | _ => simp [Stmt.raw, Stmt.nodeWith, emptyNode, allocNode, inner] at h
  | simple s =>
      cases s' with
      | simple s' => rw [Simple.raw_injective (Node.mk.inj h).2.2.1]
      | call => cases s <;> simp [Stmt.raw, Stmt.nodeWith, Simple.raw, inner] at h
      | print => cases s <;> simp [Stmt.raw, Stmt.nodeWith, Simple.raw, inner] at h
      | ret => cases s <;> simp [Stmt.raw, Stmt.nodeWith, Simple.raw, inner] at h
      | _ => simp [Stmt.raw, Stmt.nodeWith, emptyNode, allocNode, inner] at h
  | call f args =>
      cases s' with
      | call f' args' =>
          obtain ⟨-, hf, hargs, -⟩ := Node.mk.inj (Node.mk.inj h).2.2.1
          rw [NodeVal.func.inj hf, args.node_injective args' hargs]
      | simple s' => cases s' <;> simp [Stmt.raw, Stmt.nodeWith, Simple.raw, inner] at h
      | _ => simp [Stmt.raw, Stmt.nodeWith, emptyNode, allocNode, inner] at h
  | print e =>
      cases s' with
      | print e' =>
          rw [e.node_injective e' (Node.mk.inj (Node.mk.inj h).2.2.1).2.2.1]
      | simple s' => cases s' <;> simp [Stmt.raw, Stmt.nodeWith, Simple.raw, inner] at h
      | _ => simp [Stmt.raw, Stmt.nodeWith, emptyNode, allocNode, inner] at h
  | ret e =>
      cases s' with
      | ret e' =>
          rw [exprNode?_injective (Node.mk.inj (Node.mk.inj h).2.2.1).2.2.1]
      | simple s' => cases s' <;> simp [Stmt.raw, Stmt.nodeWith, Simple.raw, inner] at h
      | _ => simp [Stmt.raw, Stmt.nodeWith, emptyNode, allocNode, inner] at h
  | ifThen c s ih =>
      cases s' with
      | ifThen c' s' =>
          obtain ⟨-, -, hc, hs, -⟩ := Node.mk.inj h
          rw [Cond.node_injective hc, ih hs]
      | ifElse c' s₁' s₂' => exact absurd (Node.mk.inj h).2.2.2.2.symm s₂'.raw_ne_null
      | _ => simp [Stmt.raw, Stmt.nodeWith, emptyNode, allocNode, inner] at h
  | ifElse c s₁ s₂ ih₁ ih₂ =>
      cases s' with
      | ifThen c' s' => exact absurd (Node.mk.inj h).2.2.2.2 s₂.raw_ne_null
      | ifElse c' s₁' s₂' =>
          obtain ⟨-, -, hc, hs₁, hs₂⟩ := Node.mk.inj h
          rw [Cond.node_injective hc, ih₁ hs₁, ih₂ hs₂]
      | _ => simp [Stmt.raw, Stmt.nodeWith, emptyNode, allocNode, inner] at h
  | whileLoop c body ih =>
      cases s' with
      | whileLoop c' body' =>
          obtain ⟨-, -, hc, hbody, -⟩ := Node.mk.inj h
          rw [Cond.node_injective hc, ih hbody]
      | forLoop => simp [Stmt.raw, Stmt.nodeWith, Cond.node, inner] at h
      | doLoop body' c' => exact absurd (Node.mk.inj h).2.2.1.symm (body'.raw_ne_cond c)
      | _ => simp [Stmt.raw, Stmt.nodeWith, emptyNode, allocNode, inner] at h
  | forLoop init c x e body ih =>
      cases s' with
      | forLoop init' c' x' e' body' =>
          obtain ⟨-, -, hhead, hbody, -⟩ := Node.mk.inj h
          obtain ⟨-, -, hinit, hc, hupdate⟩ := Node.mk.inj hhead
          obtain ⟨rfl, rfl⟩ := Simple.varAssign.inj (Simple.raw_injective hupdate)
          rw [Simple.raw_injective hinit, Cond.node_injective hc, ih hbody]
      | whileLoop => simp [Stmt.raw, Stmt.nodeWith, Cond.node, inner] at h
      | doLoop body' c' => exact absurd (Node.mk.inj h).2.2.1.symm (body'.raw_ne_head _ _ _)
      | _ => simp [Stmt.raw, Stmt.nodeWith, emptyNode, allocNode, inner] at h
  | doLoop body c ih =>
      cases s' with
      | doLoop body' c' =>
          obtain ⟨-, -, hbody, hc, -⟩ := Node.mk.inj h
          rw [ih hbody, Cond.node_injective hc]
      | whileLoop c' body' => exact absurd (Node.mk.inj h).2.2.1 (body.raw_ne_cond c')
      | forLoop => exact absurd (Node.mk.inj h).2.2.1 (body.raw_ne_head _ _ _)
      | _ => simp [Stmt.raw, Stmt.nodeWith, emptyNode, allocNode, inner] at h

theorem Params.node_injective {ps ps' : Params} (h : ps.node = ps'.node) : ps = ps' := by
  induction ps generalizing ps' with
  | void =>
      cases ps' with
      | void => rfl
      | _ => simp [Params.node, argdefNode, inner] at h
  | last type x =>
      cases ps' with
      | last type' x' =>
          obtain ⟨-, -, htype, hx, -⟩ := Node.mk.inj (Node.mk.inj h).2.2.1
          rw [typeNode_injective htype, identNode_injective hx]
      | cons type' x' ps' => cases ps' <;> simp [Params.node, argdefNode, inner] at h
      | void => simp [Params.node, argdefNode, inner] at h
  | cons type x ps ih =>
      cases ps' with
      | cons type' x' ps' =>
          obtain ⟨-, -, hdef, hps, -⟩ := Node.mk.inj h
          obtain ⟨-, -, htype, hx, -⟩ := Node.mk.inj hdef
          rw [typeNode_injective htype, identNode_injective hx, ih hps]
      | last => cases ps <;> simp [Params.node, argdefNode, inner] at h
      | void => simp [Params.node, argdefNode, inner] at h

/-! ## Programs -/

/-- The production of a declaration. -/
def Item.prod : Item → List Sym × AstType
  | .proto _ => (signature ++ [tok .tokSemicl], .astFunctionProto)
  | .func _ => (signature ++ bodySyms, .astFunction)

/-- What the action of the declaration is given. -/
def Item.children : Item → List Node
  | .proto p => p.children
  | .func f => f.children

/-- The tokens of a declaration: its production reads them to the trees of its parts. -/
def Item.Written : Item → List Token → Prop
  | .proto p, w => Parses (signature ++ [tok .tokSemicl]) w p.children
  | .func f, w => Parses (signature ++ bodySyms) w f.children ∧ IsMaxCall f.body.calls f.maxCall

/-- The tokens of a list of declarations. -/
def Written : List Item → List Token → Prop
  | [], w => w = []
  | item :: items, w => ∃ w₁ w₂, w = w₁ ++ w₂ ∧ item.Written w₁ ∧ Written items w₂

theorem Item.prod_mem (item : Item) : item.prod ∈ Check.func.rule.prods := by
  cases item with
  | proto p => exact List.mem_cons_of_mem _ (List.mem_singleton_self _)
  | func f => exact List.mem_cons_self

theorem Item.Written.parses {item : Item} {w : List Token} (h : item.Written w) :
    Parses item.prod.1 w item.children := by
  cases item with
  | proto p => exact h
  | func f => exact h.1

theorem Proto.children_injective {p p' : Proto} (h : p.children = p'.children) : p = p' := by
  obtain ⟨ret, name, params⟩ := p
  obtain ⟨ret', name', params'⟩ := p'
  simp only [Proto.children, List.cons.injEq, and_true] at h
  rw [typeNode_injective h.1, identNode_injective h.2.1, Params.node_injective h.2.2]

theorem IsMaxCall.eq {calls : List Call} {M M' : ℕ} (h : IsMaxCall calls M)
    (h' : IsMaxCall calls M') : M = M' := by
  rcases le_total M M' with hle | hle
  · exact h'.unique h.le hle
  · exact (h.unique h'.le hle).symm

/-- **The tokens of a declaration determine it.** -/
theorem Item.Written.unique {item item' : Item} {w w' x : List Token} (h : item.Written w)
    (hx : Before Token.type Check.func.follow w x) (h' : item'.Written w')
    (hx' : Before Token.type Check.func.follow w' x) : item = item' ∧ w = w' := by
  obtain ⟨ds, hds⟩ := h.parses.leftmost
  obtain ⟨ds', hds'⟩ := h'.parses.leftmost
  obtain ⟨hsymbols, rfl⟩ := hds.production_unique check_lookahead (mem_productions item.prod_mem)
    (mem_productions item'.prod_mem) hx hds' hx'
  have hprod := (prods_symbols .func item.prod item.prod_mem).2 item'.prod item'.prod_mem hsymbols
  have hfollows := check_lookahead.follows_prod .func _ (mem_productions item.prod_mem)
  refine ⟨?_, rfl⟩
  cases item with
  | proto p =>
      cases item' with
      | func f' => cases (Prod.mk.inj hprod).2
      | proto p' =>
          have hchildren := (Parses.unique h (by decide) hfollows hx h' hx').2
          rw [Proto.children_injective hchildren]
  | func f =>
      cases item' with
      | proto p' => cases (Prod.mk.inj hprod).2
      | func f' =>
          obtain ⟨hparses, hmax⟩ := h
          obtain ⟨hparses', hmax'⟩ := h'
          have hchildren := (hparses.unique (by decide) hfollows hx hparses' hx').2
          obtain ⟨hproto, hbody⟩ := List.append_inj' hchildren rfl
          obtain ⟨ret, name, params, body, maxCall⟩ := f
          obtain ⟨ret', name', params', body', maxCall'⟩ := f'
          obtain ⟨rfl, rfl, rfl⟩ := Proto.mk.inj (Proto.children_injective hproto)
          obtain rfl := Stmt.raw_injective (List.singleton_inj.mp hbody)
          have hcount : maxCall = maxCall' := hmax.eq hmax'
          rw [hcount]

/-- The production of a program that is not empty. -/
def programProd : List GSym := [.nonterminal .func, .nonterminal .program]

theorem programProd_mem : programProd ∈ Check.program.productions :=
  mem_productions (c := .program) List.mem_cons_self

/-- A list of declarations is derived from `program`. -/
theorem Written.leftmost {items : List Item} {w : List Token} (h : Written items w) :
    ∃ p ∈ Check.program.productions, (p = [] ↔ items = []) ∧
      ∃ ds, Leftmost Check.productions Token.type ds p w := by
  induction items generalizing w with
  | nil =>
      obtain rfl : w = [] := h
      exact ⟨[], nil_mem_productions rfl, by simp, [], .nil⟩
  | cons item items ih =>
      obtain ⟨w₁, w₂, rfl, hitem, hrest⟩ := h
      obtain ⟨ds₁, hds₁⟩ := hitem.parses.leftmost
      obtain ⟨p, hp, -, ds₂, hds₂⟩ := ih hrest
      have hprogram : Leftmost Check.productions Token.type _ [.nonterminal .program] w₂ :=
        .nonterminal hp (by rwa [List.append_nil])
      exact ⟨programProd, programProd_mem, by simp [programProd], _,
        .nonterminal (mem_productions item.prod_mem) (hds₁.append hprogram)⟩

/-- What comes after the first declaration. -/
theorem Written.before {items : List Item} {w w' x : List Token} (h : Written items w')
    (hx : Before Token.type Check.program.follow (w ++ w') x) :
    Before Token.type Check.func.follow w x ∧
      ∃ x', x = w ++ x' ∧ Before Token.type Check.program.follow w' x' := by
  obtain ⟨p, hp, -, ds, hds⟩ := h.leftmost
  have hprogram : Leftmost Check.productions Token.type _ [.nonterminal .program] w' :=
    .nonterminal hp (by rwa [List.append_nil])
  obtain ⟨t, y, rfl, ht⟩ := hx
  obtain ⟨u, z, hz, hu⟩ := hprogram.mem_firsts check_lookahead ht y
  have hfollows := check_lookahead.follows_prod .program _ programProd_mem
  refine ⟨⟨u, z, ?_, follows_cons hfollows hu⟩, w' ++ t :: y, List.append_assoc .., t, y, rfl, ht⟩
  rw [List.append_assoc, hz]

/-- **The tokens of a program determine its declarations.** -/
theorem Written.unique {items items' : List Item} {w w' x : List Token} (h : Written items w)
    (hx : Before Token.type Check.program.follow w x) (h' : Written items' w')
    (hx' : Before Token.type Check.program.follow w' x) : items = items' ∧ w = w' := by
  induction items generalizing items' w w' x with
  | nil =>
      obtain ⟨p, hp, hempty, ds, hds⟩ := h.leftmost
      obtain ⟨p', hp', hempty', ds', hds'⟩ := h'.leftmost
      obtain ⟨rfl, rfl⟩ := hds.production_unique check_lookahead hp hp' hx hds' hx'
      rw [hempty'.mp (hempty.mpr rfl)]
      exact ⟨rfl, rfl⟩
  | cons item items ih =>
      cases items' with
      | nil =>
          obtain ⟨p, hp, hempty, ds, hds⟩ := h.leftmost
          obtain ⟨p', hp', hempty', ds', hds'⟩ := h'.leftmost
          obtain ⟨rfl, -⟩ := hds.production_unique check_lookahead hp hp' hx hds' hx'
          cases hempty.mp (hempty'.mpr rfl)
      | cons item' items' =>
          obtain ⟨w₁, w₂, rfl, hitem, hrest⟩ := h
          obtain ⟨w₁', w₂', rfl, hitem', hrest'⟩ := h'
          obtain ⟨hx₁, x₂, rfl, hx₂⟩ := hrest.before hx
          obtain ⟨hx₁', x₂', hsplit, hx₂'⟩ := hrest'.before hx'
          obtain ⟨rfl, rfl⟩ := hitem.unique hx₁ hitem' hx₁'
          rw [List.append_cancel_left_eq] at hsplit
          subst hsplit
          obtain ⟨rfl, rfl⟩ := ih hrest hx₂ hrest' hx₂'
          exact ⟨rfl, rfl⟩

/-- **A token list is the text of one program**, up to the end of the file. -/
theorem Written.unique_of_eof {items items' : List Item} {w w' rest rest' : List Token}
    {eof eof' : Token} (h : Written items w) (heof : eof.type = .tokEof)
    (h' : Written items' w') (heof' : eof'.type = .tokEof)
    (hsplit : w ++ eof :: rest = w' ++ eof' :: rest') : items = items' ∧ w = w' := by
  have hfollow : .tokEof ∈ Check.program.follow := by decide
  exact h.unique ⟨eof, rest, rfl, heof ▸ hfollow⟩ h' ⟨eof', rest', hsplit, heof' ▸ hfollow⟩

end Bispe
