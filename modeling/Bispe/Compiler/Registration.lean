import Bispe.Compiler.Syntax
import Mathlib.Data.List.Nodup
import Mathlib.Tactic.Common
import Mathlib.Tactic.Ring

/-!
# Frames of functions

What the registration of arguments and local variables leaves in the table of a
function: which names it holds, and at which positions.

## Main definitions

* `FuncInfo.pos` — the position a name resolves to.
* `Enters` — a list of new names gets consecutive positions.
* `registerArgs_params`, `registerLocVars_stmt`, `calculateArgAddresses_params` — the
  three passes.
-/

namespace Bispe

/-- The position of a variable. -/
def FuncInfo.pos (func : FuncInfo) (x : String) : Option ℕ := (func.varTable x).map VarInfo.pos

@[simp] theorem FuncInfo.pos_setVar (func : FuncInfo) (x : String) (var : VarInfo) :
    (func.setVar x var).pos = Function.update func.pos x (some var.pos) := by
  funext y
  by_cases h : y = x
  · subst h
    simp [FuncInfo.pos, FuncInfo.setVar]
  · simp [FuncInfo.pos, FuncInfo.setVar, h]

theorem FuncInfo.pos_eq_none {func : FuncInfo} {x : String} :
    func.pos x = none ↔ func.varTable x = none := by
  simp [FuncInfo.pos]

/-- The names are new and get the positions from `base` on. -/
structure Enters (base : ℕ) (names : List String) (p p' : String → Option ℕ) : Prop where
  nodup : names.Nodup
  fresh : ∀ x ∈ names, p x = none
  eq : ∀ x, p' x = if x ∈ names then some (base + names.idxOf x) else p x

namespace Enters

variable {base : ℕ} {names names' : List String} {p p' p'' : String → Option ℕ}

theorem nil (base : ℕ) (p : String → Option ℕ) : Enters base [] p p :=
  ⟨List.nodup_nil, fun _ h => (nomatch h), fun x => by simp⟩

theorem single (base : ℕ) {x : String} (h : p x = none) :
    Enters base [x] p (Function.update p x (some base)) where
  nodup := List.nodup_singleton x
  fresh y hy := by rw [List.mem_singleton.mp hy, h]
  eq y := by
    by_cases hy : y = x
    · subst hy
      simp
    · simp [hy]

theorem append (h : Enters base names p p') (h' : Enters (base + names.length) names' p' p'') :
    Enters base (names ++ names') p p'' where
  nodup := by
    refine List.nodup_append.mpr ⟨h.nodup, h'.nodup, fun x hx y hy hxy => ?_⟩
    subst hxy
    have := h'.fresh x hy
    rw [h.eq, if_pos hx] at this
    cases this
  fresh x hx := by
    rcases List.mem_append.mp hx with hx | hx
    · exact h.fresh x hx
    · by_contra hne
      have := h'.fresh x hx
      rw [h.eq] at this
      split at this
      · cases this
      · exact hne this
  eq x := by
    rw [h'.eq, h.eq, List.idxOf_append]
    by_cases hx : x ∈ names
    · have hx' : x ∉ names' := fun hmem => by
        have := h'.fresh x hmem
        rw [h.eq, if_pos hx] at this
        cases this
      simp [hx, hx']
    · by_cases hx' : x ∈ names'
      · simp only [List.mem_append, hx, hx', or_true, if_true, if_false, Option.some.injEq]
        omega
      · simp [hx, hx']

theorem isSome_mono (h : Enters base names p p') {x : String} (hx : p x ≠ none) : p' x ≠ none := by
  rw [h.eq]
  split
  · exact Option.some_ne_none _
  · exact hx

end Enters

/-! ## Arguments -/

theorem addVar_eq_some {x : String} {type : Dtype} {func func' : FuncInfo}
    (h : addVar x type func = some func') :
    func.pos x = none ∧ func' = func.setVar x ⟨type, 0⟩ := by
  unfold addVar at h
  cases hx : func.varTable x with
  | some var => rw [hx] at h; cases h
  | none =>
      rw [hx] at h
      exact ⟨FuncInfo.pos_eq_none.mpr hx, (Option.some.inj h).symm⟩

theorem registerArgs_argdef_run (type : Dtype) (x : String) (func : FuncInfo) :
    registerArgs func (argdefNode type x) =
      (addVar x (tokTypeToDtype type.tok) func).elim (.error func) fun func =>
        .ok { func.setVar x ⟨tokTypeToDtype type.tok, func.argCount + 1⟩ with
          argCount := func.argCount + 1 } := by
  rw [argdefNode, inner, registerArgs]
  change _ = (addVar (identNode x).str (tokTypeToDtype (typeNode type).left.tokType) func).elim _ _
  cases addVar (identNode x).str (tokTypeToDtype (typeNode type).left.tokType) func <;> rfl

/-- One argument. -/
theorem registerArgs_argdef {type : Dtype} {x : String} {func info : FuncInfo}
    (h : registerArgs func (argdefNode type x) = .ok info) :
    info = { func with argCount := func.argCount + 1, varTable := info.varTable } ∧
      Enters (func.argCount + 1) [x] func.pos info.pos := by
  rw [registerArgs_argdef_run] at h
  cases hadd : addVar x (tokTypeToDtype type.tok) func with
  | none =>
      rw [hadd, Option.elim_none] at h
      cases h
  | some func' =>
      rw [hadd, Option.elim_some] at h
      obtain ⟨hx, rfl⟩ := addVar_eq_some hadd
      obtain rfl := Except.ok.inj h
      refine ⟨rfl, ?_⟩
      have hpos : Enters (func.argCount + 1) [x] func.pos
          ((func.setVar x ⟨tokTypeToDtype type.tok, 0⟩).setVar x
            ⟨tokTypeToDtype type.tok, func.argCount + 1⟩).pos := by
        rw [FuncInfo.pos_setVar, FuncInfo.pos_setVar, Function.update_idem]
        exact .single _ hx
      exact hpos

theorem except_bind_eq_ok {ε α β : Type} {x : Except ε α} {f : α → Except ε β} {b : β}
    (h : (x >>= f) = .ok b) : ∃ a, x = .ok a ∧ f a = .ok b := by
  cases x with
  | error e => cases h
  | ok a => exact ⟨a, rfl, h⟩

/-- **The arguments of a new function** get the positions from 1 on. -/
theorem registerArgs_params {params : Params} {func info : FuncInfo}
    (h : registerArgs func params.node = .ok info) :
    info = { func with
      argCount := func.argCount + params.names.length, varTable := info.varTable } ∧
      Enters (func.argCount + 1) params.names func.pos info.pos := by
  induction params generalizing func with
  | void =>
      obtain rfl := Except.ok.inj h
      exact ⟨rfl, .nil _ _⟩
  | last type x =>
      obtain ⟨func', hx, hrest⟩ := except_bind_eq_ok h
      obtain rfl := Except.ok.inj hrest
      exact registerArgs_argdef hx
  | cons type x params ih =>
      obtain ⟨func', hx, hrest⟩ := except_bind_eq_ok h
      obtain ⟨heq, hx⟩ := registerArgs_argdef hx
      obtain ⟨heq', hrest⟩ := ih hrest
      have hcount : func'.argCount = func.argCount + 1 := by rw [heq]
      rw [hcount] at hrest heq'
      refine ⟨?_, hx.append hrest⟩
      rw [heq', heq]
      simp only [Params.names, List.length_cons, FuncInfo.mk.injEq, true_and, and_true]
      omega

/-! ## Local variables -/

section Locals
variable {name : String} {func info : FuncInfo} {node : Node}

/-- A node that is neither a variable nor stores to one: the children in order. -/
theorem registerLocVars_children {type : AstType} {val : NodeVal} {left middle right : Node}
    (h₁ : type ≠ .astVarDef) (h₂ : type ≠ .astVarAssign) (h₃ : type ≠ .astIdentifier)
    (h : registerLocVars name func (.mk type val left middle right) = .ok (info, node)) :
    ∃ func₁ left' func₂ middle' right',
      registerLocVars name func left = .ok (func₁, left') ∧
      registerLocVars name func₁ middle = .ok (func₂, middle') ∧
      registerLocVars name func₂ right = .ok (info, right') ∧
      node = .mk type val left' middle' right' := by
  have hrun : registerLocVars name func (.mk type val left middle right) =
      (registerLocVars name func left >>= fun l =>
        registerLocVars name l.1 middle >>= fun m =>
          registerLocVars name m.1 right >>= fun r =>
            pure (r.1, .mk type val l.2 m.2 r.2)) := by
    cases type <;> first | rfl | contradiction
  rw [hrun] at h
  obtain ⟨⟨func₁, left'⟩, hleft, h⟩ := except_bind_eq_ok h
  obtain ⟨⟨func₂, middle'⟩, hmiddle, h⟩ := except_bind_eq_ok h
  obtain ⟨⟨func₃, right'⟩, hright, h⟩ := except_bind_eq_ok h
  obtain ⟨rfl, rfl⟩ := Prod.mk.inj (Except.ok.inj h)
  exact ⟨func₁, left', func₂, middle', right', hleft, hmiddle, hright, rfl⟩

/-- Nothing is registered, and the variables that are used are there. -/
def Resolved (func info : FuncInfo) (node node' : Node) (vars : List String) : Prop :=
  info = func ∧ node = node' ∧ ∀ x ∈ vars, func.pos x ≠ none

theorem registerLocVars_null (h : registerLocVars name func .null = .ok (info, node)) :
    info = func ∧ node = .null := by
  obtain ⟨rfl, rfl⟩ := Prod.mk.inj (Except.ok.inj h)
  exact ⟨rfl, rfl⟩

/-- A node with one child. -/
theorem registerLocVars_inner {type : AstType} {val : NodeVal} {left left' : Node}
    {vars : List String} (h₁ : type ≠ .astVarDef) (h₂ : type ≠ .astVarAssign)
    (h₃ : type ≠ .astIdentifier)
    (h : registerLocVars name func (.mk type val left .null .null) = .ok (info, node))
    (hleft : ∀ {info node}, registerLocVars name func left = .ok (info, node) →
      Resolved func info node left' vars) :
    Resolved func info node (.mk type val left' .null .null) vars := by
  obtain ⟨func₁, l, func₂, m, r, hl, hm, hr, rfl⟩ := registerLocVars_children h₁ h₂ h₃ h
  obtain ⟨rfl, rfl⟩ := registerLocVars_null hm
  obtain ⟨rfl, rfl⟩ := registerLocVars_null hr
  obtain ⟨rfl, rfl, hvars⟩ := hleft hl
  exact ⟨rfl, rfl, hvars⟩

theorem registerLocVars_numop (op : NumOp)
    (h : registerLocVars name func (numopNode op) = .ok (info, node)) :
    info = func ∧ node = numopNode op := by
  obtain ⟨rfl, rfl⟩ := Prod.mk.inj (Except.ok.inj h)
  exact ⟨rfl, rfl⟩

theorem registerLocVars_boolop (op : BoolOp)
    (h : registerLocVars name func (boolopNode op) = .ok (info, node)) :
    info = func ∧ node = boolopNode op := by
  obtain ⟨rfl, rfl⟩ := Prod.mk.inj (Except.ok.inj h)
  exact ⟨rfl, rfl⟩

theorem getVar_match {x : String} {β : Type} {y : Except FuncInfo β} {b : β}
    (h : (match getVar x func with
      | none => Except.error func
      | some _ => y) = .ok b) : func.pos x ≠ none ∧ y = .ok b := by
  cases hx : getVar x func with
  | none => rw [hx] at h; cases h
  | some var =>
      rw [hx] at h
      refine ⟨fun hnone => ?_, h⟩
      rw [FuncInfo.pos_eq_none] at hnone
      exact Option.some_ne_none var (hx.symm.trans hnone)

mutual

/-- **The identifiers of an expression** become pointers to variables. -/
theorem registerLocVars_expr : ∀ (e : Expr) {func info : FuncInfo} {node : Node},
    registerLocVars name func (e.node .str) = .ok (info, node) →
      Resolved func info node (e.node (.var name)) e.vars
  | .unary u, _, _, _, h =>
      registerLocVars_inner (by decide) (by decide) (by decide) h (registerLocVars_unary u)
  | .bin u op e, _, _, _, h => by
      obtain ⟨func₁, l, func₂, m, r, hl, hm, hr, rfl⟩ :=
        registerLocVars_children (by decide) (by decide) (by decide) h
      obtain ⟨rfl, rfl, hu⟩ := registerLocVars_unary u hl
      obtain ⟨rfl, rfl⟩ := registerLocVars_numop op hm
      obtain ⟨rfl, rfl, he⟩ := registerLocVars_expr e hr
      refine ⟨rfl, rfl, fun x hx => ?_⟩
      exact (List.mem_append.mp hx).elim (hu x) (he x)

theorem registerLocVars_unary : ∀ (u : Unary) {func info : FuncInfo} {node : Node},
    registerLocVars name func (u.node .str) = .ok (info, node) →
      Resolved func info node (u.node (.var name)) u.vars
  | .call f args, _, _, _, h => by
      refine registerLocVars_inner (by decide) (by decide) (by decide) h fun h => ?_
      exact registerLocVars_inner (by decide) (by decide) (by decide) h (registerLocVars_args args)
  | .var x, func, _, _, h => by
      refine registerLocVars_inner (by decide) (by decide) (by decide) h fun h => ?_
      obtain ⟨hx, h⟩ := getVar_match (y := .ok (func, allocNode .astIdentifier (.var name x))) h
      obtain ⟨rfl, rfl⟩ := Prod.mk.inj (Except.ok.inj h)
      refine ⟨rfl, rfl, fun y hy => ?_⟩
      rw [List.mem_singleton.mp hy]
      exact hx
  | .lit n, _, _, _, h => by
      refine registerLocVars_inner (by decide) (by decide) (by decide) h fun h => ?_
      obtain ⟨rfl, rfl⟩ := Prod.mk.inj (Except.ok.inj h)
      exact ⟨rfl, rfl, fun _ hy => nomatch hy⟩
  | .paren e, _, _, _, h =>
      registerLocVars_inner (by decide) (by decide) (by decide) h (registerLocVars_expr e)

theorem registerLocVars_args : ∀ (args : Args) {func info : FuncInfo} {node : Node},
    registerLocVars name func (args.node .str) = .ok (info, node) →
      Resolved func info node (args.node (.var name)) args.vars
  | .empty, _, _, _, h => by
      obtain ⟨rfl, rfl⟩ := Prod.mk.inj (Except.ok.inj h)
      exact ⟨rfl, rfl, fun _ hy => nomatch hy⟩
  | .last e, _, _, _, h =>
      registerLocVars_inner (by decide) (by decide) (by decide) h (registerLocVars_expr e)
  | .cons e args, _, _, _, h => by
      obtain ⟨func₁, l, func₂, m, r, hl, hm, hr, rfl⟩ :=
        registerLocVars_children (by decide) (by decide) (by decide) h
      obtain ⟨rfl, rfl, he⟩ := registerLocVars_expr e hl
      obtain ⟨rfl, rfl, hargs⟩ := registerLocVars_args args hm
      obtain ⟨rfl, rfl⟩ := registerLocVars_null hr
      refine ⟨rfl, rfl, fun x hx => ?_⟩
      exact (List.mem_append.mp hx).elim (he x) (hargs x)

end

theorem registerLocVars_cond {c : Cond}
    (h : registerLocVars name func (c.node .str) = .ok (info, node)) :
    Resolved func info node (c.node (.var name)) c.vars := by
  obtain ⟨func₁, l, func₂, m, r, hl, hm, hr, rfl⟩ :=
    registerLocVars_children (by decide) (by decide) (by decide) h
  obtain ⟨rfl, rfl, hleft⟩ := registerLocVars_expr c.left hl
  obtain ⟨rfl, rfl⟩ := registerLocVars_boolop c.op hm
  obtain ⟨rfl, rfl, hright⟩ := registerLocVars_expr c.right hr
  refine ⟨rfl, rfl, fun x hx => ?_⟩
  exact (List.mem_append.mp hx).elim (hleft x) (hright x)

theorem registerLocVars_expr? {e : Option Expr}
    (h : registerLocVars name func (exprNode? .str e) = .ok (info, node)) :
    Resolved func info node (exprNode? (.var name) e) (exprVars? e) := by
  cases e with
  | none =>
      obtain ⟨rfl, rfl⟩ := registerLocVars_null h
      exact ⟨rfl, rfl, fun _ hx => nomatch hx⟩
  | some e => exact registerLocVars_expr e h

/-- The definitions of a phrase get the positions after those of the locals before,
and the variables it uses are there in the end. -/
structure Registered (func info : FuncInfo) (defs vars : List String) : Prop where
  eq : info = { func with varCount := func.varCount + defs.length, varTable := info.varTable }
  enters : Enters (func.maxCallSize + func.varCount) defs func.pos info.pos
  vars : ∀ x ∈ vars, info.pos x ≠ none

theorem Resolved.registered {node' : Node} {vars : List String}
    (h : Resolved func info node node' vars) : Registered func info [] vars := by
  obtain ⟨rfl, -, hvars⟩ := h
  exact ⟨rfl, .nil _ _, hvars⟩

theorem Registered.append {func' : FuncInfo} {defs defs' vars vars' : List String}
    (h : Registered func func' defs vars) (h' : Registered func' info defs' vars') :
    Registered func info (defs ++ defs') (vars ++ vars') where
  eq := by
    rw [h'.eq, h.eq]
    simp only [List.length_append, FuncInfo.mk.injEq, true_and, and_true]
    omega
  enters := by
    have hcount : func'.maxCallSize + func'.varCount =
        func.maxCallSize + func.varCount + defs.length := by
      rw [h.eq]
      simp only
      omega
    exact h.enters.append (hcount ▸ h'.enters)
  vars x hx := by
    rcases List.mem_append.mp hx with hx | hx
    · exact h'.enters.isSome_mono (h.vars x hx)
    · exact h'.vars x hx

theorem registerLocVars_varDef (type : Dtype) (x : String) (right : Node) :
    registerLocVars name func (.mk .astVarDef .uninit (typeNode type) (identNode x) right) =
      match addVar x (tokTypeToDtype type.tok) func with
      | none => .error func
      | some func =>
          registerLocVars name
            { func.setVar x ⟨tokTypeToDtype type.tok, func.maxCallSize + func.varCount⟩ with
              varCount := func.varCount + 1 } right >>= fun (func, expr) =>
            .ok (func, .mk .astVarDef (.var name x) expr .null .null) := rfl

theorem registerLocVars_varAssign (x : String) (middle : Node) :
    registerLocVars name func (.mk .astVarAssign .uninit (identNode x) middle .null) =
      match getVar x func with
      | none => .error func
      | some _ => registerLocVars name func middle >>= fun (func, expr) =>
          .ok (func, .mk .astVarAssign (.var name x) expr .null .null) := rfl

theorem registerLocVars_simple {s : Simple}
    (h : registerLocVars name func s.raw = .ok (info, node)) :
    node = s.node name ∧ Registered func info s.defs s.vars := by
  cases s with
  | varDef type x init =>
      rw [Simple.raw, registerLocVars_varDef] at h
      cases hadd : addVar x (tokTypeToDtype type.tok) func with
      | none => rw [hadd] at h; cases h
      | some func' =>
          rw [hadd] at h
          obtain ⟨hx, rfl⟩ := addVar_eq_some hadd
          obtain ⟨⟨func₁, e⟩, he, h⟩ := except_bind_eq_ok h
          obtain ⟨rfl, rfl⟩ := Prod.mk.inj (Except.ok.inj h)
          obtain ⟨rfl, rfl, hvars⟩ := registerLocVars_expr? he
          refine ⟨rfl, rfl, ?_, hvars⟩
          have hpos : Enters (func.maxCallSize + func.varCount) [x] func.pos
              ((func.setVar x ⟨tokTypeToDtype type.tok, 0⟩).setVar x
                ⟨tokTypeToDtype type.tok, func.maxCallSize + func.varCount⟩).pos := by
            rw [FuncInfo.pos_setVar, FuncInfo.pos_setVar, Function.update_idem]
            exact .single _ hx
          exact hpos
  | varAssign x e =>
      rw [Simple.raw, inner, registerLocVars_varAssign] at h
      obtain ⟨hx, h⟩ := getVar_match h
      obtain ⟨⟨func₁, e'⟩, he, h⟩ := except_bind_eq_ok h
      obtain ⟨rfl, rfl⟩ := Prod.mk.inj (Except.ok.inj h)
      obtain ⟨rfl, rfl, hvars⟩ := registerLocVars_expr e he
      refine ⟨rfl, rfl, .nil _ _, fun y hy => ?_⟩
      rcases List.mem_cons.mp hy with rfl | hy
      · exact hx
      · exact hvars y hy

/-- **The locals of a body** get the positions from the outgoing arguments on, in
textual order. -/
theorem registerLocVars_stmt {s : Stmt} {func info : FuncInfo} {node : Node}
    (h : registerLocVars name func s.raw = .ok (info, node)) :
    node = s.node name ∧ Registered func info s.defs s.vars := by
  induction s generalizing func info node with
  | skip =>
      obtain ⟨rfl, rfl⟩ := Prod.mk.inj (Except.ok.inj h)
      exact ⟨rfl, rfl, .nil _ _, fun _ hx => nomatch hx⟩
  | seq s rest ihs ihrest =>
      obtain ⟨func₁, l, func₂, m, r, hl, hm, hr, rfl⟩ :=
        registerLocVars_children (by decide) (by decide) (by decide) h
      obtain ⟨rfl, rfl⟩ := registerLocVars_null hr
      obtain ⟨rfl, hs⟩ := ihs hl
      obtain ⟨rfl, hrest⟩ := ihrest hm
      exact ⟨rfl, hs.append hrest⟩
  | simple s =>
      obtain ⟨func₁, l, func₂, m, r, hl, hm, hr, rfl⟩ :=
        registerLocVars_children (by decide) (by decide) (by decide) h
      obtain ⟨rfl, rfl⟩ := registerLocVars_null hm
      obtain ⟨rfl, rfl⟩ := registerLocVars_null hr
      obtain ⟨rfl, hs⟩ := registerLocVars_simple hl
      exact ⟨rfl, hs⟩
  | call f args =>
      have hres : Resolved func info node (Stmt.node name (.call f args)) args.vars := by
        refine registerLocVars_inner (by decide) (by decide) (by decide) h fun h => ?_
        exact registerLocVars_inner (by decide) (by decide) (by decide) h
          (registerLocVars_args args)
      exact ⟨hres.2.1, hres.registered⟩
  | print e =>
      have hres : Resolved func info node (Stmt.node name (.print e)) e.vars := by
        refine registerLocVars_inner (by decide) (by decide) (by decide) h fun h => ?_
        exact registerLocVars_inner (by decide) (by decide) (by decide) h (registerLocVars_expr e)
      exact ⟨hres.2.1, hres.registered⟩
  | ret e =>
      have hres : Resolved func info node (Stmt.node name (.ret e)) (exprVars? e) := by
        refine registerLocVars_inner (by decide) (by decide) (by decide) h fun h => ?_
        exact registerLocVars_inner (by decide) (by decide) (by decide) h registerLocVars_expr?
      exact ⟨hres.2.1, hres.registered⟩
  | ifThen c s ih =>
      obtain ⟨func₁, l, func₂, m, r, hl, hm, hr, rfl⟩ :=
        registerLocVars_children (by decide) (by decide) (by decide) h
      obtain ⟨rfl, rfl⟩ := registerLocVars_null hr
      have hc := registerLocVars_cond hl
      obtain ⟨rfl, hs⟩ := ih hm
      exact ⟨by rw [hc.2.1]; rfl, hc.registered.append hs⟩
  | ifElse c s₁ s₂ ih₁ ih₂ =>
      obtain ⟨func₁, l, func₂, m, r, hl, hm, hr, rfl⟩ :=
        registerLocVars_children (by decide) (by decide) (by decide) h
      have hc := registerLocVars_cond hl
      obtain ⟨rfl, hs₁⟩ := ih₁ hm
      obtain ⟨rfl, hs₂⟩ := ih₂ hr
      exact ⟨by rw [hc.2.1]; rfl, hc.registered.append (hs₁.append hs₂)⟩
  | whileLoop c body ih =>
      obtain ⟨func₁, l, func₂, m, r, hl, hm, hr, rfl⟩ :=
        registerLocVars_children (by decide) (by decide) (by decide) h
      obtain ⟨rfl, rfl⟩ := registerLocVars_null hr
      have hc := registerLocVars_cond hl
      obtain ⟨rfl, hbody⟩ := ih hm
      exact ⟨by rw [hc.2.1]; rfl, hc.registered.append hbody⟩
  | forLoop init c x e body ih =>
      obtain ⟨func₁, l, func₂, m, r, hl, hm, hr, rfl⟩ :=
        registerLocVars_children (by decide) (by decide) (by decide) h
      obtain ⟨rfl, rfl⟩ := registerLocVars_null hr
      obtain ⟨func₃, l', func₄, m', r', hinit, hcond, hupdate, rfl⟩ :=
        registerLocVars_children (by decide) (by decide) (by decide) hl
      obtain ⟨rfl, hregInit⟩ := registerLocVars_simple hinit
      have hc := registerLocVars_cond hcond
      obtain ⟨rfl, hregUpdate⟩ := registerLocVars_simple hupdate
      obtain ⟨rfl, hbody⟩ := ih hm
      have hhead := hc.registered.append (hregUpdate.append hbody)
      simp only [Simple.defs, List.nil_append, Simple.vars, ← List.append_assoc] at hhead
      exact ⟨by rw [hc.2.1]; rfl, hregInit.append hhead⟩
  | doLoop body c ih =>
      obtain ⟨func₁, l, func₂, m, r, hl, hm, hr, rfl⟩ :=
        registerLocVars_children (by decide) (by decide) (by decide) h
      obtain ⟨rfl, rfl⟩ := registerLocVars_null hr
      obtain ⟨rfl, hbody⟩ := ih hl
      have hc := registerLocVars_cond hm
      have hall := hbody.append hc.registered
      rw [List.append_nil] at hall
      exact ⟨by rw [hc.2.1]; rfl, hall⟩

end Locals

/-! ## Absolute positions of the arguments -/

theorem calculateArgAddresses_argdef (info : FuncInfo) (type : Dtype) (x : String) :
    calculateArgAddresses info (argdefNode type x) =
      match getVar x info with
      | none => .error .nullDeref
      | some var => .ok <| info.setVar x
          { var with pos := var.pos + info.varCount + info.maxCallSize } := rfl

/-- The position is moved behind the frame. -/
theorem calculateArgAddresses_single {info : FuncInfo} (type : Dtype) {x : String}
    (h : info.pos x ≠ none) :
    ∃ info', calculateArgAddresses info (argdefNode type x) = .ok info' ∧
      info' = { info with varTable := info'.varTable } ∧
      ∀ y, info'.pos y =
        (info.pos y).map (· + [x].count y * (info.varCount + info.maxCallSize)) := by
  cases hvar : info.varTable x with
  | none => exact (h (FuncInfo.pos_eq_none.mpr hvar)).elim
  | some var =>
      refine ⟨info.setVar x { var with pos := var.pos + info.varCount + info.maxCallSize }, ?_,
        rfl, fun y => ?_⟩
      · rw [calculateArgAddresses_argdef, getVar, hvar]
      · rw [FuncInfo.pos_setVar]
        by_cases hy : y = x
        · subst hy
          simp [FuncInfo.pos, hvar, Nat.add_assoc]
        · have hcount : [x].count y = 0 := List.count_eq_zero.mpr (by simpa using hy)
          simp [hy, hcount]

/-- **The addresses of the arguments.**  Every name of the list that resolves is moved
behind the frame, as often as it is in the list. -/
theorem calculateArgAddresses_params {params : Params} {info : FuncInfo}
    (h : ∀ x ∈ params.names, info.pos x ≠ none) :
    ∃ info', calculateArgAddresses info params.node = .ok info' ∧
      info' = { info with varTable := info'.varTable } ∧
      ∀ y, info'.pos y =
        (info.pos y).map (· + params.names.count y * (info.varCount + info.maxCallSize)) := by
  induction params generalizing info with
  | void => exact ⟨info, rfl, rfl, fun y => by simp [Params.names]⟩
  | last type x =>
      obtain ⟨info', hrun, heq, hpos⟩ := calculateArgAddresses_single type
        (h x (List.mem_singleton_self x))
      refine ⟨info', ?_, heq, hpos⟩
      change (calculateArgAddresses info (argdefNode type x) >>= fun func =>
        calculateArgAddresses func .null) = _
      rw [hrun]
      rfl
  | cons type x params ih =>
      obtain ⟨info₁, hrun, heq, hpos⟩ := calculateArgAddresses_single type
        (h x List.mem_cons_self)
      have hrest : ∀ y ∈ params.names, info₁.pos y ≠ none := fun y hy hnone => by
        rw [hpos, Option.map_eq_none_iff] at hnone
        exact h y (List.mem_cons_of_mem _ hy) hnone
      obtain ⟨info', hrun', heq', hpos'⟩ := ih hrest
      refine ⟨info', ?_, by rw [heq', heq], fun y => ?_⟩
      · change (calculateArgAddresses info (argdefNode type x) >>= fun func =>
          calculateArgAddresses func params.node) = _
        rw [hrun]
        exact hrun'
      · have hframe : info₁.varCount + info₁.maxCallSize = info.varCount + info.maxCallSize := by
          rw [heq]
        rw [hpos', hpos, hframe, Option.map_map]
        congr 1
        funext n
        simp only [Function.comp_apply, Params.names, List.count_cons, List.count_nil]
        ring

/-- A name of the list that does not resolve is followed all the same. -/
theorem calculateArgAddresses_null {params : Params} {info : FuncInfo} {x : String}
    (hx : x ∈ params.names) (h : info.pos x = none) :
    calculateArgAddresses info params.node = .error .nullDeref := by
  have hnull (info : FuncInfo) (type : Dtype) (y : String) (hy : info.pos y = none) :
      calculateArgAddresses info (argdefNode type y) = .error .nullDeref := by
    rw [calculateArgAddresses_argdef, getVar, FuncInfo.pos_eq_none.mp hy]
  induction params generalizing info with
  | void => exact nomatch hx
  | last type y =>
      rw [List.mem_singleton.mp hx] at h
      change (calculateArgAddresses info (argdefNode type y) >>= fun func =>
        calculateArgAddresses func .null) = _
      rw [hnull info type y h]
      rfl
  | cons type y params ih =>
      change (calculateArgAddresses info (argdefNode type y) >>= fun func =>
        calculateArgAddresses func params.node) = _
      by_cases hy : info.pos y = none
      · rw [hnull info type y hy]
        rfl
      · obtain ⟨info₁, hrun, -, hpos⟩ := calculateArgAddresses_single type hy
        rw [hrun]
        rcases List.mem_cons.mp hx with rfl | hx
        · exact (hy h).elim
        · exact ih hx (by rw [hpos, h]; rfl)

/-! ## Frames -/

/-- The layout of a frame: outgoing arguments, locals, the return address, and the
arguments the caller has put behind it. -/
def framePos (names defs : List String) (M : ℕ) (x : String) : Option ℕ :=
  if x ∈ defs then some (M + defs.idxOf x)
  else if x ∈ names then some (defs.length + M + 1 + names.idxOf x)
  else none

/-- The entry of a function with this frame. -/
structure FuncInfo.Laid (info : FuncInfo) (names defs : List String) (M : ℕ) : Prop where
  argCount : info.argCount = names.length
  varCount : info.varCount = defs.length
  maxCallSize : info.maxCallSize = M
  nodup : (names ++ defs).Nodup
  pos : ∀ x, info.pos x = framePos names defs M x

/-- The entry a prototype leaves. -/
structure FuncInfo.Declared (info : FuncInfo) (names : List String) : Prop where
  argCount : info.argCount = names.length
  varCount : info.varCount = 0
  nodup : names.Nodup
  pos : ∀ x, info.pos x = if x ∈ names then some (1 + names.idxOf x) else none

theorem registerArgs_declared {params : Params} {func info : FuncInfo} (hcount : func.argCount = 0)
    (hvar : func.varCount = 0) (htable : ∀ x, func.pos x = none)
    (h : registerArgs func params.node = .ok info) :
    info = { func with argCount := info.argCount, varTable := info.varTable } ∧
      info.Declared params.names := by
  obtain ⟨heq, henters⟩ := registerArgs_params h
  have hargs : info.argCount = params.names.length := by
    rw [heq]
    simp [hcount]
  refine ⟨by rw [hargs]; simpa [hcount] using heq, hargs, by rw [heq]; exact hvar,
    henters.nodup, fun x => ?_⟩
  rw [henters.eq, htable, hcount]

/-- **The frame of a function** whose parameters are those that were declared. -/
theorem laid_of_registered {params : Params} {func info info' : FuncInfo} {defs vars : List String}
    (hfunc : func.Declared params.names) (hreg : Registered func info defs vars)
    (h : calculateArgAddresses info params.node = .ok info') :
    info' = { func with varCount := info'.varCount, varTable := info'.varTable } ∧
      info'.Laid params.names defs func.maxCallSize := by
  have hvars : info.varCount = defs.length := by
    rw [hreg.eq]
    simp [hfunc.varCount]
  have hmax : info.maxCallSize = func.maxCallSize := by rw [hreg.eq]
  have hdisj : ∀ x ∈ params.names, x ∉ defs := fun x hx hdef => by
    have := hreg.enters.fresh x hdef
    rw [hfunc.pos, if_pos hx] at this
    cases this
  have hresolve : ∀ x ∈ params.names, info.pos x ≠ none := fun x hx => by
    refine hreg.enters.isSome_mono ?_
    rw [hfunc.pos, if_pos hx]
    exact Option.some_ne_none _
  obtain ⟨info₁, hrun, heq, hpos⟩ := calculateArgAddresses_params hresolve
  obtain rfl := Except.ok.inj (hrun.symm.trans h)
  refine ⟨by rw [heq, hreg.eq], ?_⟩
  have hnodup : (params.names ++ defs).Nodup :=
    List.nodup_append.mpr ⟨hfunc.nodup, hreg.enters.nodup,
      fun x hx y hy hxy => hdisj x hx (hxy ▸ hy)⟩
  refine ⟨?_, ?_, ?_, hnodup, fun x => ?_⟩
  · rw [heq, hreg.eq]
    exact hfunc.argCount
  · rw [heq]
    exact hvars
  · rw [heq]
    exact hmax
  · rw [hpos, hreg.enters.eq, hfunc.pos, hfunc.varCount, framePos, hvars, hmax]
    by_cases hdef : x ∈ defs
    · have hcount : params.names.count x = 0 := List.count_eq_zero.mpr fun hx => hdisj x hx hdef
      simp [hdef, hcount]
    · by_cases hx : x ∈ params.names
      · have hcount : params.names.count x = 1 := List.count_eq_one_of_mem hfunc.nodup hx
        simp only [hdef, hx, hcount, if_true, if_false, Option.map_some, Option.some.injEq]
        omega
      · simp [hdef, hx]

end Bispe
