import Bispe.Compiler.Parsing
import Bispe.Compiler.Registration

/-!
# Accepted programs

What a program is that `parse_tokenlist` accepts: its functions and prototypes, each
registered in the tables that those before it have left.

## Main definitions

* `Item.Registers` — what the actions of `check_func` do to the function table.
* `Registers` — the same for a list of items.
* `parseTokenlist_spec` — the tree and the tables of an accepted program.
-/

namespace Bispe

open Effect

/-! ## Registration -/

/-- A prototype enters a new function. -/
def Proto.Registers (p : Proto) (t t' : FuncTable) : Prop :=
  t p.name = none ∧ ∃ func : FuncInfo,
    registerArgs { FuncInfo.fresh p.ret with prototyped := true } p.params.node = .ok func ∧
    t' = Function.update t p.name (some func)

/-- The parser has recorded the argument count of a call to a declared function. -/
def MaxCallOk (t : FuncTable) (M : ℕ) : Prop :=
  M = 0 ∨ ∃ g info, t g = some info ∧ M = info.argCount

/-- A definition enters a new function or completes a prototype. -/
def Func.Registers (f : Func) (t t' : FuncTable) : Prop :=
  CallsOk t f.maxCall f.body.calls ∧ MaxCallOk t f.maxCall ∧ ∃ func₀ func₁ func₂,
    openFunction f.ret f.params.node (t f.name) = some (.ok func₀) ∧
    registerLocVars f.name { func₀ with maxCallSize := f.maxCall } f.body.raw =
      .ok (func₁, f.body.node f.name) ∧
    calculateArgAddresses func₁ f.params.node = .ok func₂ ∧
    checkReturnValidity func₂.retType (f.body.node f.name) = true ∧
    t' = Function.update t f.name (some func₂)

def Item.Registers : Item → FuncTable → FuncTable → Prop
  | .proto p => p.Registers
  | .func f => f.Registers

/-- The tokens the declarations of an item take at least. -/
def Item.size : Item → ℕ
  | .proto p => 2 * p.params.names.length
  | .func f => 2 * f.params.names.length + 2 * f.body.defs.length

theorem decls_params (params : Params) : params.node.decls = 2 * params.names.length := by
  induction params with
  | void => rfl
  | last type x => rfl
  | cons type x params ih =>
      simp only [Params.node, Params.names, inner, argdefNode, typeNode, identNode, allocNode,
        Node.decls, ih, List.length_cons]
      simp
      omega

theorem decls_simple (s : Simple) : 2 * s.defs.length ≤ s.raw.decls := by
  cases s with
  | varDef type x init => simp [Simple.raw, Simple.defs, Node.decls, Nat.add_assoc]
  | varAssign x e => simp [Simple.defs]

theorem decls_stmt (s : Stmt) : 2 * s.defs.length ≤ s.raw.decls := by
  induction s with
  | skip => simp [Stmt.defs]
  | seq s rest ihs ihrest =>
      simp only [Stmt.raw, Stmt.nodeWith, inner, Node.decls, Stmt.defs,
        List.length_append] at ihs ihrest ⊢
      omega
  | simple s =>
      have := decls_simple s
      simp only [Stmt.raw, Stmt.nodeWith, inner, Node.decls, Stmt.defs]
      omega
  | call f args => simp [Stmt.defs]
  | print e => simp [Stmt.defs]
  | ret e => simp [Stmt.defs]
  | ifThen c s ih =>
      simp only [Stmt.raw, Stmt.nodeWith, inner, Node.decls, Stmt.defs] at ih ⊢
      omega
  | ifElse c s₁ s₂ ih₁ ih₂ =>
      simp only [Stmt.raw, Stmt.nodeWith, Node.decls, Stmt.defs, List.length_append] at ih₁ ih₂ ⊢
      omega
  | whileLoop c body ih =>
      simp only [Stmt.raw, Stmt.nodeWith, inner, Node.decls, Stmt.defs] at ih ⊢
      omega
  | forLoop init c x e body ih =>
      have := decls_simple init
      simp only [Stmt.raw, Stmt.nodeWith, inner, Node.decls, Stmt.defs, List.length_append] at ih ⊢
      omega
  | doLoop body c ih =>
      simp only [Stmt.raw, Stmt.nodeWith, inner, Node.decls, Stmt.defs] at ih ⊢
      omega

/-! ### The actions -/

section Actions
variable {s : PState} {name : String}

theorem addFunc_new (retType : Dtype) (h : s.funcTable name = none) :
    addFunc name retType s = .ok true
      { s with funcTable := Function.update s.funcTable name (some (.fresh retType)) } := by
  have hget : getFunc name s = .ok none s := by rw [getFunc, h]
  exact bind_ok hget

theorem addFunc_duplicate (retType : Dtype) {func : FuncInfo} (h : s.funcTable name = some func) :
    addFunc name retType s = .ok false s := by
  have hget : getFunc name s = .ok (some func) s := by rw [getFunc, h]
  exact bind_ok hget

theorem derefFunc_run {func : FuncInfo} (h : s.funcTable name = some func) :
    derefFunc name s = .ok func s := by
  have hget : getFunc name s = .ok (some func) s := by rw [getFunc, h]
  exact bind_ok hget

/-- `commit` goes on, or the action has failed. -/
theorem commit_eq_ok {α : Type} {r : Except FuncInfo α} {next : α → P Node} {node : Node}
    {s' : PState} (h : commit name r next s = .ok node s') :
    (s'.token = s.token ∧ node = .null) ∨ ∃ a, r = .ok a ∧ next a s = .ok node s' := by
  cases r with
  | error func =>
      obtain ⟨_, s₁, hset, h⟩ := bind_eq_ok h
      cases hset
      cases h
      exact .inl ⟨rfl, rfl⟩
  | ok a => exact .inr ⟨a, rfl, h⟩

theorem registerFunctionPrototype_eq (p : Proto) :
    registerFunctionPrototype p.children = (do
      if ← addFunc p.name p.ret then
        let func ← derefFunc p.name
        commit p.name (registerArgs { func with prototyped := true } p.params.node) fun func => do
          setFunc p.name func
          pure (allocNode .astInner .uninit)
      else
        pure .null) := by
  have hret : tokTypeToDtype (child p.children 0).left.tokType = p.ret := tokTypeToDtype_tok p.ret
  unfold registerFunctionPrototype
  rw [hret]
  rfl

/-- A prototype that is accepted is entered. -/
theorem registerFunctionPrototype_spec (p : Proto) (s : PState) :
    Ends (fun node s' => s'.token = s.token ∧
        (node ≠ .null → node = (Item.proto p).node ∧ p.Registers s.funcTable s'.funcTable))
      (fun _ _ => True) (registerFunctionPrototype p.children s) := by
  refine Ends.of_ok fun node s' h => ?_
  rw [registerFunctionPrototype_eq] at h
  obtain ⟨r, s₁, hadd, h⟩ := bind_eq_ok h
  cases hname : s.funcTable p.name with
  | some func =>
      rw [addFunc_duplicate p.ret hname] at hadd
      cases hadd
      cases h
      exact ⟨rfl, fun h => (h rfl).elim⟩
  | none =>
      rw [addFunc_new p.ret hname] at hadd
      cases hadd
      obtain ⟨func, s₂, hderef, h⟩ := bind_eq_ok h
      rw [derefFunc_run (Function.update_self ..)] at hderef
      cases hderef
      rcases commit_eq_ok h with ⟨htoken, rfl⟩ | ⟨func, hargs, h⟩
      · exact ⟨htoken, fun h => (h rfl).elim⟩
      · obtain ⟨_, s₃, hset, h⟩ := bind_eq_ok h
        cases hset
        cases h
        exact ⟨rfl, fun _ => ⟨rfl, hname, func, hargs, Function.update_idem ..⟩⟩

theorem registerFunction_eq (f : Func) :
    registerFunction f.children = (do
      match openFunction f.ret f.params.node (← getFunc f.name) with
      | none => pure .null
      | some func =>
          commit f.name func fun func => do
            let s ← get
            registerBody f.name s.maxArgCount func f.params.node f.body.raw) := by
  have hret : tokTypeToDtype (child f.children 0).left.tokType = f.ret := tokTypeToDtype_tok f.ret
  unfold registerFunction
  rw [hret]
  rfl

/-- A definition that is accepted is entered. -/
theorem registerFunction_spec (f : Func) {s : PState} (hM : s.maxArgCount = f.maxCall)
    (hcalls : CallsOk s.funcTable f.maxCall f.body.calls) (hmax : MaxCallOk s.funcTable f.maxCall) :
    Ends (fun node s' => s'.token = s.token ∧
        (node ≠ .null → node = (Item.func f).node ∧ f.Registers s.funcTable s'.funcTable))
      (fun _ _ => True) (registerFunction f.children s) := by
  refine Ends.of_ok fun node s' h => ?_
  rw [registerFunction_eq] at h
  obtain ⟨r, s₁, hget, h⟩ := bind_eq_ok h
  cases hget
  cases hopen : openFunction f.ret f.params.node (s.funcTable f.name) with
  | none =>
      simp only [hopen] at h
      cases h
      exact ⟨rfl, fun h => (h rfl).elim⟩
  | some r =>
      simp only [hopen] at h
      rcases commit_eq_ok h with ⟨htoken, rfl⟩ | ⟨func₀, rfl, h⟩
      · exact ⟨htoken, fun h => (h rfl).elim⟩
      · change registerBody f.name s.maxArgCount func₀ f.params.node f.body.raw s = _ at h
        rw [hM] at h
        rcases commit_eq_ok h with ⟨htoken, rfl⟩ | ⟨⟨func₁, body⟩, hloc, h⟩
        · exact ⟨htoken, fun h => (h rfl).elim⟩
        · obtain ⟨rfl, -⟩ := registerLocVars_stmt hloc
          cases hcalc : calculateArgAddresses func₁ f.params.node with
          | error e => simp only [hcalc] at h; cases h
          | ok func₂ =>
              simp only [hcalc] at h
              obtain ⟨_, s₂, hset, h⟩ := bind_eq_ok h
              cases hset
              by_cases hvalid : checkReturnValidity func₂.retType (f.body.node f.name) = true
              · rw [if_pos hvalid] at h
                cases h
                exact ⟨rfl, fun _ => ⟨rfl, hcalls, hmax, func₀, func₁, func₂, hopen, hloc,
                  hcalc, hvalid, rfl⟩⟩
              · rw [if_neg hvalid] at h
                cases h
                exact ⟨rfl, fun h => (h rfl).elim⟩

end Actions

/-! ## Signatures

`check_func` matches a signature twice when the first production fails, the second
time with other tables.  It is the same match: the symbols of a signature do not
depend on the tables. -/

/-- Other tables. -/
def reTable (t : FuncTable) (m : ℕ) (s : PState) : PState :=
  { s with funcTable := t, maxArgCount := m }

/-- The nonterminals of signatures. -/
def Check.blind : Check → Bool
  | .type => true
  | .argdef => true
  | .argdeflist => true
  | _ => false

def Sym.blind : Sym → Bool
  | .terminal .. => true
  | .nonterminal c => c.blind

section Blind
variable {t : FuncTable} {m : ℕ}

theorem literalNumber_commutes (token : Token) :
    Commutes (reTable t m) (literalNumber token) := by
  unfold literalNumber
  split
  · exact .throw _
  · exact .ite (.throw _) (.pure _)

theorem Creator.create_commutes (creator : Creator) (token : Token) :
    Commutes (reTable t m) (creator.create token) := by
  cases creator with
  | identifier => exact .pure _
  | intliteral => exact (literalNumber_commutes token).bind fun _ => .pure _
  | negIntliteral => exact (literalNumber_commutes token).bind fun _ => .pure _
  | numop => exact .pure _
  | boolop => exact .pure _
  | type => exact .pure _

theorem createChild_commutes (create : Option Creator) (token : Token) (children : List Node) :
    Commutes (reTable t m) (createChild create token children) := by
  cases create with
  | none => exact .pure _
  | some creator => exact (creator.create_commutes token).bind fun _ => .pure _

theorem getToken_commutes : Commutes (reTable t m) getToken := fun _ => rfl

theorem setToken_commutes (token : List Token) : Commutes (reTable t m) (setToken token) :=
  fun _ => rfl

variable {rec : Check → P Node}

theorem matchSyms_commutes (hrec : ∀ c : Check, c.blind = true → Commutes (reTable t m) (rec c))
    (prod : List Sym) (hprod : ∀ sym ∈ prod, sym.blind = true) (children : List Node) :
    Commutes (reTable t m) (matchSyms rec prod children) := by
  induction prod generalizing children with
  | nil => exact .pure _
  | cons sym prod ih =>
      have ih := ih fun x hx => hprod x (List.mem_cons_of_mem _ hx)
      cases sym with
      | terminal type create =>
          refine getToken_commutes.bind fun tokens => ?_
          cases tokens with
          | nil => exact .pure _
          | cons token next =>
              refine .ite ?_ ((setToken_commutes next).bind fun _ => .pure _)
              refine (createChild_commutes create token children).bind fun cs => ?_
              exact (setToken_commutes next).bind fun _ => ih cs
      | nonterminal c =>
          refine getToken_commutes.bind fun tokens => ?_
          cases tokens with
          | nil => exact .pure _
          | cons token next =>
              refine (hrec c (hprod _ List.mem_cons_self)).bind fun node => ?_
              exact .ite (.pure _) (ih _)

theorem tryMatching_commutes (hrec : ∀ c : Check, c.blind = true → Commutes (reTable t m) (rec c))
    (tokenSaved : List Token) (prods : List (List Sym × AstType))
    (hprods : ∀ p ∈ prods, (∀ sym ∈ p.1, sym.blind = true) ∧ p.2 ≠ .astFunction ∧
      p.2 ≠ .astFunctionProto ∧ p.2 ≠ .astFcall ∧ p.2 ≠ .astRetFcall) :
    Commutes (reTable t m) (tryMatching rec tokenSaved false prods) := by
  induction prods with
  | nil => exact .pure _
  | cons p prods ih =>
      obtain ⟨hsyms, h₁, h₂, h₃, h₄⟩ := hprods p List.mem_cons_self
      have ih := ih fun q hq => hprods q (List.mem_cons_of_mem _ hq)
      refine Commutes.bind ?_ fun node => ?_
      · refine (matchSyms_commutes hrec p.1 hsyms []).bind fun r => ?_
        cases r with
        | none => exact .pure _
        | some cs =>
            simp only [createNode_plain h₁ h₂ h₃ h₄]
            exact .pure _
      · exact .ite ((setToken_commutes tokenSaved).bind fun _ => ih) (.pure _)

theorem check_commutes (fuel : ℕ) {c : Check} (hc : c.blind = true) :
    Commutes (reTable t m) (check fuel c) := by
  induction fuel generalizing c with
  | zero => exact .throw _
  | succ fuel ih =>
      have hrec := fun (c : Check) (h : c.blind = true) => ih (c := c) h
      cases c with
      | type =>
          refine getToken_commutes.bind fun tokens => ?_
          exact tryMatching_commutes hrec tokens checkType.prods (by decide)
      | argdef =>
          refine getToken_commutes.bind fun tokens => ?_
          exact tryMatching_commutes hrec tokens checkArgdef.prods (by decide)
      | argdeflist =>
          refine getToken_commutes.bind fun tokens => ?_
          exact tryMatching_commutes hrec tokens checkArgdeflist.prods (by decide)
      | _ => exact Bool.noConfusion hc

end Blind

/-! ## Items -/

section Items
variable {rec : Check → P Node}

theorem matchSyms_append (prod prod' : List Sym) (children : List Node) (s : PState) :
    matchSyms rec (prod ++ prod') children s =
      (matchSyms rec prod children >>= fun r =>
        match r with
        | none => pure none
        | some cs => matchSyms rec prod' cs) s := by
  induction prod generalizing children s with
  | nil => rfl
  | cons sym prod ih =>
      cases htok : s.token with
      | nil =>
          rw [bind_ok (matchSyms_nil rec htok), List.cons_append, matchSyms_nil rec htok]
          rfl
      | cons token next =>
          rw [List.cons_append, run_bind]
          cases sym with
          | terminal type create =>
              by_cases htype : token.type = type
              · rw [matchSyms_terminal htok htype, matchSyms_terminal htok htype, run_bind,
                  run_bind]
                cases createChild create token children s with
                | error e s' => rfl
                | ok cs s' => exact ih cs _
              · rw [matchSyms_mismatch htok htype, matchSyms_mismatch htok htype]
                rfl
          | nonterminal c =>
              rw [matchSyms_nonterminal htok, matchSyms_nonterminal htok, run_bind, run_bind]
              cases rec c s with
              | error e s' => rfl
              | ok node s' =>
                  by_cases hnull : node = .null
                  · simp only [if_pos hnull]
                    rfl
                  · simp only [if_neg hnull]
                    exact ih _ _

/-- A production that matches starts with its first token. -/
theorem matchSyms_head {type : TokenType} {create : Option Creator} {prod : List Sym}
    {children cs : List Node} {s s' : PState}
    (h : matchSyms rec (.terminal type create :: prod) children s = .ok (some cs) s') :
    ∃ token next, s.token = token :: next ∧ token.type = type := by
  cases htok : s.token with
  | nil => rw [matchSyms_nil rec htok] at h; cases h
  | cons token next =>
      by_cases htype : token.type = type
      · exact ⟨token, next, rfl, htype⟩
      · rw [matchSyms_mismatch htok htype] at h
        cases h

/-- What follows the signature of a definition. -/
def bodySyms : List Sym := [tok .tokOpenbr, .nonterminal .sequence, tok .tokClosebr]

/-- A definition that is matched but not accepted is not matched as a prototype. -/
theorem matchProd_exclusive
    (hblind : ∀ t m (c : Check), c.blind = true → Commutes (reTable t m) (rec c))
    {cs : List Node} {s₀ s₁ : PState}
    (h : matchSyms rec (signature ++ bodySyms) [] s₀ = .ok (some cs) s₁) (t : FuncTable) (m : ℕ)
    {node : Node} {s' : PState}
    (h' : matchProd rec .astFunctionProto (signature ++ [tok .tokSemicl]) (reTable t m s₀) =
      .ok node s') : node = .null := by
  rw [matchSyms_append] at h
  obtain ⟨r, s₂, hsig, hbody⟩ := bind_eq_ok h
  cases r with
  | none => cases hbody
  | some cs' =>
      obtain ⟨token, next, htok, htype⟩ := matchSyms_head hbody
      have hsig' := matchSyms_commutes (hblind t m) signature (by decide) [] s₀
      rw [hsig] at hsig'
      obtain ⟨r, s₃, hmatch, hnode⟩ := bind_eq_ok h'
      rw [matchSyms_append, bind_ok hsig'] at hmatch
      have htok' : (reTable t m s₂).token = token :: next := htok
      have hmis : matchSyms rec [tok .tokSemicl] cs' (reTable t m s₂) = _ :=
        matchSyms_mismatch htok' (by rw [htype]; decide)
      cases hmis.symm.trans hmatch
      cases hnode
      rfl

/-- **A definition.** -/
theorem matchProd_func
    (hrec : ∀ c, (Sym.nonterminal c).plain = true → ∀ s,
      Ends (Parsed c s) (fun _ _ => True) (rec c s))
    {s₀ s' : PState} {node : Node} (hmax : s₀.maxArgCount = 0)
    (h : matchProd rec .astFunction (signature ++ bodySyms) s₀ = .ok node s') (hne : node ≠ .null) :
    ∃ f : Func, node = (Item.func f).node ∧ f.Registers s₀.funcTable s'.funcTable ∧
      (Item.func f).size + s'.token.length < s₀.token.length ∧
      ∃ s₁, matchSyms rec (signature ++ bodySyms) [] s₀ = .ok (some f.children) s₁ ∧
        s₁.maxArgCount = f.maxCall := by
  obtain ⟨r, s₁, hmatch, hnode⟩ := bind_eq_ok h
  obtain ⟨hframe, hchildren⟩ := (matchSyms_spec hrec _ (by decide) [] s₀).ok hmatch
  cases r with
  | none => cases hnode; exact (hne rfl).elim
  | some cs =>
      obtain ⟨new, hnew, hshape, hle⟩ := hchildren cs rfl
      rw [List.nil_append] at hnew
      subst hnew
      cases hshape with
      | cons htype hshape =>
        obtain ⟨_, _, _, ⟨token, -, rfl⟩, ⟨params, rfl⟩, ⟨body, hcalls, rfl⟩, rfl⟩ :=
          children_three hshape
        obtain ⟨d, rfl⟩ := htype
        have hmax' : MaxCallOk s₁.funcTable s₁.maxArgCount := by
          rcases hframe.max_eq with heq | ⟨g, info, hg, heq⟩
          · exact .inl (heq.trans hmax)
          · exact .inr ⟨g, info, hframe.table ▸ hg, heq⟩
        rw [← hframe.table] at hcalls
        obtain ⟨htoken, haccepted⟩ := (registerFunction_spec
          ⟨d, token.val, params, body, s₁.maxArgCount⟩ rfl hcalls hmax').ok hnode
        obtain ⟨rfl, hreg⟩ := haccepted hne
        refine ⟨_, rfl, hframe.table ▸ hreg, ?_, s₁, hmatch, rfl⟩
        have hbody := decls_stmt body
        have hleast : leastSum (signature ++ bodySyms) = 6 := by decide
        rw [hleast] at hle
        simp only [declsSum, List.map_cons, List.map_nil, List.sum_cons, List.sum_nil,
          decls_params] at hle
        rw [htoken]
        simp only [Item.size]
        omega

/-- **A prototype.** -/
theorem matchProd_proto
    (hrec : ∀ c, (Sym.nonterminal c).plain = true → ∀ s,
      Ends (Parsed c s) (fun _ _ => True) (rec c s))
    {s₀ s' : PState} {node : Node}
    (h : matchProd rec .astFunctionProto (signature ++ [tok .tokSemicl]) s₀ = .ok node s')
    (hne : node ≠ .null) :
    ∃ p : Proto, node = (Item.proto p).node ∧ p.Registers s₀.funcTable s'.funcTable ∧
      (Item.proto p).size + s'.token.length < s₀.token.length := by
  obtain ⟨r, s₁, hmatch, hnode⟩ := bind_eq_ok h
  obtain ⟨hframe, hchildren⟩ := (matchSyms_spec hrec _ (by decide) [] s₀).ok hmatch
  cases r with
  | none => cases hnode; exact (hne rfl).elim
  | some cs =>
      obtain ⟨new, hnew, hshape, hle⟩ := hchildren cs rfl
      rw [List.nil_append] at hnew
      subst hnew
      obtain ⟨_, _, _, ⟨d, rfl⟩, ⟨token, -, rfl⟩, ⟨params, rfl⟩, rfl⟩ := children_three hshape
      obtain ⟨htoken, haccepted⟩ :=
        (registerFunctionPrototype_spec ⟨d, token.val, params⟩ s₁).ok hnode
      obtain ⟨rfl, hreg⟩ := haccepted hne
      refine ⟨_, rfl, hframe.table ▸ hreg, ?_⟩
      have hleast : leastSum (signature ++ [tok .tokSemicl]) = 5 := by decide
      rw [hleast] at hle
      simp only [declsSum, List.map_cons, List.map_nil, List.sum_cons, List.sum_nil,
        decls_params] at hle
      rw [htoken]
      simp only [Item.size]
      omega

theorem checkFunc_step (fuel : ℕ) (s : PState) :
    check (fuel + 1) .func s =
      tryMatching (check fuel) s.token false checkFunc.prods { s with maxArgCount := 0 } := rfl

/-- **The items of a program.** -/
theorem checkFunc_spec (fuel : ℕ) (s : PState) :
    Ends (fun node s' => node ≠ .null → ∃ item : Item, node = item.node ∧
        item.Registers s.funcTable s'.funcTable ∧ item.size + s'.token.length < s.token.length)
      (fun _ _ => True) (check fuel .func s) := by
  cases fuel with
  | zero => trivial
  | succ fuel =>
      refine Ends.of_ok fun node s' h hne => ?_
      rw [checkFunc_step] at h
      obtain ⟨node₁, s₁, hfunc, h⟩ := bind_eq_ok h
      have hrec := fun c hc s => check_spec fuel (c := c) hc s
      by_cases hnull : node₁ = .null
      · subst hnull
        obtain ⟨_, s₂, hset, h⟩ := bind_eq_ok h
        cases hset
        obtain ⟨node₂, s₃, hproto, h⟩ := bind_eq_ok h
        by_cases hnull₂ : node₂ = .null
        · subst hnull₂
          obtain ⟨_, s₄, hset, h⟩ := bind_eq_ok h
          cases h
          exact (hne rfl).elim
        · rw [if_neg hnull₂] at h
          cases h
          -- the tables are those from before, or the definition was matched
          have htable : s₁.funcTable = s.funcTable := by
            obtain ⟨r, s₂, hmatch, hnode⟩ := bind_eq_ok hfunc
            cases r with
            | none =>
                cases hnode
                exact ((matchSyms_spec hrec _ (by decide) [] _).ok hmatch).1.table
            | some cs =>
                exact (hnull₂ (matchProd_exclusive (fun t m c hc => check_commutes fuel hc)
                  hmatch s₁.funcTable s₁.maxArgCount hproto)).elim
          obtain ⟨p, rfl, hreg, hlt⟩ := matchProd_proto hrec hproto hnull₂
          exact ⟨.proto p, rfl, htable ▸ hreg, hlt⟩
      · rw [if_neg hnull] at h
        cases h
        obtain ⟨f, rfl, hreg, hlt, -⟩ := matchProd_func hrec rfl hfunc hnull
        exact ⟨.func f, rfl, hreg, hlt⟩

theorem matchProd_mismatch {type : TokenType} {create : Option Creator} {prod : List Sym}
    {ast : AstType} {s : PState} {token : Token} {next : List Token}
    (htok : s.token = token :: next) (htype : token.type ≠ type) :
    matchProd rec ast (.terminal type create :: prod) s = .ok .null { s with token := next } :=
  bind_ok (matchSyms_mismatch htok htype)

/-- A production that fails is followed by the next, from the same token. -/
theorem tryMatching_null {tokenSaved : List Token} {acceptsEmpty : Bool} {prod : List Sym}
    {type : AstType} {prods : List (List Sym × AstType)} {s s₁ : PState}
    (h : matchProd rec type prod s = .ok .null s₁) :
    tryMatching rec tokenSaved acceptsEmpty ((prod, type) :: prods) s =
      tryMatching rec tokenSaved acceptsEmpty prods { s₁ with token := tokenSaved } :=
  bind_ok h

/-- A token that is not a type. -/
theorem checkType_mismatch (fuel : ℕ) {s : PState} {token : Token} {next : List Token}
    (htok : s.token = token :: next) (hvoid : token.type ≠ .tokVoid) (hint : token.type ≠ .tokInt) :
    check (fuel + 1) .type s = .ok .null s := by
  have hstep : check (fuel + 1) .type s =
      tryMatching (check fuel) s.token false checkType.prods s := rfl
  rw [hstep, checkType, tryMatching_null (matchProd_mismatch htok hvoid),
    tryMatching_null (matchProd_mismatch htok hint)]
  rfl

/-- At the end of the file there is no item, and the tables stay. -/
theorem checkFunc_eof (fuel : ℕ) {s : PState} {token : Token} {next : List Token}
    (htok : s.token = token :: next) (heof : token.type = .tokEof) :
    Ends (fun node s' => node = .null ∧ s'.funcTable = s.funcTable) (fun _ _ => True)
      (check fuel .func s) := by
  have hfirst (fuel : ℕ) (prod : List Sym) (s : PState) (htok : s.token = token :: next) :
      matchSyms (check fuel) (signature ++ prod) [] s = _ := matchSyms_nonterminal htok
  have hnone (fuel : ℕ) (prod : List Sym) (type : AstType) (s : PState)
      (htok : s.token = token :: next) :
      matchProd (check (fuel + 1)) type (signature ++ prod) s = .ok .null s := by
    have htype := checkType_mismatch fuel htok (by rw [heof]; decide) (by rw [heof]; decide)
    have hsyms : matchSyms (check (fuel + 1)) (signature ++ prod) [] s = .ok none s := by
      rw [hfirst (fuel + 1) prod s htok, bind_ok htype]
      rfl
    exact bind_ok hsyms
  match fuel with
  | 0 => trivial
  | 1 =>
      have htype : check 0 .type { s with maxArgCount := 0 } =
          .error .outOfFuel { s with maxArgCount := 0 } := rfl
      have hsyms : matchSyms (check 0) (signature ++ bodySyms) [] { s with maxArgCount := 0 } =
          .error .outOfFuel { s with maxArgCount := 0 } := by
        rw [hfirst 0 bodySyms { s with maxArgCount := 0 } htok, bind_error htype]
      have hprod : matchProd (check 0) .astFunction (signature ++ bodySyms)
          { s with maxArgCount := 0 } = .error .outOfFuel { s with maxArgCount := 0 } :=
        bind_error hsyms
      have hstep : check 1 .func s = .error .outOfFuel { s with maxArgCount := 0 } := by
        rw [checkFunc_step]
        exact bind_error hprod
      rw [hstep]
      trivial
  | fuel + 2 =>
      have hrun : check (fuel + 2) .func s = .ok .null { s with maxArgCount := 0 } :=
        (tryMatching_null (hnone fuel bodySyms .astFunction { s with maxArgCount := 0 } htok)).trans
          (tryMatching_null (hnone fuel [tok .tokSemicl] .astFunctionProto
            { s with maxArgCount := 0 } htok))
      rw [hrun]
      exact ⟨rfl, rfl⟩

/-- The actions of a list of items, one after another. -/
inductive Registers : FuncTable → List Item → FuncTable → Prop
  | nil (t : FuncTable) : Registers t [] t
  | cons {t t' t'' : FuncTable} {item : Item} {items : List Item} : item.Registers t t' →
      Registers t' items t'' → Registers t (item :: items) t''

/-- The tokens the declarations of a program take at least. -/
def itemsSize (items : List Item) : ℕ := (items.map Item.size).sum

/-- **The items before the end of the file.** -/
theorem checkProgram_spec (fuel : ℕ) (s : PState) :
    Ends (fun node s' => ∀ token next, s'.token = token :: next → token.type = .tokEof →
        ∃ items, node = programNode items ∧ Registers s.funcTable items s'.funcTable ∧
          itemsSize items + s'.token.length ≤ s.token.length)
      (fun _ _ => True) (check fuel .program s) := by
  induction fuel generalizing s with
  | zero => trivial
  | succ fuel ih =>
      refine Ends.of_ok fun node s' h token next htok heof => ?_
      have hstep : check (fuel + 1) .program s =
          tryMatching (check fuel) s.token true checkProgram.prods s := rfl
      rw [hstep] at h
      obtain ⟨node₁, s₁, hprod, h⟩ := bind_eq_ok h
      by_cases hnull : node₁ = .null
      · subst hnull
        obtain ⟨_, s₂, hset, h⟩ := bind_eq_ok h
        cases hset
        cases h
        -- the empty word: no item has been matched at the end of the file
        change s.token = token :: next at htok
        refine ⟨[], rfl, ?_, by simp [itemsSize]⟩
        have htable : s₁.funcTable = s.funcTable := by
          obtain ⟨r, s₂, hmatch, hnode⟩ := bind_eq_ok hprod
          rw [matchSyms_nonterminal htok] at hmatch
          obtain ⟨node₂, s₃, hfunc, hmatch⟩ := bind_eq_ok hmatch
          obtain ⟨rfl, htable⟩ := (checkFunc_eof fuel htok heof).ok hfunc
          cases hmatch
          cases hnode
          exact htable
        change Registers s.funcTable [] s₁.funcTable
        rw [htable]
        exact .nil _
      · rw [if_neg hnull] at h
        cases h
        obtain ⟨r, s₂, hmatch, hnode⟩ := bind_eq_ok hprod
        cases r with
        | none => cases hnode; exact (hnull rfl).elim
        | some cs =>
            cases htok₀ : s.token with
            | nil => rw [matchSyms_nil _ htok₀] at hmatch; cases hmatch
            | cons token₀ next₀ =>
                rw [matchSyms_nonterminal htok₀] at hmatch
                obtain ⟨node₂, s₃, hfunc, hmatch⟩ := bind_eq_ok hmatch
                by_cases hnull₂ : node₂ = .null
                · rw [if_pos hnull₂] at hmatch
                  cases hmatch
                · rw [if_neg hnull₂] at hmatch
                  obtain ⟨item, rfl, hitem, hlt⟩ := (checkFunc_spec fuel s).ok hfunc hnull₂
                  cases htok₁ : s₃.token with
                  | nil => rw [matchSyms_nil _ htok₁] at hmatch; cases hmatch
                  | cons token₁ next₁ =>
                      rw [matchSyms_nonterminal htok₁] at hmatch
                      obtain ⟨node₃, s₄, hprogram, hmatch⟩ := bind_eq_ok hmatch
                      by_cases hnull₃ : node₃ = .null
                      · rw [if_pos hnull₃] at hmatch
                        cases hmatch
                      · rw [if_neg hnull₃] at hmatch
                        cases hmatch
                        cases hnode
                        obtain ⟨items, rfl, hitems, hle⟩ :=
                          (ih s₃).ok hprogram token next htok heof
                        refine ⟨item :: items, rfl, .cons hitem hitems, ?_⟩
                        simp only [itemsSize, List.map_cons, List.sum_cons] at hle ⊢
                        rw [htok₀] at hlt
                        omega

/-- **Accepted programs.**  The tree is that of a list of items, each registered in the
tables that those before it have left, and its declarations fit into its tokens. -/
theorem parseTokenlist_spec {fuel : ℕ} {first : List Token} {node : Node} {s : PState}
    (h : parseTokenlist fuel first = .ok node s) (hne : node ≠ .null) :
    ∃ items, node = headNode items ∧ Registers (fun _ => none) items s.funcTable ∧
      itemsSize items < first.length := by
  obtain ⟨r, s₁, hmatch, hnode⟩ := bind_eq_ok h
  cases r with
  | none => cases hnode; exact (hne rfl).elim
  | some cs =>
      cases htok₀ : (PState.initial first).token with
      | nil => rw [matchSyms_nil _ htok₀] at hmatch; cases hmatch
      | cons token₀ next₀ =>
          rw [matchSyms_nonterminal htok₀] at hmatch
          obtain ⟨node₁, s₂, hprogram, hmatch⟩ := bind_eq_ok hmatch
          by_cases hnull : node₁ = .null
          · rw [if_pos hnull] at hmatch
            cases hmatch
          · rw [if_neg hnull] at hmatch
            obtain ⟨token, next, htok, heof⟩ := matchSyms_head hmatch
            obtain ⟨items, rfl, hitems, hle⟩ :=
              (checkProgram_spec fuel (.initial first)).ok hprogram token next htok heof
            have hrest : matchSyms (check fuel) [tok .tokEof] ([] ++ [programNode items]) s₂ =
                .ok (some [programNode items]) { s₂ with token := next } :=
              matchSyms_terminal htok heof
            cases hrest.symm.trans hmatch
            cases hnode
            refine ⟨items, rfl, hitems, ?_⟩
            rw [htok] at hle
            exact Nat.lt_of_lt_of_le (Nat.lt_add_of_pos_right (Nat.succ_pos _)) hle

end Items

end Bispe
