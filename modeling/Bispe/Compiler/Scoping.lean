import Bispe.Compiler.CallSize

/-!
# Scopes

A definition is accepted by `register_args` and `register_loc_vars` exactly if every
variable is declared once, before its uses in the text.  The traversal of the tree
meets the variables in the order of the text, so that "before" is the same for both.

## Main definitions

* `Occurrence`, `Stmt.occurrences` — declarations and uses, in the order of the text.
* `WellScoped` — the scope rules.
* `Walks` — what `register_loc_vars` does with a tree.
* `FuncInfo.Sound` — the layout of a frame.
-/

namespace Bispe

open Effect

/-- A variable is declared, or used or assigned. -/
inductive Occurrence
  | define (x : String)
  | use (x : String)
  deriving DecidableEq, Repr

/-- The occurrences of the variables of an expression. -/
def usesOf (vars : List String) : List Occurrence := vars.map .use

/-- `type x = init`, `x = e`. -/
def Simple.occurrences : Simple → List Occurrence
  | .varDef _ x init => .define x :: usesOf (exprVars? init)
  | .varAssign x e => .use x :: usesOf e.vars

/-- The occurrences in a statement, in the order of its text. -/
def Stmt.occurrences : Stmt → List Occurrence
  | .skip => []
  | .seq s rest => s.occurrences ++ rest.occurrences
  | .simple s => s.occurrences
  | .call _ args => usesOf args.vars
  | .print e => usesOf e.vars
  | .ret e => usesOf (exprVars? e)
  | .ifThen c s => usesOf c.vars ++ s.occurrences
  | .ifElse c s₁ s₂ => usesOf c.vars ++ s₁.occurrences ++ s₂.occurrences
  | .whileLoop c body => usesOf c.vars ++ body.occurrences
  | .forLoop init c x e body =>
      init.occurrences ++ usesOf c.vars ++ (Simple.varAssign x e).occurrences ++ body.occurrences
  | .doLoop body c => body.occurrences ++ usesOf c.vars

/-- The names that are declared. -/
def definesOf : List Occurrence → List String
  | [] => []
  | .define x :: occs => x :: definesOf occs
  | .use _ :: occs => definesOf occs

/-- No name is declared twice, and every use is of a parameter or of a name that is
declared before it. -/
def WellScoped (params : List String) (occs : List Occurrence) : Prop :=
  (params ++ definesOf occs).Nodup ∧
    ∀ before x after, occs = before ++ .use x :: after → x ∈ params ∨ .define x ∈ before

/-! ## Scopes step by step -/

/-- The scope rules, where some names are known before. -/
def Scoped (known : String → Prop) : List Occurrence → Prop
  | [] => True
  | .define x :: occs => ¬ known x ∧ Scoped (fun y => known y ∨ y = x) occs
  | .use x :: occs => known x ∧ Scoped known occs

theorem mem_definesOf {x : String} {occs : List Occurrence} :
    x ∈ definesOf occs ↔ .define x ∈ occs := by
  induction occs with
  | nil => simp [definesOf]
  | cons o occs ih => cases o <;> simp [definesOf, ih]

theorem definesOf_append (l r : List Occurrence) :
    definesOf (l ++ r) = definesOf l ++ definesOf r := by
  induction l with
  | nil => rfl
  | cons o l ih => cases o <;> simp [definesOf, ih]

theorem Scoped.congr {known known' : String → Prop} (h : ∀ x, known x ↔ known' x)
    (occs : List Occurrence) : Scoped known occs ↔ Scoped known' occs := by
  rw [funext fun x => propext (h x)]

theorem scoped_append {known : String → Prop} {l r : List Occurrence} :
    Scoped known (l ++ r) ↔ Scoped known l ∧ Scoped (fun x => known x ∨ .define x ∈ l) r := by
  induction l generalizing known with
  | nil => simp [Scoped]
  | cons o l ih =>
      cases o with
      | define x =>
          simp only [List.cons_append, Scoped, ih, and_assoc, List.mem_cons,
            Occurrence.define.injEq, or_assoc]
      | use x => simp [Scoped, ih, and_assoc]

/-- The uses in a sequence that begins with an occurrence. -/
theorem uses_cons {known : String → Prop} {o : Occurrence} {occs : List Occurrence} :
    (∀ before x after, o :: occs = before ++ .use x :: after → known x ∨ .define x ∈ before) ↔
      (∀ x, o = .use x → known x) ∧ ∀ before x after, occs = before ++ .use x :: after →
        known x ∨ .define x = o ∨ .define x ∈ before := by
  constructor
  · intro h
    constructor
    · rintro x rfl
      simpa using h [] x occs rfl
    · rintro before x after rfl
      simpa using h (o :: before) x after rfl
  · intro h before x after heq
    cases before with
    | nil =>
        obtain ⟨rfl, rfl⟩ := List.cons.inj heq
        exact .inl (h.1 x rfl)
    | cons o' before =>
        obtain ⟨rfl, hrest⟩ := List.cons.inj heq
        simpa using h.2 before x after hrest

theorem scoped_iff {known : String → Prop} {occs : List Occurrence} :
    Scoped known occs ↔ (definesOf occs).Nodup ∧ (∀ x ∈ definesOf occs, ¬ known x) ∧
      ∀ before x after, occs = before ++ .use x :: after → known x ∨ .define x ∈ before := by
  induction occs generalizing known with
  | nil => simp [Scoped, definesOf]
  | cons o occs ih =>
      rw [uses_cons]
      cases o with
      | define y =>
          rw [Scoped, ih, definesOf, List.nodup_cons, List.forall_mem_cons]
          constructor
          · rintro ⟨hy, hnodup, hfresh, huses⟩
            refine ⟨⟨fun hmem => hfresh y hmem (.inr rfl), hnodup⟩, ⟨hy, ?_⟩, nofun, ?_⟩
            · exact fun x hx hknown => hfresh x hx (.inl hknown)
            · intro before x after heq
              simpa [or_assoc] using huses before x after heq
          · rintro ⟨⟨hmem, hnodup⟩, ⟨hy, hfresh⟩, -, huses⟩
            refine ⟨hy, hnodup, ?_, ?_⟩
            · rintro x hx (hknown | rfl)
              · exact hfresh x hx hknown
              · exact hmem hx
            · intro before x after heq
              simpa [or_assoc] using huses before x after heq
      | use y =>
          rw [Scoped, ih, definesOf]
          constructor
          · rintro ⟨hy, hnodup, hfresh, huses⟩
            refine ⟨hnodup, hfresh, ?_, ?_⟩
            · rintro x ⟨rfl⟩
              exact hy
            · intro before x after heq
              simpa using huses before x after heq
          · rintro ⟨hnodup, hfresh, hy, huses⟩
            refine ⟨hy y rfl, hnodup, hfresh, ?_⟩
            intro before x after heq
            simpa using huses before x after heq

theorem definesOf_map (names : List String) : definesOf (names.map .define) = names := by
  induction names with
  | nil => rfl
  | cons x names ih => simp [definesOf, ih]

/-- **The scope rules of a definition.** -/
theorem wellScoped_iff {params : List String} {occs : List Occurrence} :
    WellScoped params occs ↔ Scoped (fun _ => False) (params.map .define ++ occs) := by
  have hdefine : ∀ x, Occurrence.define x ∈ params.map Occurrence.define ↔ x ∈ params := by
    intro x
    rw [← mem_definesOf, definesOf_map]
  have huse : ∀ before x after,
      params.map Occurrence.define ≠ before ++ Occurrence.use x :: after := by
    intro before x after heq
    have hmem : Occurrence.use x ∈ params.map Occurrence.define := by simp [heq]
    simp at hmem
  rw [scoped_append, scoped_iff, scoped_iff, definesOf_map, WellScoped, List.nodup_append]
  constructor
  · rintro ⟨⟨hparams, hdefs, hdisj⟩, huses⟩
    refine ⟨⟨hparams, fun x _ => id, fun b x a heq => absurd heq (huse b x a)⟩, hdefs, ?_, ?_⟩
    · rintro x hx (hfalse | hmem)
      · exact hfalse
      · exact hdisj x ((hdefine x).mp hmem) x hx rfl
    · intro before x after heq
      simpa [hdefine] using huses before x after heq
  · rintro ⟨⟨hparams, -, -⟩, hdefs, hfresh, huses⟩
    refine ⟨⟨hparams, hdefs, ?_⟩, ?_⟩
    · rintro x hx y hy rfl
      exact hfresh x hy (.inr ((hdefine x).mpr hx))
    · intro before x after heq
      simpa [hdefine] using huses before x after heq

/-! ## The traversal -/

/-- The name is in the table. -/
def FuncInfo.Known (func : FuncInfo) (x : String) : Prop := func.pos x ≠ none

/-- A pass from `func` accepts what the scope rules accept, with the result `a`. -/
def Decides {α : Type} (func : FuncInfo) (a : α) (occs : List Occurrence) :
    Except FuncInfo (FuncInfo × α) → Prop
  | .ok (info, b) => b = a ∧ Scoped func.Known occs ∧
      ∀ x, info.Known x ↔ func.Known x ∨ .define x ∈ occs
  | .error _ => ¬ Scoped func.Known occs

namespace Decides
variable {α β : Type} {func : FuncInfo} {a : α} {b : β} {occs occs' : List Occurrence}
  {x : Except FuncInfo (FuncInfo × α)} {f : FuncInfo × α → Except FuncInfo (FuncInfo × β)}

theorem ok (func : FuncInfo) (a : α) : Decides func a [] (.ok (func, a)) :=
  ⟨rfl, trivial, fun x => by simp⟩

/-- One pass after another. -/
theorem bind (h : Decides func a occs x) (h' : ∀ info, Decides info b occs' (f (info, a))) :
    Decides func b (occs ++ occs') (x >>= f) := by
  cases x with
  | error e => exact fun hscoped => h (scoped_append.mp hscoped).1
  | ok r =>
      obtain ⟨info, a'⟩ := r
      obtain ⟨rfl, hscoped, hknown⟩ := h
      have happend : Scoped func.Known (occs ++ occs') ↔ Scoped info.Known occs' := by
        rw [scoped_append, Scoped.congr hknown]
        exact and_iff_right hscoped
      have h' := h' info
      change Decides func b (occs ++ occs') (f (info, a'))
      cases hnext : f (info, a') with
      | error e =>
          rw [hnext] at h'
          exact fun hall => h' (happend.mp hall)
      | ok r' =>
          rw [hnext] at h'
          obtain ⟨rfl, hscoped', hknown'⟩ := h'
          refine ⟨rfl, happend.mpr hscoped', fun y => ?_⟩
          rw [hknown', hknown, List.mem_append, or_assoc]

/-- After a declaration. -/
theorem define {func' : FuncInfo} {y : String} (hy : ¬ func.Known y)
    (hknown : ∀ z, func'.Known z ↔ func.Known z ∨ z = y) (h : Decides func' a occs x) :
    Decides func a (.define y :: occs) x := by
  cases x with
  | error e =>
      intro hscoped
      exact h ((Scoped.congr hknown occs).mpr hscoped.2)
  | ok r =>
      obtain ⟨heq, hscoped, hall⟩ := h
      refine ⟨heq, ⟨hy, (Scoped.congr hknown occs).mp hscoped⟩, fun z => ?_⟩
      rw [hall, hknown, List.mem_cons, Occurrence.define.injEq, or_assoc]

theorem map (h : Decides func a occs x) (g : α → β) :
    Decides func (g a) occs (x >>= fun r => .ok (r.1, g r.2)) := by
  have hbind := h.bind (b := g a) (f := fun r => .ok (r.1, g r.2)) fun info => .ok info (g a)
  rwa [List.append_nil] at hbind

end Decides

/-- The traversal of the tree `raw` in the function `name` makes the tree `node` of it. -/
def Walks (name : String) (raw node : Node) (occs : List Occurrence) : Prop :=
  ∀ func, Decides func node occs (registerLocVars name func raw)

namespace Walks
variable {name : String}

theorem null : Walks name .null .null [] := fun func => .ok func Node.null

/-- A node that is neither a variable nor stores to one: the children in order. -/
theorem children {type : AstType} (val : NodeVal) {l m r l' m' r' : Node}
    {ol om or' : List Occurrence} (h₁ : type ≠ .astVarDef) (h₂ : type ≠ .astVarAssign)
    (h₃ : type ≠ .astIdentifier) (hl : Walks name l l' ol) (hm : Walks name m m' om)
    (hr : Walks name r r' or') :
    Walks name (.mk type val l m r) (.mk type val l' m' r') (ol ++ (om ++ or')) := by
  intro func
  have hrun : registerLocVars name func (.mk type val l m r) =
      (registerLocVars name func l >>= fun r₁ => registerLocVars name r₁.1 m >>= fun r₂ =>
        registerLocVars name r₂.1 r >>= fun r₃ => .ok (r₃.1, .mk type val r₁.2 r₂.2 r₃.2)) := by
    cases type <;> first | rfl | contradiction
  rw [hrun]
  exact (hl func).bind fun info => (hm info).bind fun info => (hr info).map (Node.mk type val l' m')

/-- A node with one child. -/
theorem inner {type : AstType} {l l' : Node} {occs : List Occurrence} (h₁ : type ≠ .astVarDef)
    (h₂ : type ≠ .astVarAssign) (h₃ : type ≠ .astIdentifier) (hl : Walks name l l' occs)
    (val : NodeVal) :
    Walks name (.mk type val l .null .null) (.mk type val l' .null .null) occs := by
  have hall := children val h₁ h₂ h₃ hl null null
  rwa [List.append_nil, List.append_nil] at hall

/-- A node with two children. -/
theorem inner₂ {type : AstType} {l l' m m' : Node} {occs occs' : List Occurrence}
    (h₁ : type ≠ .astVarDef) (h₂ : type ≠ .astVarAssign) (h₃ : type ≠ .astIdentifier)
    (hl : Walks name l l' occs) (hm : Walks name m m' occs') :
    Walks name (Bispe.inner type l m) (Bispe.inner type l' m') (occs ++ occs') := by
  have hall := children .uninit h₁ h₂ h₃ hl hm null
  rwa [List.append_nil] at hall

/-- A node without variables. -/
theorem leaf {type : AstType} (h₁ : type ≠ .astVarDef) (h₂ : type ≠ .astVarAssign)
    (h₃ : type ≠ .astIdentifier) (val : NodeVal) :
    Walks name (allocNode type val) (allocNode type val) [] := inner h₁ h₂ h₃ null val

/-- The use of a variable. -/
theorem use {x : String} {occs : List Occurrence} {func : FuncInfo} {node : Node}
    {run : Except FuncInfo (FuncInfo × Node)} (h : Decides func node occs run) :
    Decides func node (.use x :: occs) (match getVar x func with
      | none => .error func
      | some _ => run) := by
  have hknown : func.Known x ↔ getVar x func ≠ none := by
    rw [FuncInfo.Known, ne_eq, FuncInfo.pos_eq_none]
    rfl
  cases hvar : getVar x func with
  | none => exact fun hscoped => hknown.mp hscoped.1 hvar
  | some var =>
      have hx : func.Known x := by
        rw [hknown, hvar]
        exact Option.some_ne_none var
      cases run with
      | error e => exact fun hscoped => h hscoped.2
      | ok r =>
          obtain ⟨heq, hscoped, hall⟩ := h
          refine ⟨heq, ⟨hx, hscoped⟩, fun y => ?_⟩
          rw [hall]
          simp

/-- The declaration of a variable. -/
theorem define {x : String} {type : Dtype} {occs : List Occurrence} {right right' : Node}
    (h : Walks name right right' occs) :
    Walks name (.mk .astVarDef .uninit (typeNode type) (identNode x) right)
      (.mk .astVarDef (.var name x) right' .null .null) (.define x :: occs) := by
  intro func
  rw [registerLocVars_varDef]
  cases hadd : addVar x (tokTypeToDtype type.tok) func with
  | none =>
      have hx : func.Known x := by
        intro hnone
        rw [addVar, FuncInfo.pos_eq_none.mp hnone] at hadd
        cases hadd
      exact fun hscoped => hscoped.1 hx
  | some func' =>
      obtain ⟨hx, rfl⟩ := addVar_eq_some hadd
      apply Decides.define (not_not.mpr hx) _ ((h _).map fun expr =>
        Node.mk .astVarDef (.var name x) expr .null .null)
      intro z
      change ((func.setVar x _).setVar x _).pos z ≠ none ↔ _
      rw [FuncInfo.pos_setVar, FuncInfo.pos_setVar]
      by_cases hz : z = x
      · simp [hz]
      · simp [hz, FuncInfo.Known]

end Walks

theorem usesOf_append (l r : List String) : usesOf (l ++ r) = usesOf l ++ usesOf r :=
  List.map_append

section Phrases
variable (name : String)

theorem use (x : String) :
    Walks name (allocNode .astIdentifier (.str x)) (allocNode .astIdentifier (.var name x))
      [.use x] := by
  intro func
  exact Walks.use (.ok func (allocNode .astIdentifier (.var name x)))

mutual

theorem Expr.walks : ∀ e : Expr, Walks name (e.node .str) (e.node (.var name)) (usesOf e.vars)
  | .unary u => .inner (by decide) (by decide) (by decide) u.walks .uninit
  | .bin u op e => by
      rw [Expr.vars, usesOf_append]
      have hop : Walks name (numopNode op) (numopNode op) [] :=
        .inner (by decide) (by decide) (by decide) (.leaf (by decide) (by decide) (by decide) _) _
      exact .children .uninit (by decide) (by decide) (by decide) u.walks hop e.walks

theorem Unary.walks : ∀ u : Unary, Walks name (u.node .str) (u.node (.var name)) (usesOf u.vars)
  | .call f args =>
      .inner (by decide) (by decide) (by decide)
        (.inner (by decide) (by decide) (by decide) args.walks (.func f)) .uninit
  | .var x =>
      .inner (by decide) (by decide) (by decide) (use name x) .uninit
  | .lit n =>
      .inner (by decide) (by decide) (by decide) (.leaf (by decide) (by decide) (by decide) _)
        .uninit
  | .paren e => .inner (by decide) (by decide) (by decide) e.walks .uninit

theorem Args.walks : ∀ args : Args,
    Walks name (args.node .str) (args.node (.var name)) (usesOf args.vars)
  | .empty => .leaf (by decide) (by decide) (by decide) _
  | .last e => .inner (by decide) (by decide) (by decide) e.walks .uninit
  | .cons e args => by
      rw [Args.vars, usesOf_append]
      exact .inner₂ (by decide) (by decide) (by decide) e.walks args.walks

end

theorem Cond.walks (c : Cond) : Walks name (c.node .str) (c.node (.var name)) (usesOf c.vars) := by
  rw [Cond.vars, usesOf_append]
  have hop : Walks name (boolopNode c.op) (boolopNode c.op) [] :=
    .inner (by decide) (by decide) (by decide) (.leaf (by decide) (by decide) (by decide) _) _
  exact .children .uninit (by decide) (by decide) (by decide) (c.left.walks name) hop
    (c.right.walks name)

theorem exprNode?_walks (e : Option Expr) :
    Walks name (exprNode? .str e) (exprNode? (.var name) e) (usesOf (exprVars? e)) := by
  cases e with
  | none => exact .null
  | some e => exact e.walks name

theorem Simple.walks (s : Simple) : Walks name s.raw (s.node name) s.occurrences := by
  cases s with
  | varDef type x init => exact .define (exprNode?_walks name init)
  | varAssign x e =>
      intro func
      rw [Simple.raw, inner, registerLocVars_varAssign]
      exact Walks.use ((e.walks name func).map fun expr =>
        Node.mk .astVarAssign (.var name x) expr .null .null)

/-- **The traversal of a body** follows the scope rules. -/
theorem Stmt.walks (s : Stmt) : Walks name s.raw (s.node name) s.occurrences := by
  induction s with
  | skip => exact .leaf (by decide) (by decide) (by decide) _
  | seq s rest ihs ihrest => exact .inner₂ (by decide) (by decide) (by decide) ihs ihrest
  | simple s => exact .inner (by decide) (by decide) (by decide) (s.walks name) _
  | call f args =>
      exact .inner (by decide) (by decide) (by decide)
        (.inner (by decide) (by decide) (by decide) (args.walks name) _) _
  | print e =>
      exact .inner (by decide) (by decide) (by decide)
        (.inner (by decide) (by decide) (by decide) (e.walks name) _) _
  | ret e =>
      exact .inner (by decide) (by decide) (by decide)
        (.inner (by decide) (by decide) (by decide) (exprNode?_walks name e) _) _
  | ifThen c s ih => exact .inner₂ (by decide) (by decide) (by decide) (c.walks name) ih
  | ifElse c s₁ s₂ ih₁ ih₂ =>
      rw [Stmt.occurrences, List.append_assoc]
      exact .children .uninit (by decide) (by decide) (by decide) (c.walks name) ih₁ ih₂
  | whileLoop c body ih => exact .inner₂ (by decide) (by decide) (by decide) (c.walks name) ih
  | forLoop init c x e body ih =>
      rw [Stmt.occurrences, List.append_assoc init.occurrences]
      have hhead := Walks.children .uninit (show AstType.astForLoopHead ≠ _ by decide) (by decide)
        (by decide) (init.walks name) (c.walks name) (Simple.walks name (.varAssign x e))
      exact .inner₂ (by decide) (by decide) (by decide) hhead ih
  | doLoop body c ih => exact .inner₂ (by decide) (by decide) (by decide) ih (c.walks name)

end Phrases

/-! ## Parameters -/

/-- `register_args` as a pass. -/
def argsPass (node : Node) (func : FuncInfo) : Except FuncInfo (FuncInfo × Unit) :=
  registerArgs func node >>= fun info => .ok (info, ())

theorem argsPass_argdef (type : Dtype) (x : String) (func : FuncInfo) :
    Decides func () [.define x] (argsPass (argdefNode type x) func) := by
  rw [argsPass, registerArgs_argdef_run]
  cases hadd : addVar x (tokTypeToDtype type.tok) func with
  | none =>
      have hx : func.Known x := by
        intro hnone
        rw [addVar, FuncInfo.pos_eq_none.mp hnone] at hadd
        cases hadd
      exact fun hscoped => hscoped.1 hx
  | some func' =>
      obtain ⟨hx, rfl⟩ := addVar_eq_some hadd
      apply Decides.define (not_not.mpr hx) _ (.ok _ ())
      intro z
      change ((func.setVar x _).setVar x _).pos z ≠ none ↔ _
      rw [FuncInfo.pos_setVar, FuncInfo.pos_setVar]
      by_cases hz : z = x
      · simp [hz]
      · simp [hz, FuncInfo.Known]

theorem argsPass_params (params : Params) (func : FuncInfo) :
    Decides func () (params.names.map .define) (argsPass params.node func) := by
  induction params generalizing func with
  | void => exact .ok func ()
  | last type x =>
      have hrun : argsPass (Params.last type x).node func =
          (argsPass (argdefNode type x) func >>= fun r => .ok (r.1, ())) := by
        change ((registerArgs func (argdefNode type x) >>= fun func =>
          registerArgs func .null) >>= _) = _
        cases hx : registerArgs func (argdefNode type x) <;> simp [argsPass, hx] <;> rfl
      rw [hrun]
      exact (argsPass_argdef type x func).map fun _ => ()
  | cons type x params ih =>
      have hrun : argsPass (Params.cons type x params).node func =
          (argsPass (argdefNode type x) func >>= fun r => argsPass params.node r.1) := by
        change ((registerArgs func (argdefNode type x) >>= fun func =>
          registerArgs func params.node) >>= _) = _
        cases hx : registerArgs func (argdefNode type x) <;> simp [argsPass, hx] <;> rfl
      rw [hrun]
      exact (argsPass_argdef type x func).bind fun info => ih info

theorem Decides.ok_iff {α : Type} {func : FuncInfo} {a : α} {occs : List Occurrence}
    {x : Except FuncInfo (FuncInfo × α)} (h : Decides func a occs x) :
    (∃ r, x = .ok r) ↔ Scoped func.Known occs := by
  cases x with
  | error e => exact ⟨nofun, fun hscoped => absurd hscoped h⟩
  | ok r => exact ⟨fun _ => h.2.1, fun _ => ⟨r, rfl⟩⟩

/-- **Definitions are accepted by the scope rules.** -/
theorem registers_iff (d : Dtype) (name : String) (params : Params) (body : Stmt) (M : ℕ) :
    (∃ func info node, registerArgs (.fresh d) params.node = .ok func ∧
        registerLocVars name { func with maxCallSize := M } body.raw = .ok (info, node)) ↔
      WellScoped params.names body.occurrences := by
  have hempty : ∀ x, FuncInfo.Known (.fresh d) x ↔ False := by
    intro x
    simp [FuncInfo.Known, FuncInfo.pos, FuncInfo.fresh]
  have hpasses := (argsPass_params params (.fresh d)).bind
    (f := fun r => registerLocVars name { r.1 with maxCallSize := M } body.raw)
    fun info => show Decides info (body.node name) body.occurrences _ from
      body.walks name { info with maxCallSize := M }
  rw [wellScoped_iff, ← Scoped.congr hempty, ← hpasses.ok_iff, argsPass]
  constructor
  · rintro ⟨func, info, node, hfunc, hnode⟩
    rw [hfunc]
    exact ⟨_, hnode⟩
  · rintro ⟨r, hr⟩
    cases hfunc : registerArgs (.fresh d) params.node with
    | error e =>
        rw [hfunc] at hr
        cases hr
    | ok func =>
        rw [hfunc] at hr
        exact ⟨func, r.1, r.2, rfl, hr⟩

theorem definesOf_usesOf (vars : List String) : definesOf (usesOf vars) = [] := by
  induction vars with
  | nil => rfl
  | cons x vars ih => exact ih

theorem Simple.definesOf_occurrences (s : Simple) : definesOf s.occurrences = s.defs := by
  cases s with
  | varDef type x init => exact congrArg (x :: ·) (definesOf_usesOf _)
  | varAssign x e => exact definesOf_usesOf e.vars

theorem Stmt.definesOf_occurrences (s : Stmt) : definesOf s.occurrences = s.defs := by
  induction s with
  | skip => rfl
  | seq s rest ihs ihrest => rw [Stmt.occurrences, definesOf_append, ihs, ihrest, Stmt.defs]
  | simple s => exact s.definesOf_occurrences
  | call f args => exact definesOf_usesOf _
  | print e => exact definesOf_usesOf _
  | ret e => exact definesOf_usesOf _
  | ifThen c s ih => rw [Stmt.occurrences, definesOf_append, definesOf_usesOf, ih]; rfl
  | ifElse c s₁ s₂ ih₁ ih₂ =>
      rw [Stmt.occurrences, definesOf_append, definesOf_append, definesOf_usesOf, ih₁, ih₂]
      rfl
  | whileLoop c body ih => rw [Stmt.occurrences, definesOf_append, definesOf_usesOf, ih]; rfl
  | forLoop init c x e body ih =>
      rw [Stmt.occurrences, definesOf_append, definesOf_append, definesOf_append, definesOf_usesOf,
        Simple.definesOf_occurrences, Simple.definesOf_occurrences, ih, Simple.defs,
        List.append_nil, List.append_nil, Stmt.defs]
  | doLoop body c ih =>
      rw [Stmt.occurrences, definesOf_append, definesOf_usesOf, ih, List.append_nil, Stmt.defs]

/-! ## Frames -/

/-- **The frame of a definition.**  The arguments of its calls come first, then its
locals, the return address and its own arguments. -/
structure FuncInfo.Sound (info : FuncInfo) (params : List String) (body : Stmt) : Prop where
  argCount : info.argCount = params.length
  varCount : info.varCount = body.defs.length
  maxCall : IsMaxCall body.calls info.maxCallSize
  /-- Every slot of the locals is that of one of them. -/
  slots : ∀ slot, info.maxCallSize ≤ slot → slot < info.maxCallSize + info.varCount →
    ∃! x, x ∈ body.defs ∧ info.pos x = some slot
  locals : ∀ x ∈ body.defs, ∃ slot, info.pos x = some slot ∧ info.maxCallSize ≤ slot ∧
    slot < info.maxCallSize + info.varCount
  params : ∀ i x, params[i]? = some x →
    info.pos x = some (info.maxCallSize + info.varCount + 1 + i)
  retAddr : ∀ x, info.pos x ≠ some (info.maxCallSize + info.varCount)
  /-- The pointers of the body lead somewhere. -/
  resolved : ∀ x ∈ body.vars ++ body.defs, info.pos x ≠ none

theorem FuncInfo.Laid.sound {info : FuncInfo} {params : List String} {body : Stmt} {M : ℕ}
    (h : info.Laid params body.defs M) (hM : IsMaxCall body.calls M)
    (hvars : ∀ x ∈ body.vars, info.pos x ≠ none) : info.Sound params body := by
  have hlocal : ∀ x ∈ body.defs, info.pos x = some (M + body.defs.idxOf x) := by
    intro x hx
    rw [h.pos, framePos, if_pos hx]
  have hdefs : body.defs.Nodup := h.nodup.of_append_right
  constructor
  · exact h.argCount
  · exact h.varCount
  · rw [h.maxCallSize]
    exact hM
  · rw [h.maxCallSize, h.varCount]
    intro slot hle hlt
    have hi : slot - M < body.defs.length := by omega
    refine ⟨body.defs[slot - M], ⟨List.getElem_mem hi, ?_⟩, ?_⟩
    · rw [hlocal _ (List.getElem_mem hi), hdefs.idxOf_getElem]
      congr 1
      omega
    · rintro x ⟨hx, hpos⟩
      rw [hlocal x hx] at hpos
      have hidx : body.defs.idxOf x = slot - M := by
        have := Option.some.inj hpos
        omega
      simp [← hidx]
  · rw [h.maxCallSize, h.varCount]
    intro x hx
    have hidx := List.idxOf_lt_length_of_mem hx
    exact ⟨_, hlocal x hx, by omega, by omega⟩
  · rw [h.maxCallSize, h.varCount]
    intro i x hx
    obtain ⟨hi, rfl⟩ := List.getElem?_eq_some_iff.mp hx
    have hmem : params[i] ∈ params := List.getElem_mem hi
    have hnot : params[i] ∉ body.defs := by
      intro hdef
      exact (List.nodup_append.mp h.nodup).2.2 _ hmem _ hdef rfl
    rw [h.pos, framePos, if_neg hnot, if_pos hmem, h.nodup.of_append_left.idxOf_getElem]
    congr 1
    omega
  · rw [h.maxCallSize, h.varCount]
    intro x hpos
    rw [h.pos, framePos] at hpos
    by_cases hdef : x ∈ body.defs
    · have hidx := List.idxOf_lt_length_of_mem hdef
      rw [if_pos hdef] at hpos
      have := Option.some.inj hpos
      omega
    · rw [if_neg hdef] at hpos
      by_cases hparam : x ∈ params
      · rw [if_pos hparam] at hpos
        have := Option.some.inj hpos
        omega
      · rw [if_neg hparam] at hpos
        cases hpos
  · intro x hx
    rcases List.mem_append.mp hx with hx | hx
    · exact hvars x hx
    · rw [hlocal x hx]
      exact Option.some_ne_none _

/-- A definition that is not preceded by a prototype. -/
theorem Func.Registers.sound {f : Func} {t t' : FuncTable} (h : f.Registers t t')
    (hM : IsMaxCall f.body.calls f.maxCall) (hnew : t f.name = none) :
    WellScoped f.params.names f.body.occurrences ∧ ∃ info,
      t' = Function.update t f.name (some info) ∧ info.Sound f.params.names f.body := by
  obtain ⟨-, -, func₀, func₁, func₂, hopen, hloc, hcalc, -, ht'⟩ := h
  rw [hnew, openFunction, Option.some.injEq] at hopen
  constructor
  · exact (registers_iff f.ret f.name f.params f.body f.maxCall).mp ⟨_, _, _, hopen, hloc⟩
  · obtain ⟨-, hdeclared⟩ := registerArgs_declared rfl rfl (fun _ => rfl) hopen
    have hdeclared' :
        ({ func₀ with maxCallSize := f.maxCall } : FuncInfo).Declared f.params.names :=
      ⟨hdeclared.argCount, hdeclared.varCount, hdeclared.nodup, hdeclared.pos⟩
    obtain ⟨-, hreg⟩ := registerLocVars_stmt hloc
    obtain ⟨-, hlaid⟩ := laid_of_registered hdeclared' hreg hcalc
    refine ⟨func₂, ht', hlaid.sound hM ?_⟩
    intro x hx
    have hknown := hreg.vars x hx
    rw [hreg.enters.eq] at hknown
    rw [hlaid.pos, framePos]
    by_cases hdef : x ∈ f.body.defs
    · rw [if_pos hdef]
      exact Option.some_ne_none _
    · rw [if_neg hdef, hdeclared'.pos] at hknown
      rw [if_neg hdef]
      by_cases hparam : x ∈ f.params.names
      · rw [if_pos hparam]
        exact Option.some_ne_none _
      · exact absurd (if_neg hparam) hknown

/-- **Frames and scopes are sound.**  The two passes accept what the scope rules accept.
What `check_func` returns for a definition is made of the trees it has matched, with
pointers for names; where there was no prototype, the frame of the function is laid out
for exactly the calls, locals and parameters in these trees. -/
theorem frames_sound :
    (∀ (d : Dtype) (name : String) (params : Params) (body : Stmt) (M : ℕ),
      (∃ func info node, registerArgs (.fresh d) params.node = .ok func ∧
        registerLocVars name { func with maxCallSize := M } body.raw = .ok (info, node)) ↔
      WellScoped params.names body.occurrences) ∧
    ∀ (fuel : ℕ) (s s' : PState) (node : Node), check (fuel + 1) .func s = .ok node s' →
      node.type = some .astFunction →
      ∃ f : Func, (∃ s₁, matchSyms (check fuel) (signature ++ bodySyms) []
          { s with maxArgCount := 0 } = .ok (some f.children) s₁) ∧
        node = (Item.func f).node ∧ (s.funcTable f.name = none →
          WellScoped f.params.names f.body.occurrences ∧ ∃ info,
            s'.funcTable = Function.update s.funcTable f.name (some info) ∧
              info.Sound f.params.names f.body) := by
  constructor
  · exact registers_iff
  · intro fuel s s' node h htype
    rw [checkFunc_step] at h
    obtain ⟨first, s₁, hfunc, h⟩ := bind_eq_ok h
    by_cases hnull : first = .null
    · rw [if_pos hnull] at h
      obtain ⟨_, s₂, -, h⟩ := bind_eq_ok h
      obtain ⟨second, s₃, hproto, h⟩ := bind_eq_ok h
      by_cases hnull₂ : second = .null
      · rw [if_pos hnull₂] at h
        obtain ⟨_, s₄, -, h⟩ := bind_eq_ok h
        cases h
        cases htype
      · rw [if_neg hnull₂] at h
        cases h
        obtain ⟨p, rfl, -⟩ :=
          matchProd_proto (fun c hc s => check_spec fuel hc s) hproto hnull₂
        cases htype
    · rw [if_neg hnull] at h
      cases h
      obtain ⟨f, hmatch, rfl, hreg, hM⟩ := matchProd_func_isMaxCall rfl hfunc hnull
      exact ⟨f, hmatch, rfl, fun hnew => hreg.sound hM hnew⟩

/-- `int f(int a) { int x = g(a, a); return x; }`, where `g` takes two arguments. -/
def callTwice : PState where
  token := [⟨.tokInt, "int"⟩, ⟨.tokIdentifier, "f"⟩, ⟨.tokOpenpa, ""⟩, ⟨.tokInt, "int"⟩,
    ⟨.tokIdentifier, "a"⟩, ⟨.tokClosepa, ""⟩, ⟨.tokOpenbr, ""⟩, ⟨.tokInt, "int"⟩,
    ⟨.tokIdentifier, "x"⟩, ⟨.tokEq, ""⟩, ⟨.tokIdentifier, "g"⟩, ⟨.tokOpenpa, ""⟩,
    ⟨.tokIdentifier, "a"⟩, ⟨.tokComma, ""⟩, ⟨.tokIdentifier, "a"⟩, ⟨.tokClosepa, ""⟩,
    ⟨.tokSemicl, ""⟩, ⟨.tokReturn, "return"⟩, ⟨.tokIdentifier, "x"⟩, ⟨.tokSemicl, ""⟩,
    ⟨.tokClosebr, ""⟩, ⟨.tokEof, ""⟩]
  maxArgCount := 0
  funcTable := Function.update (fun _ => none) "g"
    (some { FuncInfo.fresh .dtypeInt with argCount := 2 })

/-- The node of the definition. -/
def callTwiceNode : Node :=
  (Item.func ⟨.dtypeInt, "f", .last .dtypeInt "a", .seq (.simple (.varDef .dtypeInt "x"
    (some (.unary (.call "g" (.cons (.unary (.var "a")) (.last (.unary (.var "a")))))))))
      (.seq (.ret (some (.unary (.var "x")))) .skip), 2⟩).node

theorem callTwice_run :
    check 15 .func callTwice = .ok callTwiceNode (stateOf (check 15 .func callTwice)) := by
  have hnode : (match check 15 .func callTwice with
      | .ok node _ => decide (node = callTwiceNode)
      | .error _ _ => false) = true := by decide +kernel
  cases hrun : check 15 .func callTwice with
  | ok node s =>
      rw [hrun] at hnode
      rw [of_decide_eq_true hnode]
      rfl
  | error e s =>
      rw [hrun] at hnode
      cases hnode

theorem frames_sound_small :
    ∃ f : Func, (∃ s₁, matchSyms (check 14) (signature ++ bodySyms) []
          { callTwice with maxArgCount := 0 } = .ok (some f.children) s₁) ∧
        callTwiceNode = (Item.func f).node ∧ (callTwice.funcTable f.name = none →
          WellScoped f.params.names f.body.occurrences ∧ ∃ info,
            (stateOf (check 15 .func callTwice)).funcTable =
                Function.update callTwice.funcTable f.name (some info) ∧
              info.Sound f.params.names f.body) :=
  frames_sound.2 14 callTwice _ callTwiceNode callTwice_run rfl

end Bispe
