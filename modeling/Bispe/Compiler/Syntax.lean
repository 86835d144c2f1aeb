import Bispe.Compiler.Ast
import Mathlib.Data.List.Basic

/-!
# Programs

The trees the parser builds, as syntax: expressions, conditions, statements and
functions, one constructor for each production.  A node of `ast.c` can be any tree;
`Expr.node` and its companions say which tree a phrase of the language is.  Before
a function is registered its nodes hold names, afterwards pointers.

## Main definitions

* `Expr`, `Unary`, `Args`, `Cond`, `Stmt`, `Params`, `Item` — syntax.
* `Expr.node`, `Stmt.raw`, `Stmt.node`, `programNode` — the trees.
* `Expr.calls`, `Stmt.calls` — the calls in a phrase.
* `Stmt.defs` — the local variables it defines, in textual order.
-/

namespace Bispe

/-- The operators of expressions. -/
inductive NumOp
  | plus
  | minus
  | star
  | slash
  | percent
  deriving DecidableEq, Repr

def NumOp.tok : NumOp → TokenType
  | .plus => .tokPlus
  | .minus => .tokMinus
  | .star => .tokStar
  | .slash => .tokSlash
  | .percent => .tokPercent

/-- The operators of conditions. -/
inductive BoolOp
  | eqeq
  | neq
  | gt
  | lt
  | ge
  | le
  deriving DecidableEq, Repr

def BoolOp.tok : BoolOp → TokenType
  | .eqeq => .tokEqeq
  | .neq => .tokNeq
  | .gt => .tokGt
  | .lt => .tokLt
  | .ge => .tokGe
  | .le => .tokLe

def Dtype.tok : Dtype → TokenType
  | .dtypeVoid => .tokVoid
  | .dtypeInt => .tokInt

@[simp] theorem tokTypeToDtype_tok (d : Dtype) : tokTypeToDtype d.tok = d := by cases d <;> rfl

mutual

/-- Expressions: an operator takes all that follows as its right operand. -/
inductive Expr
  | unary (u : Unary)
  | bin (u : Unary) (op : NumOp) (e : Expr)

/-- Unary expressions. -/
inductive Unary
  | call (f : String) (args : Args)
  | var (x : String)
  | lit (n : Word)
  | paren (e : Expr)

/-- Argument lists; a trailing comma leaves an empty one at the end. -/
inductive Args
  | empty
  | last (e : Expr)
  | cons (e : Expr) (args : Args)

end

structure Cond where
  left : Expr
  op : BoolOp
  right : Expr

/-- Definitions and assignments. -/
inductive Simple
  | varDef (type : Dtype) (x : String) (init : Option Expr)
  | varAssign (x : String) (e : Expr)

/-- Statements and sequences of statements. -/
inductive Stmt
  | skip
  | seq (s rest : Stmt)
  | simple (s : Simple)
  | call (f : String) (args : Args)
  | print (e : Expr)
  | ret (e : Option Expr)
  | ifThen (c : Cond) (s : Stmt)
  | ifElse (c : Cond) (s₁ s₂ : Stmt)
  | whileLoop (c : Cond) (body : Stmt)
  | forLoop (init : Simple) (c : Cond) (x : String) (e : Expr) (body : Stmt)
  | doLoop (body : Stmt) (c : Cond)

/-- Parameter lists; any of them can end in `void`. -/
inductive Params
  | void
  | last (type : Dtype) (x : String)
  | cons (type : Dtype) (x : String) (params : Params)

/-- A definition, with the argument count the parser had recorded at its end. -/
structure Func where
  ret : Dtype
  name : String
  params : Params
  body : Stmt
  maxCall : ℕ

/-- A prototype. -/
structure Proto where
  ret : Dtype
  name : String
  params : Params

inductive Item
  | proto (p : Proto)
  | func (f : Func)

/-! ## Trees -/

/-- A node with up to two children. -/
def inner (type : AstType) (left : Node) (middle : Node := .null) : Node :=
  .mk type .uninit left middle .null

def numopNode (op : NumOp) : Node := inner .astNumop (allocNode .astNumopLeaf (.type op.tok))

def boolopNode (op : BoolOp) : Node := inner .astBoolop (allocNode .astBoolopLeaf (.type op.tok))

def typeNode (d : Dtype) : Node := inner .astType (allocNode .astTypeleaf (.type d.tok))

def emptyNode : Node := allocNode .astEmpty .uninit

def identNode (x : String) : Node := allocNode .astIdentifier (.str x)

section Trees
variable (ref : String → NodeVal)

mutual

/-- The tree of an expression in which the variable `x` is stored as `ref x`. -/
def Expr.node : Expr → Node
  | .unary u => inner .astExpression u.node
  | .bin u op e => .mk .astExpression .uninit u.node (numopNode op) e.node

def Unary.node : Unary → Node
  | .call f args => inner .astExpression1 (.mk .astRetFcall (.func f) args.node .null .null)
  | .var x => inner .astExpression1 (allocNode .astIdentifier (ref x))
  | .lit n => inner .astExpression1 (allocNode .astIntliteral (.number n))
  | .paren e => inner .astExpression1 e.node

def Args.node : Args → Node
  | .empty => emptyNode
  | .last e => inner .astFcallArglist e.node
  | .cons e args => inner .astFcallArglist e.node args.node

end

theorem Expr.node_ne_null (e : Expr) : e.node ref ≠ .null := by
  cases e <;> simp [Expr.node, inner]

theorem Unary.node_ne_null (u : Unary) : u.node ref ≠ .null := by
  cases u <;> simp [Unary.node, inner]

def Cond.node (c : Cond) : Node :=
  .mk .astCondition .uninit (c.left.node ref) (boolopNode c.op) (c.right.node ref)

/-- The tree of an optional expression. -/
def exprNode? : Option Expr → Node
  | none => .null
  | some e => e.node ref

/-- The tree of a statement, by the trees of its definitions and assignments. -/
def Stmt.nodeWith (simple : Simple → Node) : Stmt → Node
  | .skip => emptyNode
  | .seq s rest => inner .astSequence (s.nodeWith simple) (rest.nodeWith simple)
  | .simple s => inner .astStatement (simple s)
  | .call f args => inner .astStatement (.mk .astFcall (.func f) (args.node ref) .null .null)
  | .print e => inner .astStatement (inner .astPrint (e.node ref))
  | .ret e => inner .astStatement (inner .astReturn (exprNode? ref e))
  | .ifThen c s => inner .astBranch (c.node ref) (s.nodeWith simple)
  | .ifElse c s₁ s₂ =>
      .mk .astBranch .uninit (c.node ref) (s₁.nodeWith simple) (s₂.nodeWith simple)
  | .whileLoop c body => inner .astLoop (c.node ref) (body.nodeWith simple)
  | .forLoop init c x e body => inner .astLoop
      (.mk .astForLoopHead .uninit (simple init) (c.node ref) (simple (.varAssign x e)))
      (body.nodeWith simple)
  | .doLoop body c => inner .astLoop (body.nodeWith simple) (c.node ref)

end Trees

/-- A definition or an assignment as it is matched. -/
def Simple.raw : Simple → Node
  | .varDef type x init =>
      .mk .astVarDef .uninit (typeNode type) (identNode x) (exprNode? .str init)
  | .varAssign x e => inner .astVarAssign (identNode x) (e.node .str)

/-- A definition or an assignment in a registered function. -/
def Simple.node (name : String) : Simple → Node
  | .varDef _ x init => .mk .astVarDef (.var name x) (exprNode? (.var name) init) .null .null
  | .varAssign x e => .mk .astVarAssign (.var name x) (e.node (.var name)) .null .null

/-- A statement as it is matched. -/
def Stmt.raw (s : Stmt) : Node := s.nodeWith .str Simple.raw

/-- A statement of a registered function. -/
def Stmt.node (name : String) (s : Stmt) : Node := s.nodeWith (.var name) (Simple.node name)

def argdefNode (type : Dtype) (x : String) : Node := inner .astArgdef (typeNode type) (identNode x)

def Params.node : Params → Node
  | .void => inner .astArgdeflist .null
  | .last type x => inner .astArgdeflist (argdefNode type x)
  | .cons type x params => inner .astArgdeflist (argdefNode type x) params.node

/-- The tree of a function or prototype in the program. -/
def Item.node : Item → Node
  | .proto _ => allocNode .astInner .uninit
  | .func f => .mk .astFunction (.func f.name) (f.body.node f.name) .null .null

def programNode : List Item → Node
  | [] => emptyNode
  | item :: items => inner .astInner item.node (programNode items)

def headNode (items : List Item) : Node := inner .astHead (programNode items)

/-- What the action of a definition or prototype is given. -/
def Proto.children (p : Proto) : List Node := [typeNode p.ret, identNode p.name, p.params.node]

def Func.proto (f : Func) : Proto := ⟨f.ret, f.name, f.params⟩

def Func.children (f : Func) : List Node := f.proto.children ++ [f.body.raw]

/-! ## Parts -/

def Params.names : Params → List String
  | .void => []
  | .last _ x => [x]
  | .cons _ x params => x :: params.names

def Args.count : Args → ℕ
  | .empty => 0
  | .last _ => 1
  | .cons _ args => args.count + 1

/-- A call, and whether its value is used. -/
structure Call where
  callee : String
  argCount : ℕ
  mustReturn : Bool
  deriving DecidableEq, Repr

mutual

def Expr.calls : Expr → List Call
  | .unary u => u.calls
  | .bin u _ e => u.calls ++ e.calls

def Unary.calls : Unary → List Call
  | .call f args => args.calls ++ [⟨f, args.count, true⟩]
  | .var _ => []
  | .lit _ => []
  | .paren e => e.calls

def Args.calls : Args → List Call
  | .empty => []
  | .last e => e.calls
  | .cons e args => e.calls ++ args.calls

end

def Cond.calls (c : Cond) : List Call := c.left.calls ++ c.right.calls

/-- The calls of an optional expression. -/
def exprCalls? : Option Expr → List Call
  | none => []
  | some e => e.calls

def Simple.calls : Simple → List Call
  | .varDef _ _ init => exprCalls? init
  | .varAssign _ e => e.calls

def Stmt.calls : Stmt → List Call
  | .skip => []
  | .seq s rest => s.calls ++ rest.calls
  | .simple s => s.calls
  | .call f args => args.calls ++ [⟨f, args.count, false⟩]
  | .print e => e.calls
  | .ret e => exprCalls? e
  | .ifThen c s => c.calls ++ s.calls
  | .ifElse c s₁ s₂ => c.calls ++ s₁.calls ++ s₂.calls
  | .whileLoop c body => c.calls ++ body.calls
  | .forLoop init c _ e body => init.calls ++ c.calls ++ e.calls ++ body.calls
  | .doLoop body c => body.calls ++ c.calls

mutual

/-- The variables an expression uses. -/
def Expr.vars : Expr → List String
  | .unary u => u.vars
  | .bin u _ e => u.vars ++ e.vars

def Unary.vars : Unary → List String
  | .call _ args => args.vars
  | .var x => [x]
  | .lit _ => []
  | .paren e => e.vars

def Args.vars : Args → List String
  | .empty => []
  | .last e => e.vars
  | .cons e args => e.vars ++ args.vars

end

def Cond.vars (c : Cond) : List String := c.left.vars ++ c.right.vars

/-- The variables an optional expression uses. -/
def exprVars? : Option Expr → List String
  | none => []
  | some e => e.vars

/-- The variables used or assigned. -/
def Simple.vars : Simple → List String
  | .varDef _ _ init => exprVars? init
  | .varAssign x e => x :: e.vars

def Stmt.vars : Stmt → List String
  | .skip => []
  | .seq s rest => s.vars ++ rest.vars
  | .simple s => s.vars
  | .call _ args => args.vars
  | .print e => e.vars
  | .ret e => exprVars? e
  | .ifThen c s => c.vars ++ s.vars
  | .ifElse c s₁ s₂ => c.vars ++ (s₁.vars ++ s₂.vars)
  | .whileLoop c body => c.vars ++ body.vars
  | .forLoop init c x e body => init.vars ++ (c.vars ++ (x :: e.vars) ++ body.vars)
  | .doLoop body c => body.vars ++ c.vars

def Simple.defs : Simple → List String
  | .varDef _ x _ => [x]
  | .varAssign .. => []

def Stmt.defs : Stmt → List String
  | .skip => []
  | .seq s rest => s.defs ++ rest.defs
  | .simple s => s.defs
  | .call .. => []
  | .print _ => []
  | .ret _ => []
  | .ifThen _ s => s.defs
  | .ifElse _ s₁ s₂ => s₁.defs ++ s₂.defs
  | .whileLoop _ body => body.defs
  | .forLoop init _ _ _ body => init.defs ++ body.defs
  | .doLoop body _ => body.defs

end Bispe
