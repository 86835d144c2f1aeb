import Bispe.Compiler.Symbols
import Mathlib.Data.Int.Notation

/-!
# The abstract syntax tree

The functions of `ast.c`: the creation of leaves, and the semantic actions that
run when a function, a prototype or a call has been matched.  A node is a tree;
`val` is a union, of which a node has the member its type calls for.  Pointers to
symbols are the names under which the symbols are stored.

The actions work on one entry of the function table, which is passed and returned
here and stored back when the action is over.  One that fails returns the entry as
it leaves it.

## Main definitions

* `AstType`, `NodeVal`, `Node` — `node_t`.
* `strtol`, `createIntliteral` — literals.
* `registerArgs`, `registerLocVars`, `calculateArgAddresses`, `checkReturnValidity`.
* `registerFunctionPrototype`, `registerFunction`, `createFcall`, `createNode`.
-/

namespace Bispe

/-- `ast_type`. -/
inductive AstType
  | astHead
  | astEmpty
  | astInner
  | astIdentifier
  | astIntliteral
  | astType
  | astTypeleaf
  | astVarDef
  | astVarAssign
  | astPrint
  | astReturn
  | astExpression
  | astExpression1
  | astNumop
  | astNumopLeaf
  | astBoolop
  | astBoolopLeaf
  | astCondition
  | astStatement
  | astSequence
  | astBranch
  | astForLoopHead
  | astLoop
  | astFcallArglist
  | astFcall
  | astRetFcall
  | astArgdef
  | astArgdeflist
  | astFunction
  | astFunctionProto
  deriving DecidableEq, Repr

/-- `union val`. -/
inductive NodeVal
  /-- Not initialised. -/
  | uninit
  | str (name : String)
  | type (type : TokenType)
  | number (number : Word)
  /-- A pointer to a function. -/
  | func (name : String)
  /-- A pointer to a variable of a function. -/
  | var (func name : String)
  deriving DecidableEq, Repr

/-- `node_t`. -/
inductive Node
  | null
  | mk (type : AstType) (val : NodeVal) (left middle right : Node)
  deriving DecidableEq, Repr

namespace Node

def type : Node → Option AstType
  | null => none
  | mk type .. => some type

def left : Node → Node
  | null => null
  | mk _ _ l _ _ => l

def middle : Node → Node
  | null => null
  | mk _ _ _ m _ => m

/-- `val.str`. -/
def str : Node → String
  | mk _ (.str name) _ _ _ => name
  | _ => ""

/-- `val.type`. -/
def tokType : Node → TokenType
  | mk _ (.type type) _ _ _ => type
  | _ => .tokEof

end Node

/-- `alloc_node`, with a type and a value. -/
def allocNode (type : AstType) (val : NodeVal) : Node := .mk type val .null .null .null

/-! ## Leaves -/

/-- `isspace`. -/
def isSpace (ch : Char) : Bool :=
  ch = ' ' ∨ ch = '\t' ∨ ch = '\n' ∨ ch = '\x0b' ∨ ch = '\x0c' ∨ ch = '\r'

/-- The value of a digit or letter, if there is one. -/
def digitVal (ch : Char) : Option ℕ :=
  if '0' ≤ ch ∧ ch ≤ '9' then some (ch.toNat - '0'.toNat)
  else if 'a' ≤ ch ∧ ch ≤ 'z' then some (ch.toNat - 'a'.toNat + 10)
  else if 'A' ≤ ch ∧ ch ≤ 'Z' then some (ch.toNat - 'A'.toNat + 10)
  else none

/-- The number that the longest prefix of digits of a base denotes. -/
def scanDigits (base : ℕ) (acc : ℕ) : List Char → ℕ
  | [] => acc
  | ch :: rest =>
      match digitVal ch with
      | some d => if d < base then scanDigits base (acc * base + d) rest else acc
      | none => acc

/-- The prefix that base 0 looks for. -/
def scanNumber : List Char → ℕ
  | '0' :: x :: ch :: rest =>
      if (x = 'x' ∨ x = 'X') ∧ ((digitVal ch).getD 16) < 16
      then scanDigits 16 0 (ch :: rest)
      else scanDigits 8 0 (x :: ch :: rest)
  | '0' :: rest => scanDigits 8 0 rest
  | str => scanDigits 10 0 str

/-- `strtol(str, NULL, 0)` with a `long` of 64 bits; `none` is `ERANGE`. -/
def strtol (str : List Char) : Option ℤ :=
  let number : ℤ := match str.dropWhile isSpace with
    | '-' :: rest => -(scanNumber rest : ℤ)
    | '+' :: rest => scanNumber rest
    | rest => scanNumber rest
  if -2 ^ 63 ≤ number ∧ number < 2 ^ 63 then some number else none

def createIdentifier (token : Token) : P Node := pure (allocNode .astIdentifier (.str token.val))

/-- The number of a literal, an `int32_t`. -/
def literalNumber (token : Token) : P Word :=
  match strtol token.val.toList with
  | none => throw .exitFailure
  | some number =>
      if 2 ^ 32 - 1 < number ∨ number < -2 ^ 31 then throw .exitFailure
      else pure (BitVec.ofInt 32 number)

def createIntliteral (token : Token) : P Node := do
  let number ← literalNumber token
  pure (allocNode .astIntliteral (.number number))

/-- The product with `-1` is taken modulo `2 ^ 32`. -/
def createNegIntliteral (token : Token) : P Node := do
  let number ← literalNumber token
  pure (allocNode .astIntliteral (.number (-number)))

def createNumop (token : Token) : P Node := pure (allocNode .astNumopLeaf (.type token.type))

def createBoolop (token : Token) : P Node := pure (allocNode .astBoolopLeaf (.type token.type))

def createType (token : Token) : P Node := pure (allocNode .astTypeleaf (.type token.type))

/-! ## Functions -/

/-- `check_return_validity`, by the return type of the function. -/
def checkReturnValidity (retType : Dtype) : Node → Bool
  | .null => true
  | .mk .astReturn _ left _ _ =>
      if left ≠ .null ∧ retType = .dtypeVoid then false
      else if left = .null ∧ retType ≠ .dtypeVoid then false
      else true
  | .mk _ _ left middle right =>
      checkReturnValidity retType left && checkReturnValidity retType middle &&
        checkReturnValidity retType right

/-- `register_loc_vars`: enter the definitions of a tree into the table of the
function, and make every identifier a pointer to its variable. -/
def registerLocVars (name : String) (func : FuncInfo) : Node → Except FuncInfo (FuncInfo × Node)
  | .null => pure (func, .null)
  | .mk .astVarDef _ left middle right => do
      let type := tokTypeToDtype left.left.tokType
      match addVar middle.str type func with
      | none => throw func
      | some func =>
          let func := func.setVar middle.str ⟨type, func.maxCallSize + func.varCount⟩
          let func := { func with varCount := func.varCount + 1 }
          let (func, expr) ← registerLocVars name func right
          pure (func, .mk .astVarDef (.var name middle.str) expr .null .null)
  | .mk .astVarAssign _ left middle right => do
      match getVar left.str func with
      | none => throw func
      | some _ =>
          let (func, expr) ← registerLocVars name func middle
          pure (func, .mk .astVarAssign (.var name left.str) expr .null right)
  | .mk .astIdentifier (.str x) left middle right => do
      match getVar x func with
      | none => throw func
      | some _ => pure (func, .mk .astIdentifier (.var name x) left middle right)
  | .mk type val left middle right => do
      let (func, left) ← registerLocVars name func left
      let (func, middle) ← registerLocVars name func middle
      let (func, right) ← registerLocVars name func right
      pure (func, .mk type val left middle right)

/-- `calculate_arg_addresses`: make the positions of the arguments absolute. -/
def calculateArgAddresses (func : FuncInfo) : Node → Except Abort FuncInfo
  | .null => pure func
  | .mk .astArgdef _ _ middle _ =>
      match getVar middle.str func with
      | none => throw .nullDeref
      | some var => pure <| func.setVar middle.str
          { var with pos := var.pos + func.varCount + func.maxCallSize }
  | .mk _ _ left middle _ => do
      let func ← calculateArgAddresses func left
      calculateArgAddresses func middle

/-- `register_args`: enter the arguments, with positions relative to the first. -/
def registerArgs (func : FuncInfo) : Node → Except FuncInfo FuncInfo
  | .null => pure func
  | .mk .astArgdef _ left middle _ =>
      let type := tokTypeToDtype left.left.tokType
      match addVar middle.str type func with
      | none => throw func
      | some func =>
          let func := func.setVar middle.str ⟨type, func.argCount + 1⟩
          pure { func with argCount := func.argCount + 1 }
  | .mk _ _ left middle _ => do
      let func ← registerArgs func left
      registerArgs func middle

/-- The third and later children are read by position. -/
def child (children : List Node) (i : ℕ) : Node := children.getD i .null

/-- Store the entry an action has worked on, and go on if it succeeded. -/
def commit {α : Type} (name : String) : Except FuncInfo α → (α → P Node) → P Node
  | .error func, _ => do
      setFunc name func
      pure .null
  | .ok a, next => next a

/-- `register_function_prototype`. -/
def registerFunctionPrototype (children : List Node) : P Node := do
  let retType := tokTypeToDtype (child children 0).left.tokType
  let name := (child children 1).str
  if ← addFunc name retType then
    let func ← derefFunc name
    commit name (registerArgs { func with prototyped := true } (child children 2)) fun func => do
      setFunc name func
      pure (allocNode .astInner .uninit)
  else
    pure .null

/-- The entry `register_function` starts from: a new one, with the arguments
registered, or that of a prototype. -/
def openFunction (retType : Dtype) (arglist : Node) :
    Option FuncInfo → Option (Except FuncInfo FuncInfo)
  | none => some (registerArgs (.fresh retType) arglist)
  | some func => if func.prototyped then some (.ok { func with prototyped := false }) else none

/-- `register_function`, from the entry it starts from. -/
def registerBody (name : String) (maxArgCount : ℕ) (func : FuncInfo) (arglist body : Node) :
    P Node :=
  commit name (registerLocVars name { func with maxCallSize := maxArgCount } body)
    fun (func, body) => do
      match calculateArgAddresses func arglist with
      | .error e => throw e
      | .ok func =>
          setFunc name func
          if checkReturnValidity func.retType body then
            pure (.mk .astFunction (.func name) body .null .null)
          else
            pure .null

/-- `register_function`. -/
def registerFunction (children : List Node) : P Node := do
  let retType := tokTypeToDtype (child children 0).left.tokType
  let name := (child children 1).str
  let arglist := child children 2
  match openFunction retType arglist (← getFunc name) with
  | none => pure .null
  | some func =>
      commit name func fun func => do
        let s ← get
        registerBody name s.maxArgCount func arglist (child children 3)

/-- The number of arguments in a list. -/
def countArgs : Node → ℕ
  | .mk .astFcallArglist _ _ middle _ => countArgs middle + 1
  | _ => 0

/-- `create_fcall`. -/
def createFcall (type : AstType) (children : List Node) (mustReturn : Bool) : P Node := do
  let name := (child children 0).str
  match ← getFunc name with
  | none => pure .null
  | some func =>
      if mustReturn ∧ func.retType = .dtypeVoid then pure .null
      else
        let argCount := countArgs (child children 1)
        if argCount ≠ func.argCount then pure .null
        else
          modify fun s => { s with maxArgCount := max s.maxArgCount argCount }
          pure (.mk type (.func name) (child children 1) .null .null)

/-- `create_node`; a result of `null` is an error. -/
def createNode (type : AstType) (children : List Node) : P Node :=
  match type with
  | .astFunction => registerFunction children
  | .astFunctionProto => registerFunctionPrototype children
  | .astFcall => createFcall .astFcall children false
  | .astRetFcall => createFcall .astRetFcall children true
  | _ => pure (.mk type .uninit (child children 0) (child children 1) (child children 2))

def createEmpty : P Node := pure (allocNode .astEmpty .uninit)

end Bispe
