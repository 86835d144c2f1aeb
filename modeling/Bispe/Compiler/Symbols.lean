import Bispe.Backend.Instructions
import Mathlib.Logic.Function.Basic

/-!
# Tokens and symbol tables

The tokens of `lexer.h`, and the function and variable tables of `symbols.c`.  The
hashed containers are looked up by name, so a table is a function from names; a
pointer to an entry is the name of the entry.  `malloc` does not initialise the
`addr` field of a function: until the generator sets it, it is `none`.

## Main definitions

* `TokenType`, `Token` — what the lexer hands to the parser.
* `VarInfo`, `FuncInfo`, `FuncTable` — the tables.
* `PState`, `P` — the parser's static variables, and programs over them.
* `addFunc`, `addVar`, `getFunc`, `getVar` — the operations of `symbols.c`.
-/

namespace Bispe

open Effect

/-- `token_type`. -/
inductive TokenType
  | tokEof
  | tokIdentifier
  | tokIntliteral
  | tokVoid
  | tokInt
  | tokIf
  | tokElse
  | tokWhile
  | tokFor
  | tokDo
  | tokReturn
  | tokPrint
  | tokOpenpa
  | tokClosepa
  | tokOpenbr
  | tokClosebr
  | tokComma
  | tokSemicl
  | tokEq
  | tokEqeq
  | tokNeq
  | tokGt
  | tokLt
  | tokGe
  | tokLe
  | tokPlus
  | tokMinus
  | tokStar
  | tokSlash
  | tokPercent
  deriving DecidableEq, Repr

/-- `token_t`; the list link is the list.  `val` is read of identifiers and literals
only. -/
structure Token where
  type : TokenType
  val : String
  deriving DecidableEq, Repr

/-- `dtype`. -/
inductive Dtype
  | dtypeVoid
  | dtypeInt
  deriving DecidableEq, Repr

/-- `tok_type_to_dtype`. -/
def tokTypeToDtype : TokenType → Dtype
  | .tokVoid => .dtypeVoid
  | .tokInt => .dtypeInt
  | _ => .dtypeVoid

/-- `var_info`. -/
structure VarInfo where
  type : Dtype
  /-- The address in the stack frame. -/
  pos : ℕ
  deriving DecidableEq, Repr

/-- `func_info`. -/
structure FuncInfo where
  retType : Dtype
  prototyped : Bool
  /-- The address in the code; not initialised by `add_func`. -/
  addr : Option Word
  argCount : ℕ
  varCount : ℕ
  maxCallSize : ℕ
  varTable : String → Option VarInfo

abbrev FuncTable := String → Option FuncInfo

/-- The ways the compiler ends without a result, other than an error that its
functions report to their callers. -/
inductive Abort
  /-- `exit(EXIT_FAILURE)`. -/
  | exitFailure
  /-- A `NULL` pointer is dereferenced. -/
  | nullDeref
  /-- An `int` overflows. -/
  | intOverflow
  | outOfFuel
  deriving DecidableEq, Repr

/-- The static variables of `parser.c`, `ast.c` and `symbols.c`. -/
structure PState where
  /-- The tokens from the one that is processed; `[]` is `NULL`. -/
  token : List Token
  /-- The maximum of the argument counts in the calls of the current function. -/
  maxArgCount : ℕ
  funcTable : FuncTable

abbrev P := EStateM Abort PState

/-- `get_func`: the entry of a function. -/
def getFunc (name : String) : P (Option FuncInfo) := fun s => .ok (s.funcTable name) s

/-- Store to the entry a pointer points to. -/
def setFunc (name : String) (info : FuncInfo) : P Unit := modify fun s =>
  { s with funcTable := Function.update s.funcTable name (some info) }

/-- Follow a pointer to an entry. -/
def derefFunc (name : String) : P FuncInfo := do
  match ← getFunc name with
  | none => throw .nullDeref
  | some info => pure info

/-- A fresh entry of `add_func`. -/
def FuncInfo.fresh (retType : Dtype) : FuncInfo where
  retType := retType
  prototyped := false
  addr := none
  argCount := 0
  varCount := 0
  maxCallSize := 0
  varTable := fun _ => none

/-- `add_func`; `false` is `NULL`, when there is a function of that name. -/
def addFunc (name : String) (retType : Dtype) : P Bool := do
  match ← getFunc name with
  | some _ => pure false
  | none => do
      setFunc name (.fresh retType)
      pure true

def FuncInfo.setVar (func : FuncInfo) (name : String) (var : VarInfo) : FuncInfo :=
  { func with varTable := Function.update func.varTable name (some var) }

/-- `add_var`, in the table of `func`; `none` is `NULL`, when there is a variable of
that name. -/
def addVar (name : String) (type : Dtype) (func : FuncInfo) : Option FuncInfo :=
  match func.varTable name with
  | some _ => none
  | none => some (func.setVar name ⟨type, 0⟩)

/-- `get_var`. -/
def getVar (name : String) (func : FuncInfo) : Option VarInfo := func.varTable name

end Bispe
