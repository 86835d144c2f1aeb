import Bispe.Compiler.Ast

/-!
# The parser

`parser.c` tries the productions of a nonterminal one after another, and goes back
to the token it started from when one does not match.  The productions are data:
a table for every `check_*` function, in the order in which the function tries them.

## Main definitions

* `Check`, `Sym`, `Rule` — nonterminals, the symbols of a production, and all
  productions of a nonterminal.
* `matchProd` — match one production and build its node.
* `check` — the `check_*` functions.
* `parseTokenlist` — the whole parser.
-/

namespace Bispe

/-- The `check_*` functions. -/
inductive Check
  | type
  | varDef
  | varAssign
  | print
  | return
  | expr
  | expr1
  | cond
  | numop
  | boolop
  | statement
  | sequence
  | branch
  | forLoopHead
  | loop
  | fcallArglist
  | retFcall
  | fcall
  | argdef
  | argdeflist
  | func
  | program
  deriving DecidableEq, Repr

/-- The functions that make a node of a token. -/
inductive Creator
  | identifier
  | intliteral
  | negIntliteral
  | numop
  | boolop
  | type
  deriving DecidableEq, Repr

def Creator.create : Creator → Token → P Node
  | .identifier => createIdentifier
  | .intliteral => createIntliteral
  | .negIntliteral => createNegIntliteral
  | .numop => createNumop
  | .boolop => createBoolop
  | .type => createType

/-- `sym_t`. -/
inductive Sym
  | terminal (type : TokenType) (create : Option Creator)
  | nonterminal (check : Check)
  deriving DecidableEq, Repr

/-- A terminal without a node. -/
def tok (type : TokenType) : Sym := .terminal type none

/-- The body of a `check_*` function: its productions with the types of their nodes,
and whether it accepts the empty word in the end. -/
structure Rule where
  prods : List (List Sym × AstType)
  acceptsEmpty : Bool

def identifier : Sym := .terminal .tokIdentifier (some .identifier)

def checkType : Rule where
  prods := [
    ([.terminal .tokVoid (some .type)], .astType),
    ([.terminal .tokInt (some .type)], .astType)]
  acceptsEmpty := false

def checkVarDef : Rule where
  prods := [
    ([.nonterminal .type, identifier, tok .tokEq, .nonterminal .expr], .astVarDef),
    ([.nonterminal .type, identifier], .astVarDef)]
  acceptsEmpty := false

def checkVarAssign : Rule where
  prods := [
    ([identifier, tok .tokEq, .nonterminal .expr], .astVarAssign)]
  acceptsEmpty := false

def checkPrint : Rule where
  prods := [
    ([tok .tokPrint, .nonterminal .expr], .astPrint)]
  acceptsEmpty := false

def checkReturn : Rule where
  prods := [
    ([tok .tokReturn, .nonterminal .expr], .astReturn),
    ([tok .tokReturn], .astReturn)]
  acceptsEmpty := false

def checkExpr : Rule where
  prods := [
    ([.nonterminal .expr1, .nonterminal .numop, .nonterminal .expr], .astExpression),
    ([.nonterminal .expr1], .astExpression)]
  acceptsEmpty := false

def checkExpr1 : Rule where
  prods := [
    ([.nonterminal .retFcall], .astExpression1),
    ([identifier], .astExpression1),
    ([.terminal .tokIntliteral (some .intliteral)], .astExpression1),
    ([tok .tokMinus, .terminal .tokIntliteral (some .negIntliteral)], .astExpression1),
    ([tok .tokOpenpa, .nonterminal .expr, tok .tokClosepa], .astExpression1)]
  acceptsEmpty := false

def checkCond : Rule where
  prods := [
    ([.nonterminal .expr, .nonterminal .boolop, .nonterminal .expr], .astCondition)]
  acceptsEmpty := false

def checkNumop : Rule where
  prods := [
    ([.terminal .tokPlus (some .numop)], .astNumop),
    ([.terminal .tokMinus (some .numop)], .astNumop),
    ([.terminal .tokStar (some .numop)], .astNumop),
    ([.terminal .tokSlash (some .numop)], .astNumop),
    ([.terminal .tokPercent (some .numop)], .astNumop)]
  acceptsEmpty := false

def checkBoolop : Rule where
  prods := [
    ([.terminal .tokEqeq (some .boolop)], .astBoolop),
    ([.terminal .tokNeq (some .boolop)], .astBoolop),
    ([.terminal .tokGt (some .boolop)], .astBoolop),
    ([.terminal .tokLt (some .boolop)], .astBoolop),
    ([.terminal .tokGe (some .boolop)], .astBoolop),
    ([.terminal .tokLe (some .boolop)], .astBoolop)]
  acceptsEmpty := false

def checkStatement : Rule where
  prods := [
    ([.nonterminal .varDef, tok .tokSemicl], .astStatement),
    ([.nonterminal .varAssign, tok .tokSemicl], .astStatement),
    ([.nonterminal .fcall, tok .tokSemicl], .astStatement),
    ([.nonterminal .print, tok .tokSemicl], .astStatement),
    ([.nonterminal .return, tok .tokSemicl], .astStatement)]
  acceptsEmpty := false

def checkSequence : Rule where
  prods := [
    ([.nonterminal .statement, .nonterminal .sequence], .astSequence),
    ([.nonterminal .branch, .nonterminal .sequence], .astSequence),
    ([.nonterminal .loop, .nonterminal .sequence], .astSequence)]
  acceptsEmpty := true

def checkBranch : Rule where
  prods := [
    ([tok .tokIf, tok .tokOpenpa, .nonterminal .cond, tok .tokClosepa,
      tok .tokOpenbr, .nonterminal .sequence, tok .tokClosebr,
      tok .tokElse, tok .tokOpenbr, .nonterminal .sequence, tok .tokClosebr], .astBranch),
    ([tok .tokIf, tok .tokOpenpa, .nonterminal .cond, tok .tokClosepa,
      tok .tokOpenbr, .nonterminal .sequence, tok .tokClosebr], .astBranch)]
  acceptsEmpty := false

def checkForLoopHead : Rule where
  prods := [
    ([.nonterminal .varDef, tok .tokSemicl, .nonterminal .cond, tok .tokSemicl,
      .nonterminal .varAssign], .astForLoopHead),
    ([.nonterminal .varAssign, tok .tokSemicl, .nonterminal .cond, tok .tokSemicl,
      .nonterminal .varAssign], .astForLoopHead)]
  acceptsEmpty := false

def checkLoop : Rule where
  prods := [
    ([tok .tokWhile, tok .tokOpenpa, .nonterminal .cond, tok .tokClosepa,
      tok .tokOpenbr, .nonterminal .sequence, tok .tokClosebr], .astLoop),
    ([tok .tokFor, tok .tokOpenpa, .nonterminal .forLoopHead, tok .tokClosepa,
      tok .tokOpenbr, .nonterminal .sequence, tok .tokClosebr], .astLoop),
    ([tok .tokDo, tok .tokOpenbr, .nonterminal .sequence, tok .tokClosebr,
      tok .tokWhile, tok .tokOpenpa, .nonterminal .cond, tok .tokClosepa,
      tok .tokSemicl], .astLoop)]
  acceptsEmpty := false

def checkFcallArglist : Rule where
  prods := [
    ([.nonterminal .expr, tok .tokComma, .nonterminal .fcallArglist], .astFcallArglist),
    ([.nonterminal .expr], .astFcallArglist)]
  acceptsEmpty := true

def checkRetFcall : Rule where
  prods := [
    ([identifier, tok .tokOpenpa, .nonterminal .fcallArglist, tok .tokClosepa], .astRetFcall)]
  acceptsEmpty := false

def checkFcall : Rule where
  prods := [
    ([identifier, tok .tokOpenpa, .nonterminal .fcallArglist, tok .tokClosepa], .astFcall)]
  acceptsEmpty := false

def checkArgdef : Rule where
  prods := [
    ([.nonterminal .type, identifier], .astArgdef)]
  acceptsEmpty := false

def checkArgdeflist : Rule where
  prods := [
    ([.nonterminal .argdef, tok .tokComma, .nonterminal .argdeflist], .astArgdeflist),
    ([.nonterminal .argdef], .astArgdeflist),
    ([tok .tokVoid], .astArgdeflist)]
  acceptsEmpty := false

/-- What definitions and prototypes begin with. -/
def signature : List Sym :=
  [.nonterminal .type, identifier, tok .tokOpenpa, .nonterminal .argdeflist, tok .tokClosepa]

def checkFunc : Rule where
  prods := [
    (signature ++ [tok .tokOpenbr, .nonterminal .sequence, tok .tokClosebr], .astFunction),
    (signature ++ [tok .tokSemicl], .astFunctionProto)]
  acceptsEmpty := false

def checkProgram : Rule where
  prods := [
    ([.nonterminal .func, .nonterminal .program], .astInner)]
  acceptsEmpty := true

def Check.rule : Check → Rule
  | .type => checkType
  | .varDef => checkVarDef
  | .varAssign => checkVarAssign
  | .print => checkPrint
  | .return => checkReturn
  | .expr => checkExpr
  | .expr1 => checkExpr1
  | .cond => checkCond
  | .numop => checkNumop
  | .boolop => checkBoolop
  | .statement => checkStatement
  | .sequence => checkSequence
  | .branch => checkBranch
  | .forLoopHead => checkForLoopHead
  | .loop => checkLoop
  | .fcallArglist => checkFcallArglist
  | .retFcall => checkRetFcall
  | .fcall => checkFcall
  | .argdef => checkArgdef
  | .argdeflist => checkArgdeflist
  | .func => checkFunc
  | .program => checkProgram

/-! ## Matching -/

def getToken : P (List Token) := fun s => .ok s.token s

def setToken (token : List Token) : P Unit := modify fun s => { s with token := token }

def setMaxArgCount (i : ℕ) : P Unit := modify fun s => { s with maxArgCount := i }

/-- Append the node a terminal makes, if it makes one. -/
def createChild (create : Option Creator) (token : Token) (children : List Node) :
    P (List Node) :=
  match create with
  | none => pure children
  | some creator => do
      let node ← creator.create token
      pure (children ++ [node])

/-- The loop of `match_prod`: the children, or `none` if the symbols do not match.  A
token that does not match is passed over all the same. -/
def matchSyms (check : Check → P Node) : List Sym → List Node → P (Option (List Node))
  | [], children => pure (some children)
  | .terminal type create :: prod, children => do
      match ← getToken with
      | [] => pure none
      | token :: next =>
          if token.type = type then
            let children ← createChild create token children
            setToken next
            matchSyms check prod children
          else
            setToken next
            pure none
  | .nonterminal c :: prod, children => do
      match ← getToken with
      | [] => pure none
      | _ :: _ =>
          let node ← check c
          if node = .null then pure none else matchSyms check prod (children ++ [node])

/-- `match_prod`. -/
def matchProd (check : Check → P Node) (type : AstType) (prod : List Sym) : P Node := do
  match ← matchSyms check prod [] with
  | none => pure .null
  | some children => createNode type children

/-- `TRY_MATCHING` for each production, then the end of the function. -/
def tryMatching (check : Check → P Node) (tokenSaved : List Token) (acceptsEmpty : Bool) :
    List (List Sym × AstType) → P Node
  | [] => if acceptsEmpty then createEmpty else pure .null
  | (prod, type) :: prods => do
      let node ← matchProd check type prod
      if node = .null then
        setToken tokenSaved
        tryMatching check tokenSaved acceptsEmpty prods
      else
        pure node

/-- The `check_*` functions, with a bound on the depth of their recursion. -/
def check : ℕ → Check → P Node
  | 0, _ => throw .outOfFuel
  | fuel + 1, c => do
      let tokenSaved ← getToken
      if c = .func then setMaxArgCount 0
      tryMatching (check fuel) tokenSaved c.rule.acceptsEmpty c.rule.prods

/-- `check_start`. -/
def checkStart (fuel : ℕ) : P Node :=
  matchProd (check fuel) .astHead [.nonterminal .program, tok .tokEof]

/-- The static variables before a compilation. -/
def PState.initial (first : List Token) : PState where
  token := first
  maxArgCount := 0
  funcTable := fun _ => none

/-- `parse_tokenlist`: the tree, or `null`, and the symbol tables. -/
def parseTokenlist (fuel : ℕ) (first : List Token) : EStateM.Result Abort PState Node :=
  checkStart fuel (.initial first)

end Bispe
