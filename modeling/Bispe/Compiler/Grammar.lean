import Bispe.Lib.OrderedChoice
import Bispe.Compiler.Parsing
import Mathlib.Data.Fintype.Sets

/-!
# The grammar of the parser

The production tables of `parser.c` without their order, as a context-free grammar,
and what the parser accepts.  Whether a production is matched depends on the token
types only, as long as no semantic action fails.  `trace` is the parser that stops
where one does, and that tells which productions it used in the end.

## Main definitions

* `Check.productions`, `startSymbols` — the grammar.
* `Check.starts`, `Check.follow` — what phrases begin with, and what comes after them.
* `trace`, `traceStart` — the parser with a record of the productions it used.
* `ActionsSucceed` — no semantic action fails on a token list.
-/

namespace Bispe

open Effect Grammar

/-- The nonterminals. -/
def Check.all : List Check :=
  [.type, .varDef, .varAssign, .print, .return, .expr, .expr1, .cond, .numop, .boolop, .statement,
   .sequence, .branch, .forLoopHead, .loop, .fcallArglist, .retFcall, .fcall, .argdef, .argdeflist,
   .func, .program]

instance : Fintype Check := .ofList Check.all fun c => by cases c <;> decide

/-- A symbol of the grammar. -/
abbrev GSym := Symbol TokenType Check

/-- Symbols are matched by token type or by `check_*` function. -/
def Sym.symbol : Sym → GSym
  | .terminal type _ => .terminal type
  | .nonterminal c => .nonterminal c

/-- The productions of a nonterminal, with the empty one last if there is one. -/
def Check.productions (c : Check) : List (List GSym) :=
  c.rule.prods.map (fun p => p.1.map Sym.symbol) ++ if c.rule.acceptsEmpty then [[]] else []

/-- The production of `check_start`. -/
def startProd : List Sym := [.nonterminal .program, tok .tokEof]

def startSymbols : List GSym := startProd.map Sym.symbol

/-! ## Lookahead -/

/-- A type and a name. -/
def defStarts : List (Peek TokenType) :=
  [(.tokVoid, some .tokIdentifier), (.tokInt, some .tokIdentifier)]

def exprStarts : List (Peek TokenType) :=
  [(.tokIdentifier, some .tokOpenpa), (.tokIdentifier, none), (.tokIntliteral, none),
   (.tokMinus, some .tokIntliteral), (.tokOpenpa, none)]

def statementStarts : List (Peek TokenType) :=
  defStarts ++ [(.tokIdentifier, some .tokEq), (.tokIdentifier, some .tokOpenpa), (.tokPrint, none),
    (.tokReturn, none)]

def loopStarts : List (Peek TokenType) :=
  [(.tokWhile, some .tokOpenpa), (.tokFor, some .tokOpenpa), (.tokDo, some .tokOpenbr)]

/-- What the words of a nonterminal begin with. -/
def Check.starts : Check → List (Peek TokenType)
  | .type => [(.tokVoid, none), (.tokInt, none)]
  | .varDef | .argdef | .func | .program => defStarts
  | .varAssign => [(.tokIdentifier, some .tokEq)]
  | .print => [(.tokPrint, none)]
  | .return => [(.tokReturn, none)]
  | .expr | .expr1 | .cond | .fcallArglist => exprStarts
  | .numop =>
      [(.tokPlus, none), (.tokMinus, none), (.tokStar, none), (.tokSlash, none),
       (.tokPercent, none)]
  | .boolop =>
      [(.tokEqeq, none), (.tokNeq, none), (.tokGt, none), (.tokLt, none), (.tokGe, none),
       (.tokLe, none)]
  | .statement => statementStarts
  | .branch => [(.tokIf, some .tokOpenpa)]
  | .loop => loopStarts
  | .sequence => statementStarts ++ [(.tokIf, some .tokOpenpa)] ++ loopStarts
  | .forLoopHead => defStarts ++ [(.tokIdentifier, some .tokEq)]
  | .retFcall | .fcall => [(.tokIdentifier, some .tokOpenpa)]
  | .argdeflist => (.tokVoid, none) :: defStarts

/-- What comes after an expression. -/
def exprFollow : List TokenType :=
  [.tokSemicl, .tokClosepa, .tokComma, .tokEqeq, .tokNeq, .tokGt, .tokLt, .tokGe, .tokLe]

/-- What comes after a statement, a branch or a loop. -/
def sequenceFollow : List TokenType :=
  [.tokClosebr, .tokVoid, .tokInt, .tokIdentifier, .tokPrint, .tokReturn, .tokIf, .tokWhile,
   .tokFor, .tokDo]

/-- What comes after the words of a nonterminal. -/
def Check.follow : Check → List TokenType
  | .type => [.tokIdentifier]
  | .varDef | .print | .return | .fcall => [.tokSemicl]
  | .varAssign => [.tokSemicl, .tokClosepa]
  | .expr => exprFollow
  | .expr1 | .retFcall =>
      exprFollow ++ [.tokPlus, .tokMinus, .tokStar, .tokSlash, .tokPercent]
  | .cond => [.tokClosepa, .tokSemicl]
  | .numop | .boolop => [.tokIdentifier, .tokIntliteral, .tokMinus, .tokOpenpa]
  | .statement | .branch | .loop => sequenceFollow
  | .sequence => [.tokClosebr]
  | .forLoopHead | .fcallArglist | .argdeflist => [.tokClosepa]
  | .argdef => [.tokComma, .tokClosepa]
  | .func => [.tokVoid, .tokInt, .tokEof]
  | .program => [.tokEof]

/-- Two tokens tell the productions apart. -/
theorem check_lookahead : Lookahead Check.productions Check.starts Check.follow where
  headed_prod := by decide +kernel
  heads_prod := by decide +kernel
  follows_prod := by decide +kernel
  separate_prods := by decide +kernel

/-! ## The parser with a record

The definitions follow those of `Bispe.Compiler.Parser`.  A phrase comes with the
productions used for it; those of a production that is given up are dropped.  Where
`create_node` fails the run ends with an error. -/

/-- A node and the productions used for it. -/
abbrev Traced := Node × Used TokenType Check

/-- `matchSyms` with a record. -/
def traceSyms (trace : Check → P (Option Traced)) :
    List Sym → List Node → Used TokenType Check → P (Option (List Node × Used TokenType Check))
  | [], children, used => pure (some (children, used))
  | .terminal type create :: prod, children, used => do
      match ← getToken with
      | [] => pure none
      | token :: next =>
          if token.type = type then
            let children ← createChild create token children
            setToken next
            traceSyms trace prod children used
          else
            setToken next
            pure none
  | .nonterminal c :: prod, children, used => do
      match ← getToken with
      | [] => pure none
      | _ :: _ =>
          match ← trace c with
          | none => pure none
          | some (node, new) => traceSyms trace prod (children ++ [node]) (used ++ new)

/-- `createNode` for a matched production.  A run in which the action fails is over. -/
def traceNode (type : AstType) (matched : List Node × Used TokenType Check) :
    P (Option Traced) := do
  let node ← createNode type matched.1
  if node = .null then throw .exitFailure else pure (some (node, matched.2))

/-- `matchProd` with a record. -/
def traceProd (trace : Check → P (Option Traced)) (type : AstType) (prod : List Sym) :
    P (Option Traced) := do
  match ← traceSyms trace prod [] [] with
  | none => pure none
  | some matched => traceNode type matched

/-- `tryMatching` with a record. -/
def tryTracing (trace : Check → P (Option Traced)) (c : Check) (tokenSaved : List Token)
    (acceptsEmpty : Bool) : List (List Sym × AstType) → P (Option Traced)
  | [] => do
      if acceptsEmpty then
        let node ← createEmpty
        pure (some (node, [(c, [])]))
      else
        pure none
  | (prod, type) :: prods => do
      match ← traceProd trace type prod with
      | none => do
          setToken tokenSaved
          tryTracing trace c tokenSaved acceptsEmpty prods
      | some (node, used) => pure (some (node, (c, prod.map Sym.symbol) :: used))

/-- `check` with a record. -/
def trace : ℕ → Check → P (Option Traced)
  | 0, _ => throw .outOfFuel
  | fuel + 1, c => do
      let tokenSaved ← getToken
      if c = .func then setMaxArgCount 0
      tryTracing (trace fuel) c tokenSaved c.rule.acceptsEmpty c.rule.prods

/-- `checkStart` with a record. -/
def traceStart (fuel : ℕ) : P (Option Traced) := traceProd (trace fuel) .astHead startProd

/-- However far the recursion may go, no semantic action fails. -/
def ActionsSucceed (first : List Token) : Prop :=
  ∀ fuel e s, traceStart fuel (.initial first) = .error e s → e = .outOfFuel

/-! ## The record changes nothing -/

/-- A run with a record, and the run without. -/
def Erases (r : EStateM.Result Abort PState (Option Traced))
    (r' : EStateM.Result Abort PState Node) :
    Prop :=
  match r with
  | .ok none s => r' = .ok .null s
  | .ok (some (node, _)) s => r' = .ok node s ∧ node ≠ .null
  | .error _ _ => True

section Erasure
variable {traced : Check → P (Option Traced)} {plain : Check → P Node} {prod : List Sym}
  {children : List Node} {used : Used TokenType Check} {s : PState}

theorem traceSyms_nil (traced : Check → P (Option Traced)) {sym : Sym} (h : s.token = []) :
    traceSyms traced (sym :: prod) children used s = .ok none s := by
  have htok : getToken s = .ok [] s := by rw [getToken, h]
  cases sym with
  | terminal type create => exact bind_ok htok
  | nonterminal c => exact bind_ok htok

theorem traceSyms_terminal {type : TokenType} {create : Option Creator} {token : Token}
    {next : List Token} (h : s.token = token :: next) (htype : token.type = type) :
    traceSyms traced (.terminal type create :: prod) children used s =
      (createChild create token children >>= fun cs => do
        setToken next
        traceSyms traced prod cs used) s := by
  have htok : getToken s = .ok (token :: next) s := by rw [getToken, h]
  exact (bind_ok htok).trans (congrFun (if_pos htype) s)

theorem traceSyms_mismatch {type : TokenType} {create : Option Creator} {token : Token}
    {next : List Token} (h : s.token = token :: next) (htype : token.type ≠ type) :
    traceSyms traced (.terminal type create :: prod) children used s =
      .ok none { s with token := next } := by
  have htok : getToken s = .ok (token :: next) s := by rw [getToken, h]
  exact (bind_ok htok).trans (congrFun (if_neg htype) s)

theorem traceSyms_nonterminal {c : Check} {token : Token} {next : List Token}
    (h : s.token = token :: next) :
    traceSyms traced (.nonterminal c :: prod) children used s =
      (traced c >>= fun
        | none => pure none
        | some (node, new) => traceSyms traced prod (children ++ [node]) (used ++ new)) s := by
  have htok : getToken s = .ok (token :: next) s := by rw [getToken, h]
  exact bind_ok htok

/-- The loop of a production with a record, and without. -/
def ErasesSyms (r : EStateM.Result Abort PState (Option (List Node × Used TokenType Check)))
    (r' : EStateM.Result Abort PState (Option (List Node))) : Prop :=
  match r with
  | .ok r s => r' = .ok (r.map Prod.fst) s
  | .error _ _ => True

variable (hrec : ∀ c s, Erases (traced c s) (plain c s))
include hrec

theorem traceSyms_erases (prod : List Sym) (children : List Node) (used : Used TokenType Check)
    (s : PState) :
    ErasesSyms (traceSyms traced prod children used s) (matchSyms plain prod children s) := by
  induction prod generalizing children used s with
  | nil => rfl
  | cons sym prod ih =>
      cases hs : s.token with
      | nil =>
          rw [traceSyms_nil traced hs, matchSyms_nil plain hs]
          rfl
      | cons token next =>
          cases sym with
          | terminal type create =>
              by_cases htype : token.type = type
              · rw [traceSyms_terminal hs htype, matchSyms_terminal hs htype]
                cases hc : createChild create token children s with
                | ok cs s₁ =>
                    rw [bind_ok hc, bind_ok hc]
                    exact ih cs used { s₁ with token := next }
                | error e s₁ =>
                    rw [bind_error hc]
                    trivial
              · rw [traceSyms_mismatch hs htype, matchSyms_mismatch hs htype]
                rfl
          | nonterminal c =>
              rw [traceSyms_nonterminal hs, matchSyms_nonterminal hs]
              have h := hrec c s
              cases hc : traced c s with
              | error e s₁ =>
                  rw [bind_error hc]
                  trivial
              | ok r s₁ =>
                  rw [hc] at h
                  cases r with
                  | none =>
                      rw [bind_ok hc, bind_ok h, if_pos rfl]
                      rfl
                  | some r =>
                      rw [bind_ok hc, bind_ok h.1, if_neg h.2]
                      exact ih _ _ s₁

omit hrec in
theorem traceNode_erases (type : AstType) (matched : List Node × Used TokenType Check)
    (s : PState) : Erases (traceNode type matched s) (createNode type matched.1 s) := by
  rw [traceNode]
  cases hn : createNode type matched.1 s with
  | error e s₁ =>
      rw [bind_error hn]
      trivial
  | ok node s₁ =>
      rw [bind_ok hn]
      by_cases hnull : node = .null
      · rw [if_pos hnull]
        trivial
      · rw [if_neg hnull]
        exact ⟨rfl, hnull⟩

theorem traceProd_erases (type : AstType) (prod : List Sym) (s : PState) :
    Erases (traceProd traced type prod s) (matchProd plain type prod s) := by
  have h := traceSyms_erases hrec prod [] [] s
  rw [traceProd, matchProd]
  cases hc : traceSyms traced prod [] [] s with
  | error e s₁ =>
      rw [bind_error hc]
      trivial
  | ok r s₁ =>
      rw [hc] at h
      rw [bind_ok hc, bind_ok h]
      cases r with
      | none => rfl
      | some matched => exact traceNode_erases type matched s₁

theorem tryTracing_erases (c : Check) (tokenSaved : List Token) (acceptsEmpty : Bool)
    (prods : List (List Sym × AstType)) (s : PState) :
    Erases (tryTracing traced c tokenSaved acceptsEmpty prods s)
      (tryMatching plain tokenSaved acceptsEmpty prods s) := by
  induction prods generalizing s with
  | nil =>
      cases acceptsEmpty with
      | true => exact ⟨rfl, by simp [allocNode]⟩
      | false => rfl
  | cons p prods ih =>
      have h := traceProd_erases hrec p.2 p.1 s
      rw [tryTracing, tryMatching]
      cases hc : traceProd traced p.2 p.1 s with
      | error e s₁ =>
          rw [bind_error hc]
          trivial
      | ok r s₁ =>
          rw [hc] at h
          cases r with
          | none =>
              rw [bind_ok hc, bind_ok h, if_pos rfl]
              exact ih { s₁ with token := tokenSaved }
          | some r =>
              rw [bind_ok hc, bind_ok h.1, if_neg h.2]
              exact ⟨rfl, h.2⟩

end Erasure

/-- The state `check` starts to match in. -/
def Check.enter (c : Check) (s : PState) : PState :=
  if c = .func then { s with maxArgCount := 0 } else s

@[simp] theorem token_enter (c : Check) (s : PState) : (c.enter s).token = s.token := by
  unfold Check.enter
  split <;> rfl

theorem check_step (fuel : ℕ) (c : Check) (s : PState) : check (fuel + 1) c s =
    tryMatching (check fuel) s.token c.rule.acceptsEmpty c.rule.prods (c.enter s) := by
  cases c <;> rfl

theorem trace_step (fuel : ℕ) (c : Check) (s : PState) : trace (fuel + 1) c s =
    tryTracing (trace fuel) c s.token c.rule.acceptsEmpty c.rule.prods (c.enter s) := by
  cases c <;> rfl

/-- Where the recorded run ends without an error, it is the run of the parser. -/
theorem trace_erases (fuel : ℕ) (c : Check) (s : PState) :
    Erases (trace fuel c s) (check fuel c s) := by
  induction fuel generalizing c s with
  | zero => trivial
  | succ fuel ih =>
      rw [trace_step, check_step]
      exact tryTracing_erases ih c s.token c.rule.acceptsEmpty c.rule.prods (c.enter s)

/-! ## What a failure leaves behind -/

theorem tryMatching_restores (rec : Check → P Node) {tokenSaved : List Token}
    {acceptsEmpty : Bool} {prods : List (List Sym × AstType)} {s s' : PState}
    (hs : s.token = tokenSaved)
    (h : tryMatching rec tokenSaved acceptsEmpty prods s = .ok .null s') :
    s'.token = tokenSaved := by
  induction prods generalizing s with
  | nil =>
      cases acceptsEmpty with
      | true => cases h
      | false =>
          cases h
          exact hs
  | cons p prods ih =>
      obtain ⟨node, s₁, hp, h⟩ := bind_eq_ok h
      by_cases hnull : node = .null
      · rw [if_pos hnull] at h
        exact ih (s := { s₁ with token := tokenSaved }) rfl h
      · rw [if_neg hnull] at h
        cases h
        exact absurd rfl hnull

/-- **A `check_*` function that fails leaves the current token where it was.** -/
theorem check_restores {fuel : ℕ} {c : Check} {s s' : PState}
    (h : check fuel c s = .ok .null s') : s'.token = s.token := by
  cases fuel with
  | zero => cases h
  | succ fuel =>
      rw [check_step] at h
      exact tryMatching_restores (check fuel) (token_enter c s) h

/-! ## Semantic actions

They neither move the current token nor recurse into the parser. -/

/-- The program leaves the current token alone, and ends. -/
structure Action {α : Type} (x : P α) : Prop where
  run : ∀ s, Ends (fun _ s' => s'.token = s.token) (fun e _ => e ≠ .outOfFuel) (x s)

namespace Action

variable {α β : Type}

theorem pure (a : α) : Action (pure a) := ⟨fun _ => rfl⟩

theorem throw {e : Abort} (he : e ≠ .outOfFuel) : Action (throw e : P α) := ⟨fun _ => he⟩

theorem bind {x : P α} {f : α → P β} (hx : Action x) (hf : ∀ a, Action (f a)) :
    Action (x >>= f) where
  run s := (hx.run s).bind fun a s₁ h₁ =>
    ((hf a).run s₁).mono (fun _ _ h => h.trans h₁) fun _ _ h => h

theorem get : Action (get : P PState) := ⟨fun _ => rfl⟩

theorem ite {c : Prop} [Decidable c] {x y : P α} (hx : Action x) (hy : Action y) :
    Action (if c then x else y) := by split <;> assumption

theorem getFunc (name : String) : Action (getFunc name) := ⟨fun _ => rfl⟩

theorem setFunc (name : String) (info : FuncInfo) : Action (setFunc name info) := ⟨fun _ => rfl⟩

theorem addFunc (name : String) (retType : Dtype) : Action (addFunc name retType) := by
  refine (getFunc name).bind fun func => ?_
  cases func with
  | none => exact (setFunc name _).bind fun _ => .pure true
  | some func => exact .pure false

theorem derefFunc (name : String) : Action (derefFunc name) := by
  refine (getFunc name).bind fun func => ?_
  cases func with
  | none => exact .throw nofun
  | some func => exact .pure func

theorem commit (name : String) (r : Except FuncInfo α) {next : α → P Node}
    (h : ∀ a, Action (next a)) : Action (commit name r next) := by
  cases r with
  | error func => exact (setFunc name func).bind fun _ => .pure Node.null
  | ok a => exact h a

theorem registerFunctionPrototype (children : List Node) :
    Action (registerFunctionPrototype children) := by
  refine (addFunc _ _).bind fun added => .ite ?_ (.pure Node.null)
  refine (derefFunc _).bind fun func => .commit _ _ fun func => ?_
  exact (setFunc _ func).bind fun _ => .pure _

end Action

/-- Following the pointers of parameters is all that can go wrong. -/
theorem calculateArgAddresses_error {func : FuncInfo} {node : Node} {e : Abort}
    (h : calculateArgAddresses func node = .error e) : e ≠ .outOfFuel := by
  fun_induction calculateArgAddresses func node with
  | case1 func => cases h
  | case2 func _ _ middle _ hvar =>
      cases h
      exact nofun
  | case3 func _ _ middle _ var hvar => cases h
  | case4 func _ _ left middle _ _ ih ih' =>
      cases hleft : calculateArgAddresses func left with
      | error e' =>
          rw [hleft] at h
          cases h
          exact ih hleft
      | ok func' =>
          rw [hleft] at h
          exact ih' func' h

namespace Action

theorem registerBody (name : String) (maxArgCount : ℕ) (func : FuncInfo) (arglist body : Node) :
    Action (registerBody name maxArgCount func arglist body) := by
  refine .commit _ _ fun (func, body) => ?_
  cases h : calculateArgAddresses func arglist with
  | error e =>
      simp only [h]
      exact .throw (calculateArgAddresses_error h)
  | ok func =>
      simp only [h]
      exact (setFunc name func).bind fun _ => .ite (.pure _) (.pure _)

theorem registerFunction (children : List Node) : Action (registerFunction children) := by
  refine (getFunc _).bind fun info => ?_
  cases openFunction _ _ info with
  | none => exact .pure Node.null
  | some func => exact .commit _ _ fun func => get.bind fun s => registerBody _ _ func _ _

theorem createFcall (type : AstType) (children : List Node) (mustReturn : Bool) :
    Action (createFcall type children mustReturn) := by
  refine (getFunc _).bind fun info => ?_
  cases info with
  | none => exact .pure Node.null
  | some func =>
      refine .ite (.pure Node.null) (.ite (.pure Node.null) ?_)
      have hcount : Action (modify fun s : PState =>
          { s with maxArgCount := max s.maxArgCount (countArgs (child children 1)) }) :=
        ⟨fun _ => rfl⟩
      exact hcount.bind fun _ => .pure _

theorem createNode (type : AstType) (children : List Node) : Action (createNode type children) := by
  cases type with
  | astFunction => exact registerFunction children
  | astFunctionProto => exact registerFunctionPrototype children
  | astFcall => exact createFcall _ children false
  | astRetFcall => exact createFcall _ children true
  | _ => exact .pure _

theorem literalNumber (token : Token) : Action (literalNumber token) := by
  unfold Bispe.literalNumber
  cases strtol token.val.toList with
  | none => exact .throw nofun
  | some number => exact .ite (.throw nofun) (.pure _)

theorem create (creator : Creator) (token : Token) : Action (creator.create token) := by
  cases creator with
  | intliteral => exact (literalNumber token).bind fun _ => .pure _
  | negIntliteral => exact (literalNumber token).bind fun _ => .pure _
  | _ => exact .pure _

theorem createChild (create : Option Creator) (token : Token) (children : List Node) :
    Action (createChild create token children) := by
  cases create with
  | none => exact .pure children
  | some creator => exact (Action.create creator token).bind fun _ => .pure _

theorem traceNode (type : AstType) (matched : List Node × Used TokenType Check) :
    Action (traceNode type matched) :=
  (createNode type matched.1).bind fun _ => .ite (.throw nofun) (.pure _)

end Action

/-! ## Runs on tokens -/

/-- The runs of the grammar's ordered productions. -/
abbrev GRun (g : Goal TokenType Check) (x : List Token) (r : Option (Used TokenType Check))
    (x' : List Token) : Prop := Run Check.productions Token.type g x r x'

section Runs
variable {traced : Check → P (Option Traced)}
  (hrec : ∀ c s r s', traced c s = .ok r s' →
    GRun (.nonterminal c) s.token (r.map Prod.snd) s'.token)
include hrec

theorem traceSyms_run (prod : List Sym) {children : List Node} {used : Used TokenType Check}
    {s s' : PState} {r : Option (List Node × Used TokenType Check)}
    (h : traceSyms traced prod children used s = .ok r s') :
    ∃ r', GRun (.sequence (prod.map Sym.symbol)) s.token r' s'.token ∧
      r.map Prod.snd = r'.map (used ++ ·) := by
  induction prod generalizing children used s with
  | nil =>
      cases h
      exact ⟨some [], .empty _, by simp⟩
  | cons sym prod ih =>
      cases hs : s.token with
      | nil =>
          rw [traceSyms_nil traced hs] at h
          cases h
          rw [hs]
          exact ⟨none, .exhausted _ _, rfl⟩
      | cons token next =>
          cases sym with
          | terminal type create =>
              by_cases htype : token.type = type
              · rw [traceSyms_terminal hs htype] at h
                obtain ⟨cs, s₁, -, h⟩ := bind_eq_ok h
                obtain ⟨r', hrun, hr⟩ := ih (s := { s₁ with token := next }) h
                exact ⟨r', .token htype hrun, hr⟩
              · rw [traceSyms_mismatch hs htype] at h
                cases h
                exact ⟨none, .mismatch _ _ htype, rfl⟩
          | nonterminal c =>
              rw [traceSyms_nonterminal hs] at h
              obtain ⟨rc, s₁, hc, h⟩ := bind_eq_ok h
              have hcall := hrec c s rc s₁ hc
              rw [hs] at hcall
              cases rc with
              | none =>
                  cases h
                  exact ⟨none, .callFails _ hcall, rfl⟩
              | some rc =>
                  obtain ⟨r', hrun, hr⟩ := ih h
                  refine ⟨r'.map (rc.2 ++ ·), .call hcall hrun, ?_⟩
                  rw [hr, Option.map_map]
                  congr 1
                  funext ds
                  exact List.append_assoc ..

theorem traceProd_run {type : AstType} {prod : List Sym} {s s' : PState} {r : Option Traced}
    (h : traceProd traced type prod s = .ok r s') :
    GRun (.sequence (prod.map Sym.symbol)) s.token (r.map Prod.snd) s'.token := by
  obtain ⟨rs, s₁, hsyms, h⟩ := bind_eq_ok h
  obtain ⟨r', hrun, hr⟩ := traceSyms_run hrec prod hsyms
  cases rs with
  | none =>
      cases h
      obtain rfl : r' = none := Option.map_eq_none_iff.mp hr.symm
      exact hrun
  | some matched =>
      have htoken := ((Action.traceNode type matched).run s₁).ok h
      obtain ⟨node, s₂, -, h⟩ := bind_eq_ok h
      by_cases hnull : node = .null
      · rw [if_pos hnull] at h
        cases h
      · rw [if_neg hnull] at h
        cases h
        have hr' : r' = some matched.2 := by simpa using hr.symm
        rw [htoken]
        rwa [hr'] at hrun

theorem tryTracing_run {c : Check} {acceptsEmpty : Bool} {prods : List (List Sym × AstType)}
    {tokenSaved : List Token} {s s' : PState} {r : Option Traced} (hs : s.token = tokenSaved)
    (h : tryTracing traced c tokenSaved acceptsEmpty prods s = .ok r s') :
    GRun (.choice c (prods.map (fun p => p.1.map Sym.symbol) ++ if acceptsEmpty then [[]] else []))
      tokenSaved (r.map Prod.snd) s'.token := by
  induction prods generalizing s with
  | nil =>
      cases acceptsEmpty with
      | true =>
          cases h
          rw [hs]
          exact .commit [] (.empty _)
      | false =>
          cases h
          rw [hs]
          exact .fail c _
  | cons p prods ih =>
      obtain ⟨rp, s₁, hp, h⟩ := bind_eq_ok h
      have hrun := traceProd_run hrec hp
      rw [hs] at hrun
      cases rp with
      | none => exact .retry hrun (ih (s := { s₁ with token := tokenSaved }) rfl h)
      | some rp =>
          cases h
          exact .commit _ hrun

end Runs

/-- The recorded run is a run on the tokens. -/
theorem trace_run (fuel : ℕ) (c : Check) (s : PState) (r : Option Traced) (s' : PState)
    (h : trace fuel c s = .ok r s') : GRun (.nonterminal c) s.token (r.map Prod.snd) s'.token := by
  induction fuel generalizing c s r s' with
  | zero => cases h
  | succ fuel ih =>
      rw [trace_step] at h
      exact .enter (tryTracing_run ih (token_enter c s) h)

/-! ## Termination

Every production begins with a token or with a nonterminal of lower rank, and what
comes later starts behind at least one more token. -/

/-- The nesting of nonterminals at the beginning of a phrase. -/
def Check.rank : Check → ℕ
  | .type | .numop | .boolop | .varAssign | .print | .return | .branch | .loop | .retFcall
  | .fcall => 0
  | .expr1 | .varDef | .argdef | .func => 1
  | .expr | .argdeflist | .forLoopHead | .statement | .program => 2
  | .cond | .fcallArglist | .sequence => 3

theorem rank_le : ∀ c : Check, c.rank ≤ 3 := by decide

/-- The first symbol of a production. -/
def Sym.below (c : Check) : Sym → Bool
  | .terminal .. => true
  | .nonterminal c' => c'.rank < c.rank ∧ [] ∉ c'.productions

theorem rank_below : ∀ c : Check, ∀ p ∈ c.rule.prods, ∀ sym ∈ p.1.head?, sym.below c = true := by
  decide +kernel

/-- A bound on the depth of the recursion. -/
def Check.depth (c : Check) (n : ℕ) : ℕ := 4 * n + c.rank + 1

/-- The run ends without reaching the bound on the recursion. -/
def Returns {α : Type} (r : EStateM.Result Abort PState α) : Prop :=
  Ends (fun _ _ => True) (fun e _ => e ≠ .outOfFuel) r

theorem Action.returns {α : Type} {x : P α} (h : Action x) (s : PState) : Returns (x s) :=
  (h.run s).mono (fun _ _ _ => trivial) fun _ _ h => h

/-- Tokens are consumed from the front. -/
theorem trace_length_le {fuel : ℕ} {c : Check} {s s' : PState} {r : Traced}
    (h : trace fuel c s = .ok (some r) s') : s'.token.length ≤ s.token.length ∧
      ([] ∉ c.productions → s'.token.length < s.token.length) := by
  obtain ⟨w, hw, hderives⟩ := (trace_run fuel c s _ s' h).sound r.2 rfl
  have hlength := congrArg List.length hw
  rw [List.length_append] at hlength
  refine ⟨by omega, fun hc => ?_⟩
  have hne : w ≠ [] := by
    rintro rfl
    exact hc (Leftmost.nullable check_lookahead hderives)
  have := List.length_pos_of_ne_nil hne
  omega

section Depth
variable {fuel : ℕ} (hrec : ∀ c s, c.depth s.token.length ≤ fuel → Returns (trace fuel c s))
include hrec

/-- Behind the first token of a production there is room for every nonterminal. -/
theorem traceSyms_returns (prod : List Sym) (children : List Node) (used : Used TokenType Check)
    (s : PState) (hs : 4 * (s.token.length + 1) ≤ fuel) :
    Returns (traceSyms (trace fuel) prod children used s) := by
  induction prod generalizing children used s with
  | nil => trivial
  | cons sym prod ih =>
      cases htoken : s.token with
      | nil =>
          rw [traceSyms_nil _ htoken]
          trivial
      | cons token next =>
          rw [htoken, List.length_cons] at hs
          cases sym with
          | terminal type create =>
              by_cases htype : token.type = type
              · rw [traceSyms_terminal htoken htype]
                refine ((Action.createChild create token children).returns s).bind
                  fun cs s₁ _ => ih cs used { s₁ with token := next } ?_
                change 4 * (next.length + 1) ≤ fuel
                omega
              · rw [traceSyms_mismatch htoken htype]
                trivial
          | nonterminal c =>
              rw [traceSyms_nonterminal htoken]
              have hc : Returns (trace fuel c s) := by
                refine hrec c s ?_
                have := rank_le c
                rw [Check.depth, htoken, List.length_cons]
                omega
              cases hr : trace fuel c s with
              | error e s₁ =>
                  rw [bind_error hr]
                  rwa [hr] at hc
              | ok r s₁ =>
                  rw [bind_ok hr]
                  cases r with
                  | none => trivial
                  | some r =>
                      have hle := (trace_length_le hr).1
                      rw [htoken, List.length_cons] at hle
                      exact ih _ _ s₁ (by omega)

/-- The first symbol has a lower rank, or takes a token. -/
theorem traceSyms_first_returns {c : Check} {prod : List Sym}
    (hprod : ∀ sym ∈ prod.head?, sym.below c = true) (s : PState)
    (hs : c.depth s.token.length ≤ fuel + 1) :
    Returns (traceSyms (trace fuel) prod [] [] s) := by
  rw [Check.depth] at hs
  cases prod with
  | nil => trivial
  | cons sym prod =>
      cases htoken : s.token with
      | nil =>
          rw [traceSyms_nil _ htoken]
          trivial
      | cons token next =>
          rw [htoken, List.length_cons] at hs
          cases sym with
          | terminal type create =>
              by_cases htype : token.type = type
              · rw [traceSyms_terminal htoken htype]
                refine ((Action.createChild create token []).returns s).bind fun cs s₁ _ =>
                  traceSyms_returns hrec prod cs [] { s₁ with token := next } ?_
                change 4 * (next.length + 1) ≤ fuel
                omega
              · rw [traceSyms_mismatch htoken htype]
                trivial
          | nonterminal c' =>
              have hbelow := hprod (.nonterminal c') rfl
              rw [Sym.below, decide_eq_true_eq] at hbelow
              rw [traceSyms_nonterminal htoken]
              have hc : Returns (trace fuel c' s) := by
                refine hrec c' s ?_
                rw [Check.depth, htoken, List.length_cons]
                omega
              cases hr : trace fuel c' s with
              | error e s₁ =>
                  rw [bind_error hr]
                  rwa [hr] at hc
              | ok r s₁ =>
                  rw [bind_ok hr]
                  cases r with
                  | none => trivial
                  | some r =>
                      have hlt := (trace_length_le hr).2 hbelow.2
                      rw [htoken, List.length_cons] at hlt
                      exact traceSyms_returns hrec _ _ _ s₁ (by omega)

theorem tryTracing_returns {c : Check} {prods : List (List Sym × AstType)}
    (hprods : ∀ p ∈ prods, ∀ sym ∈ p.1.head?, sym.below c = true) {acceptsEmpty : Bool}
    {tokenSaved : List Token} {s : PState} (hs : s.token = tokenSaved)
    (hdepth : c.depth tokenSaved.length ≤ fuel + 1) :
    Returns (tryTracing (trace fuel) c tokenSaved acceptsEmpty prods s) := by
  induction prods generalizing s with
  | nil => cases acceptsEmpty <;> trivial
  | cons p prods ih =>
      have hsyms := traceSyms_first_returns hrec (hprods p List.mem_cons_self) s (hs ▸ hdepth)
      have hprod : Returns (traceProd (trace fuel) p.2 p.1 s) :=
        hsyms.bind fun r s₁ _ => by
          cases r with
          | none => trivial
          | some matched => exact (Action.traceNode p.2 matched).returns s₁
      refine hprod.bind fun r s₁ _ => ?_
      cases r with
      | none =>
          exact ih (fun q hq => hprods q (List.mem_cons_of_mem p hq))
            (s := { s₁ with token := tokenSaved }) rfl
      | some r => trivial

end Depth

/-- The recursion of a `check_*` function is bounded by the tokens that are left. -/
theorem trace_returns (fuel : ℕ) (c : Check) (s : PState) (h : c.depth s.token.length ≤ fuel) :
    Returns (trace fuel c s) := by
  induction fuel generalizing c s with
  | zero =>
      rw [Check.depth] at h
      omega
  | succ fuel ih =>
      rw [trace_step]
      exact tryTracing_returns ih (rank_below c) (token_enter c s) h

theorem traceStart_returns {fuel : ℕ} {first : List Token} (h : 4 * (first.length + 1) ≤ fuel) :
    Returns (traceStart fuel (.initial first)) := by
  refine (traceSyms_returns (fun c s h => trace_returns fuel c s h) startProd [] []
    (.initial first) h).bind fun r s₁ _ => ?_
  cases r with
  | none => trivial
  | some matched => exact (Action.traceNode .astHead matched).returns s₁

/-! ## More fuel changes nothing -/

/-- Either the same outcome, or the bound on the recursion was too low. -/
def Approximates {α : Type} (r r' : EStateM.Result Abort PState α) : Prop :=
  r = r' ∨ ∃ s, r = .error .outOfFuel s

theorem Approximates.refl {α : Type} (r : EStateM.Result Abort PState α) : Approximates r r :=
  .inl rfl

theorem Approximates.bind {α β : Type} {x y : P α} {f g : α → P β} {s : PState}
    (h : Approximates (x s) (y s)) (hf : ∀ a s, Approximates (f a s) (g a s)) :
    Approximates ((x >>= f) s) ((y >>= g) s) := by
  obtain h | ⟨s₁, h⟩ := h
  · rw [run_bind, run_bind, ← h]
    cases x s with
    | ok a s₁ => exact hf a s₁
    | error e s₁ => exact .refl _
  · rw [bind_error h]
    exact .inr ⟨s₁, rfl⟩

section Mono
variable {low high : Check → P (Option Traced)}
  (hrec : ∀ c s, Approximates (low c s) (high c s))
include hrec

theorem traceSyms_mono (prod : List Sym) (children : List Node) (used : Used TokenType Check)
    (s : PState) :
    Approximates (traceSyms low prod children used s) (traceSyms high prod children used s) := by
  induction prod generalizing children used s with
  | nil => exact .refl _
  | cons sym prod ih =>
      cases hs : s.token with
      | nil =>
          rw [traceSyms_nil low hs, traceSyms_nil high hs]
          exact .refl _
      | cons token next =>
          cases sym with
          | terminal type create =>
              by_cases htype : token.type = type
              · rw [traceSyms_terminal hs htype, traceSyms_terminal hs htype]
                exact (Approximates.refl _).bind fun cs s₁ => ih cs used { s₁ with token := next }
              · rw [traceSyms_mismatch hs htype, traceSyms_mismatch hs htype]
                exact .refl _
          | nonterminal c =>
              rw [traceSyms_nonterminal hs, traceSyms_nonterminal hs]
              refine (hrec c s).bind fun r s₁ => ?_
              cases r with
              | none => exact .refl _
              | some r => exact ih _ _ s₁

theorem traceProd_mono (type : AstType) (prod : List Sym) (s : PState) :
    Approximates (traceProd low type prod s) (traceProd high type prod s) :=
  (traceSyms_mono hrec prod [] [] s).bind fun _ _ => .refl _

theorem tryTracing_mono (c : Check) (tokenSaved : List Token) (acceptsEmpty : Bool)
    (prods : List (List Sym × AstType)) (s : PState) :
    Approximates (tryTracing low c tokenSaved acceptsEmpty prods s)
      (tryTracing high c tokenSaved acceptsEmpty prods s) := by
  induction prods generalizing s with
  | nil => exact .refl _
  | cons p prods ih =>
      refine (traceProd_mono hrec p.2 p.1 s).bind fun r s₁ => ?_
      cases r with
      | none => exact ih { s₁ with token := tokenSaved }
      | some r => exact .refl _

end Mono

theorem trace_mono {fuel fuel' : ℕ} (h : fuel ≤ fuel') (c : Check) (s : PState) :
    Approximates (trace fuel c s) (trace fuel' c s) := by
  induction fuel generalizing fuel' c s with
  | zero => exact .inr ⟨s, rfl⟩
  | succ fuel ih =>
      obtain ⟨fuel', rfl⟩ : ∃ k, fuel' = k + 1 := ⟨fuel' - 1, by omega⟩
      rw [trace_step, trace_step]
      exact tryTracing_mono (fun c s => ih (by omega) c s) c _ _ _ _

/-- One recorded run that succeeds is enough. -/
theorem actionsSucceed_of_ok {fuel : ℕ} {first : List Token} {r : Option Traced} {s : PState}
    (h : traceStart fuel (.initial first) = .ok r s) : ActionsSucceed first := by
  intro fuel' e s' he
  have hmono {n m : ℕ} (hnm : n ≤ m) : Approximates (traceStart n (.initial first))
      (traceStart m (.initial first)) :=
    traceProd_mono (fun c s => trace_mono hnm c s) .astHead startProd (.initial first)
  obtain hle | hle := Nat.le_total fuel fuel'
  · obtain h' | ⟨s₁, h'⟩ := hmono hle
    · rw [h, he] at h'
      cases h'
    · rw [h] at h'
      cases h'
  · obtain h' | ⟨s₁, h'⟩ := hmono hle
    · rw [h, he] at h'
      cases h'
    · rw [he] at h'
      cases h'
      rfl

/-! ## What the parser accepts -/

/-- The token list ends in `TOK_EOF`, which the lexer makes of the end of the input. -/
def EndsInEof (first : List Token) : Prop :=
  ∃ toks e, first = toks ++ [e] ∧ e.type = .tokEof ∧ ∀ t ∈ toks, t.type ≠ .tokEof

/-- The grammar derives the token list from the production of `check_start`. -/
def Derivable (first : List Token) : Prop :=
  (toContextFree Check.productions .program).Derives startSymbols
    ((first.map Token.type).map .terminal)

/-- What the production of `check_start` derives ends in its only `TOK_EOF`, if the
tokens do. -/
theorem startSymbols_rest {used : Used TokenType Check} {w x : List Token}
    (h : Leftmost Check.productions Token.type used startSymbols w) (hend : EndsInEof (w ++ x)) :
    x = [] := by
  obtain ⟨toks, e, heq, -, htoks⟩ := hend
  obtain ⟨ds₁, ds₂, w₁, w₂, -, rfl, -, h₂⟩ := h.split_cons
  cases h₂ with
  | terminal ht h₂ =>
      cases h₂
      cases hx : x.reverse with
      | nil => simpa using hx
      | cons y ys =>
          obtain rfl : x = ys.reverse ++ [y] := by
            rw [← List.reverse_cons, ← hx, List.reverse_reverse]
          rw [← List.append_assoc] at heq
          obtain ⟨rfl, -⟩ := List.append_inj' heq rfl
          exact absurd ht (htoks _ (by simp))

/-- The run of `check_start` on tokens finds every derivation. -/
theorem startSymbols_complete {used : Used TokenType Check} {first x' : List Token}
    {r : Option (Used TokenType Check)}
    (h : Leftmost Check.productions Token.type used startSymbols first)
    (hrun : GRun (.sequence startSymbols) first r x') : r ≠ none := by
  obtain ⟨ds₁, ds₂, w₁, w₂, -, rfl, h₁, h₂⟩ := h.split_cons
  cases h₂ with
  | @terminal _ _ _ e _ ht h₂ =>
      cases h₂
      have hfollow : e.type ∈ Check.program.follow := List.mem_singleton.mpr ht
      generalize hfirst : w₁ ++ [e] = first at hrun
      cases hrun with
      | exhausted X β => simp at hfirst
      | @callFails B β t x x₁ hcall =>
          obtain ⟨⟨es, hes⟩, -⟩ := hcall.complete check_lookahead ds₁ w₁ e [] hfirst.symm hfollow h₁
          cases hes
      | @call B β t x x₁ _ ds r hcall hrest =>
          obtain ⟨-, rfl⟩ := hcall.complete check_lookahead ds₁ w₁ e [] hfirst.symm hfollow h₁
          cases hrest with
          | token _ hrest =>
              cases hrest
              exact nofun
          | mismatch _ _ hne => exact absurd ht hne

/-- **The parser accepts exactly its grammar.**  On a token list on which no semantic
action fails the parser returns, with a tree if and only if the grammar derives the
list, and the productions it used in the end are a leftmost derivation of the list.
A `check_*` function that fails leaves the current token where it was. -/
theorem parser_accepts_grammar {first : List Token} (hend : EndsInEof first)
    (hact : ActionsSucceed first) :
    (∀ fuel, 4 * (first.length + 1) ≤ fuel → ∃ node s, parseTokenlist fuel first = .ok node s ∧
      (node ≠ .null ↔ Derivable first) ∧
      (node ≠ .null → ∃ used, traceStart fuel (.initial first) = .ok (some (node, used)) s ∧
        Leftmost Check.productions Token.type used startSymbols first)) ∧
    ∀ fuel c s s', check fuel c s = .ok .null s' → s'.token = s.token := by
  refine ⟨fun fuel hfuel => ?_, fun fuel c s s' h => check_restores h⟩
  have hreturns := traceStart_returns hfuel
  have herases : Erases (traceStart fuel (.initial first)) (parseTokenlist fuel first) :=
    traceProd_erases (trace_erases fuel) .astHead startProd (.initial first)
  cases htrace : traceStart fuel (.initial first) with
  | error e s =>
      rw [htrace] at hreturns
      exact absurd (hact fuel e s htrace) hreturns
  | ok r s =>
      have hrun : GRun (.sequence startSymbols) first (r.map Prod.snd) s.token :=
        traceProd_run (trace_run fuel) htrace
      rw [htrace] at herases
      cases r with
      | none =>
          refine ⟨.null, s, herases, ⟨fun h => absurd rfl h, fun h => ?_⟩, fun h => absurd rfl h⟩
          obtain ⟨used, hderives⟩ := Leftmost.of_derives h
          exact absurd rfl (startSymbols_complete hderives hrun)
      | some r =>
          obtain ⟨w, hw, hderives⟩ := hrun.sound r.2 rfl
          have hrest := startSymbols_rest hderives (hw ▸ hend)
          obtain rfl : first = w := by rw [hw, hrest, List.append_nil]
          exact ⟨r.1, s, herases.1, ⟨fun _ => hderives.derives, fun _ => herases.2⟩,
            fun _ => ⟨r.2, htrace ▸ rfl, hderives⟩⟩

/-- `void main(void) { print 1; }` -/
def printOne : List Token :=
  [⟨.tokVoid, "void"⟩, ⟨.tokIdentifier, "main"⟩, ⟨.tokOpenpa, "("⟩, ⟨.tokVoid, "void"⟩,
   ⟨.tokClosepa, ")"⟩, ⟨.tokOpenbr, "\x7b"⟩, ⟨.tokPrint, "print"⟩, ⟨.tokIntliteral, "1"⟩,
   ⟨.tokSemicl, ";"⟩, ⟨.tokClosebr, "\x7d"⟩, ⟨.tokEof, ""⟩]

theorem printOne_actionsSucceed : ActionsSucceed printOne := by
  have hok : (match traceStart 20 (.initial printOne) with
      | .ok _ _ => true
      | .error _ _ => false) = true := by decide +kernel
  cases h : traceStart 20 (.initial printOne) with
  | ok r s => exact actionsSucceed_of_ok h
  | error e s =>
      rw [h] at hok
      cases hok

theorem parser_accepts_grammar_small :
    ∃ node s, parseTokenlist 48 printOne = .ok node s ∧ (node ≠ .null ↔ Derivable printOne) := by
  have hend : EndsInEof printOne := ⟨printOne.dropLast, ⟨.tokEof, ""⟩, by decide, rfl, by decide⟩
  obtain ⟨node, s, hrun, hiff, -⟩ :=
    (parser_accepts_grammar hend printOne_actionsSucceed).1 48 (by decide)
  exact ⟨node, s, hrun, hiff⟩

end Bispe
