import Bispe.Compiler.Declarations
import Bispe.Compiler.Generation
import Bispe.Compiler.Unique

/-!
# Programs and their tokens

An accepted token list is the text of a program: it falls into the declarations of the
program, each with the tokens of its production, and the end of the file.  There is one
program with this text.

## Main definitions

* `checkFunc_written` — what `check_func` reads is a declaration.
* `parser_reads` — what the parser accepts is a program, and only one.
-/

namespace Bispe

open Effect Grammar

/-! ## Declarations -/

section Declarations
variable {fuel : ℕ} {s s' : PState} {node : Node}

/-- The tokens of a production whose children are known. -/
theorem matchProd_written {type : AstType} {prod : List Sym}
    (h : matchProd (check fuel) type prod s = .ok node s') {cs : List Node} {s₁ : PState}
    (hmatch : matchSyms (check fuel) prod [] s = .ok (some cs) s₁) :
    ∃ w, s.token = w ++ s'.token ∧ Parses prod w cs := by
  obtain ⟨r, s₂, hmatch', hnode⟩ := bind_eq_ok h
  obtain ⟨rfl, rfl⟩ := EStateM.Result.ok.inj (hmatch.symm.trans hmatch')
  obtain ⟨w, new, hw, rfl, hparses⟩ := matchSyms_matches (check_matches fuel) hmatch
  have htoken : s'.token = s₁.token := ((Action.createNode type _).run s₁).ok hnode
  exact ⟨w, by rw [hw, htoken], hparses⟩

/-- **A definition** is read by its production. -/
theorem matchProd_func_written (hmax : s.maxArgCount = 0)
    (h : matchProd (check fuel) .astFunction (signature ++ bodySyms) s = .ok node s')
    (hne : node ≠ .null) :
    ∃ f : Func, node = (Item.func f).node ∧ f.Registers s.funcTable s'.funcTable ∧
      (Item.func f).size + s'.token.length < s.token.length ∧
      ∃ w, s.token = w ++ s'.token ∧ (Item.func f).Written w := by
  obtain ⟨f, hnode, hreg, hlt, s₁, hmatch, hM⟩ :=
    matchProd_func (fun c hc s => check_spec fuel hc s) hmax h hne
  obtain ⟨w, hw, hparses⟩ := matchProd_written h hmatch
  have hle := matchSyms_func_records hmax hmatch
  rw [hM] at hle
  have hcalls : ∀ c ∈ f.body.calls, c.argCount ≤ f.maxCall := by
    intro c hc
    obtain ⟨info, -, -, -, hargs⟩ := hreg.1 c hc
    exact hargs
  have hmaxCall := f.body.isMaxCall
  rw [← hmaxCall.unique hcalls hle] at hmaxCall
  exact ⟨f, hnode, hreg, hlt, w, hw, hparses, hmaxCall⟩

/-- **A prototype** is read by its production. -/
theorem matchProd_proto_written
    (h : matchProd (check fuel) .astFunctionProto (signature ++ [tok .tokSemicl]) s = .ok node s')
    (hne : node ≠ .null) :
    ∃ p : Proto, node = (Item.proto p).node ∧ p.Registers s.funcTable s'.funcTable ∧
      (Item.proto p).size + s'.token.length < s.token.length ∧
      ∃ w, s.token = w ++ s'.token ∧ (Item.proto p).Written w := by
  obtain ⟨r, s₁, hmatch, hnode⟩ := bind_eq_ok h
  obtain ⟨hframe, hchildren⟩ :=
    (matchSyms_spec (fun c hc s => check_spec fuel hc s) _ (by decide) [] s).ok hmatch
  cases r with
  | none =>
      cases hnode
      exact absurd rfl hne
  | some cs =>
      obtain ⟨w, hw, hparses⟩ := matchProd_written h hmatch
      obtain ⟨new, hnew, hshape, hle⟩ := hchildren cs rfl
      rw [List.nil_append] at hnew
      subst hnew
      obtain ⟨_, _, _, ⟨d, rfl⟩, ⟨token, -, rfl⟩, ⟨params, rfl⟩, rfl⟩ := children_three hshape
      obtain ⟨htoken, haccepted⟩ :=
        (registerFunctionPrototype_spec ⟨d, token.val, params⟩ s₁).ok hnode
      obtain ⟨rfl, hreg⟩ := haccepted hne
      refine ⟨⟨d, token.val, params⟩, rfl, hframe.table ▸ hreg, ?_, w, hw, hparses⟩
      have hleast : leastSum (signature ++ [tok .tokSemicl]) = 5 := by decide
      rw [hleast] at hle
      simp only [declsSum, List.map_cons, List.map_nil, List.sum_cons, List.sum_nil,
        decls_params] at hle
      rw [htoken]
      simp only [Item.size]
      omega

/-- **What `check_func` reads** is a declaration. -/
theorem checkFunc_written (h : check fuel .func s = .ok node s') (hne : node ≠ .null) :
    ∃ item : Item, node = item.node ∧ item.Registers s.funcTable s'.funcTable ∧
      item.size + s'.token.length < s.token.length ∧
      ∃ w, s.token = w ++ s'.token ∧ item.Written w := by
  cases fuel with
  | zero => cases h
  | succ fuel =>
      rw [checkFunc_step] at h
      obtain ⟨node₁, s₁, hfunc, h⟩ := bind_eq_ok h
      by_cases hnull : node₁ = .null
      · subst hnull
        obtain ⟨_, s₂, hset, h⟩ := bind_eq_ok h
        cases hset
        obtain ⟨node₂, s₃, hproto, h⟩ := bind_eq_ok h
        by_cases hnull₂ : node₂ = .null
        · subst hnull₂
          obtain ⟨_, s₄, hset, h⟩ := bind_eq_ok h
          cases h
          exact absurd rfl hne
        · rw [if_neg hnull₂] at h
          cases h
          -- a definition that was matched and refused is not a prototype
          have htable : s₁.funcTable = s.funcTable := by
            obtain ⟨r, s₂, hmatch, hnode⟩ := bind_eq_ok hfunc
            cases r with
            | none =>
                cases hnode
                exact ((matchSyms_spec (fun c hc s => check_spec fuel hc s) _ (by decide) []
                  _).ok hmatch).1.table
            | some cs =>
                exact absurd (matchProd_exclusive (fun t m c hc => check_commutes fuel hc)
                  hmatch s₁.funcTable s₁.maxArgCount hproto) hnull₂
          obtain ⟨p, rfl, hreg, hlt, hwritten⟩ := matchProd_proto_written hproto hnull₂
          exact ⟨.proto p, rfl, htable ▸ hreg, hlt, hwritten⟩
      · rw [if_neg hnull] at h
        cases h
        obtain ⟨f, rfl, hreg, hlt, hwritten⟩ := matchProd_func_written rfl hfunc hnull
        exact ⟨.func f, rfl, hreg, hlt, hwritten⟩

end Declarations

/-! ## Programs -/

/-- The declarations before the end of the file. -/
theorem checkProgram_written (fuel : ℕ) {s s' : PState} {node : Node}
    (h : check fuel .program s = .ok node s') {token : Token} {next : List Token}
    (htok : s'.token = token :: next) (heof : token.type = .tokEof) :
    ∃ items, node = programNode items ∧ Registers s.funcTable items s'.funcTable ∧
      itemsSize items + s'.token.length ≤ s.token.length ∧
      ∃ w, s.token = w ++ s'.token ∧ Written items w := by
  induction fuel generalizing s node with
  | zero => cases h
  | succ fuel ih =>
      have hstep : check (fuel + 1) .program s =
          tryMatching (check fuel) s.token true checkProgram.prods s := rfl
      rw [hstep] at h
      obtain ⟨node₁, s₁, hprod, h⟩ := bind_eq_ok h
      by_cases hnull : node₁ = .null
      · subst hnull
        obtain ⟨_, s₂, hset, h⟩ := bind_eq_ok h
        cases hset
        cases h
        -- the empty word: no item has been matched at the end of the file
        change s.token = token :: next at htok
        refine ⟨[], rfl, ?_, by simp [itemsSize], [], rfl, rfl⟩
        have htable : s₁.funcTable = s.funcTable := by
          obtain ⟨r, s₂, hmatch, hnode⟩ := bind_eq_ok hprod
          rw [matchSyms_nonterminal htok] at hmatch
          obtain ⟨node₂, s₃, hfunc, hmatch⟩ := bind_eq_ok hmatch
          obtain ⟨rfl, htable⟩ := (checkFunc_eof fuel htok heof).ok hfunc
          cases hmatch
          cases hnode
          exact htable
        change Registers s.funcTable [] s₁.funcTable
        rw [htable]
        exact .nil _
      · rw [if_neg hnull] at h
        cases h
        obtain ⟨r, s₂, hmatch, hnode⟩ := bind_eq_ok hprod
        cases r with
        | none =>
            cases hnode
            exact absurd rfl hnull
        | some cs =>
            cases htok₀ : s.token with
            | nil =>
                rw [matchSyms_nil _ htok₀] at hmatch
                cases hmatch
            | cons token₀ next₀ =>
                rw [matchSyms_nonterminal htok₀] at hmatch
                obtain ⟨node₂, s₃, hfunc, hmatch⟩ := bind_eq_ok hmatch
                by_cases hnull₂ : node₂ = .null
                · rw [if_pos hnull₂] at hmatch
                  cases hmatch
                · rw [if_neg hnull₂] at hmatch
                  obtain ⟨item, rfl, hitem, hlt, w, hw, hwritten⟩ := checkFunc_written hfunc hnull₂
                  cases htok₁ : s₃.token with
                  | nil =>
                      rw [matchSyms_nil _ htok₁] at hmatch
                      cases hmatch
                  | cons token₁ next₁ =>
                      rw [matchSyms_nonterminal htok₁] at hmatch
                      obtain ⟨node₃, s₄, hprogram, hmatch⟩ := bind_eq_ok hmatch
                      by_cases hnull₃ : node₃ = .null
                      · rw [if_pos hnull₃] at hmatch
                        cases hmatch
                      · rw [if_neg hnull₃] at hmatch
                        cases hmatch
                        cases hnode
                        obtain ⟨items, rfl, hitems, hle, w', hw', hwritten'⟩ := ih hprogram
                        refine ⟨item :: items, rfl, .cons hitem hitems, ?_, w ++ w', ?_, w, w', rfl,
                          hwritten, hwritten'⟩
                        · simp only [itemsSize, List.map_cons, List.sum_cons] at hle ⊢
                          rw [← htok₀]
                          omega
                        · rw [← htok₀, hw, hw', List.append_assoc]

/-- **The tokens of an accepted program.** -/
theorem parseTokenlist_written {fuel : ℕ} {first : List Token} {node : Node} {s : PState}
    (h : parseTokenlist fuel first = .ok node s) (hne : node ≠ .null) :
    ∃ items w eof rest, first = w ++ eof :: rest ∧ eof.type = .tokEof ∧ Written items w ∧
      node = headNode items ∧ Registers (fun _ => none) items s.funcTable ∧
      itemsSize items < first.length := by
  obtain ⟨r, s₁, hmatch, hnode⟩ := bind_eq_ok h
  cases r with
  | none =>
      cases hnode
      exact absurd rfl hne
  | some cs =>
      cases htok₀ : (PState.initial first).token with
      | nil =>
          rw [matchSyms_nil _ htok₀] at hmatch
          cases hmatch
      | cons token₀ next₀ =>
          rw [matchSyms_nonterminal htok₀] at hmatch
          obtain ⟨node₁, s₂, hprogram, hmatch⟩ := bind_eq_ok hmatch
          by_cases hnull : node₁ = .null
          · rw [if_pos hnull] at hmatch
            cases hmatch
          · rw [if_neg hnull] at hmatch
            obtain ⟨token, next, htok, heof⟩ := matchSyms_head hmatch
            obtain ⟨items, rfl, hitems, hle, w, hw, hwritten⟩ :=
              checkProgram_written fuel hprogram htok heof
            have hrest : matchSyms (check fuel) [tok .tokEof] ([] ++ [programNode items]) s₂ =
                .ok (some [programNode items]) { s₂ with token := next } :=
              matchSyms_terminal htok heof
            cases hrest.symm.trans hmatch
            cases hnode
            refine ⟨items, w, token, next, ?_, heof, hwritten, rfl, hitems, ?_⟩
            · rw [← htok]
              exact hw
            · rw [htok] at hle
              exact Nat.lt_of_lt_of_le (Nat.lt_add_of_pos_right (Nat.succ_pos _)) hle

/-- The tokens of a compiled program, and what its code has been generated from. -/
theorem compile_written {junk : Junk} {fuel : ℕ} {first : List Token} {code : List CodeElem}
    (h : compile junk fuel first = some code) :
    ∃ items w eof rest s s', first = w ++ eof :: rest ∧ eof.type = .tokEof ∧ Written items w ∧
      itemsSize items < first.length ∧ parseTokenlist fuel first = .ok (headNode items) s ∧
      Registers (fun _ => none) items s.funcTable ∧
      generateCode junk s.funcTable (headNode items) = .ok (some code) s' := by
  obtain ⟨items, s, s', hparse, -, -, hgen⟩ := compile_eq_some h
  obtain ⟨items', w, eof, rest, hfirst, heof, hwritten, hnode, hreg, hsize⟩ :=
    parseTokenlist_written hparse (by simp [headNode, inner])
  rw [hnode] at hparse hgen
  exact ⟨items', w, eof, rest, s, s', hfirst, heof, hwritten, hsize, hparse, hreg, hgen⟩

/-- **The parser reads programs.**  An accepted token list is the text of a list of
declarations, up to the end of the file, and of no other; its tree is theirs.  The function
table holds the names that are declared, none of which is defined twice or has a prototype after
another declaration.  The callee of each call is declared before the function it is in; the call
has as many arguments as the first of these declarations has parameters, and its value is used
only if that declaration has one. -/
theorem parser_reads {fuel : ℕ} {first : List Token} {node : Node} {s : PState}
    (h : parseTokenlist fuel first = .ok node s) (hne : node ≠ .null) :
    ∃ items w eof rest, first = w ++ eof :: rest ∧ eof.type = .tokEof ∧ Written items w ∧
      (∀ items' w' eof' rest', first = w' ++ eof' :: rest' → eof'.type = .tokEof →
        Written items' w' → items' = items) ∧
      node = headNode items ∧
      (∀ g, (s.funcTable g).isSome = true ↔ ∃ item ∈ items, item.name = g) ∧
      (defined items).Nodup ∧
      (∀ pre p post, items = pre ++ .proto p :: post → ∀ item ∈ pre, item.name ≠ p.name) ∧
      ∀ pre f post, items = pre ++ .func f :: post → ∀ c ∈ f.body.calls,
        ∃ item, pre.find? (fun item => item.name = c.callee) = some item ∧
          c.argCount = item.params.names.length ∧
          (c.mustReturn = true → item.ret ≠ .dtypeVoid) := by
  obtain ⟨items, w, eof, rest, hfirst, heof, hwritten, hnode, hreg, -⟩ :=
    parseTokenlist_written h hne
  refine ⟨items, w, eof, rest, hfirst, heof, hwritten, ?_, hnode, fun g => ?_, hreg.nodup, ?_, ?_⟩
  · intro items' w' eof' rest' hfirst' heof' hwritten'
    exact (hwritten'.unique_of_eof heof' hwritten heof (hfirst'.symm.trans hfirst)).1
  · rw [hreg.isSome_iff]
    simp
  · intro pre p post hitems item hitem hname
    rw [hitems] at hreg
    obtain ⟨t₁, hpre, hrest⟩ := hreg.split
    have hknown : (t₁ p.name).isSome = true := hpre.isSome_iff.mpr (.inr ⟨item, hitem, hname⟩)
    cases hrest with
    | cons hproto _ =>
        have hnew : t₁ p.name = none := hproto.1
        rw [hnew] at hknown
        cases hknown
  · intro pre f post hitems c hc
    rw [hitems] at hreg
    obtain ⟨t₁, t₂, hat⟩ := hreg.at
    obtain ⟨info, hinfo, hcount, hret, -⟩ := hat.item.1 c hc
    rcases hat.before.origin hinfo with ⟨old, hold, -⟩ | ⟨-, item, hfind, hparams, hdtype⟩
    · cases hold
    · refine ⟨item, hfind, hcount.symm.trans hparams, fun hmust => ?_⟩
      rw [← hdtype]
      exact hret hmust

/-- `int inc(int n); void main(void) { print inc(4); } int inc(int n) { return n + 1; }` -/
def printInc : List Token :=
  [⟨.tokInt, "int"⟩, ⟨.tokIdentifier, "inc"⟩, ⟨.tokOpenpa, "("⟩, ⟨.tokInt, "int"⟩,
   ⟨.tokIdentifier, "n"⟩, ⟨.tokClosepa, ")"⟩, ⟨.tokSemicl, ";"⟩,
   ⟨.tokVoid, "void"⟩, ⟨.tokIdentifier, "main"⟩, ⟨.tokOpenpa, "("⟩, ⟨.tokVoid, "void"⟩,
   ⟨.tokClosepa, ")"⟩, ⟨.tokOpenbr, "\x7b"⟩, ⟨.tokPrint, "print"⟩, ⟨.tokIdentifier, "inc"⟩,
   ⟨.tokOpenpa, "("⟩, ⟨.tokIntliteral, "4"⟩, ⟨.tokClosepa, ")"⟩, ⟨.tokSemicl, ";"⟩,
   ⟨.tokClosebr, "\x7d"⟩,
   ⟨.tokInt, "int"⟩, ⟨.tokIdentifier, "inc"⟩, ⟨.tokOpenpa, "("⟩, ⟨.tokInt, "int"⟩,
   ⟨.tokIdentifier, "n"⟩, ⟨.tokClosepa, ")"⟩, ⟨.tokOpenbr, "\x7b"⟩, ⟨.tokReturn, "return"⟩,
   ⟨.tokIdentifier, "n"⟩, ⟨.tokPlus, "+"⟩, ⟨.tokIntliteral, "1"⟩, ⟨.tokSemicl, ";"⟩,
   ⟨.tokClosebr, "\x7d"⟩, ⟨.tokEof, ""⟩]

def incProto : Proto := ⟨.dtypeInt, "inc", .last .dtypeInt "n"⟩

def printMain : Func where
  ret := .dtypeVoid
  name := "main"
  params := .void
  body := .seq (.print (.unary (.call "inc" (.last (.unary (.lit 4)))))) .skip
  maxCall := 1

def incFunc : Func where
  ret := .dtypeInt
  name := "inc"
  params := .last .dtypeInt "n"
  body := .seq (.ret (some (.bin (.var "n") .plus (.unary (.lit 1))))) .skip
  maxCall := 0

def printIncItems : List Item := [.proto incProto, .func printMain, .func incFunc]

/-- What a run that succeeds has read, and the tokens behind it. -/
def readOf {α : Type} : EStateM.Result Abort PState α → Option (α × List Token)
  | .ok a s => some (a, s.token)
  | .error _ _ => none

theorem readOf_eq_some {α : Type} {r : EStateM.Result Abort PState α} {a : α} {w : List Token}
    (h : readOf r = some (a, w)) : ∃ s, r = .ok a s ∧ s.token = w := by
  cases r with
  | ok b s =>
      obtain ⟨rfl, rfl⟩ := Prod.mk.inj (Option.some.inj h)
      exact ⟨s, rfl, rfl⟩
  | error e s => cases h

/-- Tokens that are read to the end are a phrase. -/
theorem parses_of_read (fuel : ℕ) {prod : List Sym} (s : PState) {cs : List Node}
    (h : readOf (matchSyms (check fuel) prod [] s) = some (some cs, [])) :
    Parses prod s.token cs := by
  obtain ⟨s', hmatch, htoken⟩ := readOf_eq_some h
  obtain ⟨w, new, hw, rfl, hparses⟩ := matchSyms_matches (check_matches fuel) hmatch
  rw [htoken, List.append_nil] at hw
  rwa [← hw] at hparses

/-- The function table after the prototype of `inc`. -/
def incTable : FuncTable := fun name =>
  if name = "inc" then
    some { retType := .dtypeInt, prototyped := true, addr := none, argCount := 1, varCount := 0,
           maxCallSize := 0, varTable := fun _ => none }
  else none

theorem printInc_written : Written printIncItems printInc.dropLast :=
  ⟨printInc.take 7, _, rfl, parses_of_read 30 (.initial (printInc.take 7)) (by decide +kernel),
    (printInc.drop 7).take 13, _, rfl,
    ⟨parses_of_read 30 ⟨(printInc.drop 7).take 13, 0, incTable⟩ (by decide +kernel),
      printMain.body.isMaxCall⟩,
    (printInc.drop 20).take 13, _, rfl,
    ⟨parses_of_read 30 (.initial ((printInc.drop 20).take 13)) (by decide +kernel),
      incFunc.body.isMaxCall⟩, rfl⟩

/-- The main function calls `inc` with one argument, as its prototype says. -/
theorem parser_reads_small : ∃ s, parseTokenlist 60 printInc = .ok (headNode printIncItems) s ∧
    (∀ items, Written items printInc.dropLast → items = printIncItems) ∧
    (∀ g, (s.funcTable g).isSome = true ↔ g = "inc" ∨ g = "main") ∧
    ∃ item, [Item.proto incProto].find? (fun item => item.name = "inc") = some item ∧
      1 = item.params.names.length ∧ item.ret ≠ .dtypeVoid := by
  have hread : readOf (parseTokenlist 60 printInc) = some (headNode printIncItems, []) := by
    decide +kernel
  obtain ⟨s, hparse, -⟩ := readOf_eq_some hread
  obtain ⟨items, w, eof, rest, hfirst, heof, hwritten, hunique, -, hnames, -, -, hcalls⟩ :=
    parser_reads hparse (by simp [headNode, inner])
  have hitems : printIncItems = items := hunique _ _ ⟨.tokEof, ""⟩ [] rfl rfl printInc_written
  subst hitems
  refine ⟨s, hparse, fun items' h => ?_, fun g => ?_, ?_⟩
  · exact hunique items' _ ⟨.tokEof, ""⟩ [] rfl rfl h
  · rw [hnames]
    simp [printIncItems, Item.name, incProto, printMain, incFunc, eq_comm, or_comm]
  · obtain ⟨item, hfind, hcount, hret⟩ :=
      hcalls [.proto incProto] printMain [.func incFunc] rfl ⟨"inc", 1, true⟩ (by decide)
    exact ⟨item, hfind, hcount, hret rfl⟩

end Bispe
