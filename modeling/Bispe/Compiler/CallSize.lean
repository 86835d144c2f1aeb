import Bispe.Compiler.Accepted
import Bispe.Compiler.Phrases

/-!
# Recorded argument counts

`create_fcall` records the argument count of every call that it makes a node of, also
in alternatives that the parser gives up later.  An alternative that is given up either
has read what the alternative after it reads again, or has not got as far as a call.
So where a phrase is followed by a token that may follow it, its node holds all the
calls that were recorded.

## Main definitions

* `Node.maxCall` — the largest argument count of the calls in a tree.
* `IgnoresMax` — a program whose result does not depend on what was recorded.
* `Records` — what a `check_*` function records, in terms of the tree it returns.
* `check_records`, `checkFunc_maxCall` — the parser.
-/

namespace Bispe

open Effect Grammar

/-- The largest argument count of the calls in a tree. -/
def Node.maxCall : Node → ℕ
  | .null => 0
  | .mk type _ left middle right =>
      max (if type = .astFcall ∨ type = .astRetFcall then countArgs left else 0)
        (max left.maxCall (max middle.maxCall right.maxCall))

/-! ## Results do not depend on the record -/

/-- Another recorded argument count. -/
def reMax (m : ℕ) (s : PState) : PState := { s with maxArgCount := m }

/-- What was recorded before changes nothing but what is recorded after. -/
structure IgnoresMax {α : Type} (x : P α) : Prop where
  run : ∀ s m, ∃ m', x (reMax m s) = mapState (reMax m') (x s)

namespace IgnoresMax
variable {α β : Type}

theorem pure (a : α) : IgnoresMax (pure a : P α) := ⟨fun _ m => ⟨m, rfl⟩⟩

theorem throw (e : Abort) : IgnoresMax (throw e : P α) := ⟨fun _ m => ⟨m, rfl⟩⟩

theorem bind {x : P α} {f : α → P β} (hx : IgnoresMax x) (hf : ∀ a, IgnoresMax (f a)) :
    IgnoresMax (x >>= f) := by
  constructor
  intro s m
  obtain ⟨m₁, h₁⟩ := hx.run s m
  rw [run_bind, run_bind, h₁]
  cases x s with
  | ok a s₁ => exact (hf a).run s₁ m₁
  | error e s₁ => exact ⟨m₁, rfl⟩

theorem ite {c : Prop} [Decidable c] {x y : P α} (hx : IgnoresMax x) (hy : IgnoresMax y) :
    IgnoresMax (if c then x else y) := by split <;> assumption

theorem getToken : IgnoresMax getToken := ⟨fun _ m => ⟨m, rfl⟩⟩

theorem setToken (token : List Token) : IgnoresMax (setToken token) := ⟨fun _ m => ⟨m, rfl⟩⟩

theorem getFunc (name : String) : IgnoresMax (getFunc name) := ⟨fun _ m => ⟨m, rfl⟩⟩

theorem record (argCount : ℕ) :
    IgnoresMax (modify fun s => { s with maxArgCount := max s.maxArgCount argCount } : P Unit) :=
  ⟨fun _ m => ⟨max m argCount, rfl⟩⟩

theorem literalNumber (token : Token) : IgnoresMax (literalNumber token) := by
  unfold Bispe.literalNumber
  split
  · exact .throw _
  · exact .ite (.throw _) (.pure _)

theorem createChild (create : Option Creator) (token : Token) (children : List Node) :
    IgnoresMax (createChild create token children) := by
  cases create with
  | none => exact .pure _
  | some creator =>
      have hcreate : IgnoresMax (creator.create token) := by
        cases creator with
        | identifier => exact .pure _
        | intliteral => exact (literalNumber token).bind fun _ => .pure _
        | negIntliteral => exact (literalNumber token).bind fun _ => .pure _
        | numop => exact .pure _
        | boolop => exact .pure _
        | type => exact .pure _
      exact hcreate.bind fun _ => .pure _

theorem createFcall (type : AstType) (children : List Node) (mustReturn : Bool) :
    IgnoresMax (createFcall type children mustReturn) := by
  refine (getFunc _).bind fun func => ?_
  cases func with
  | none => exact .pure _
  | some func =>
      refine .ite (.pure _) (.ite (.pure _) ?_)
      exact (record _).bind fun _ => .pure _

theorem createNode {type : AstType} (h₁ : type ≠ .astFunction) (h₂ : type ≠ .astFunctionProto)
    (children : List Node) : IgnoresMax (createNode type children) := by
  by_cases h₃ : type = .astFcall
  · subst h₃
    exact createFcall ..
  · by_cases h₄ : type = .astRetFcall
    · subst h₄
      exact createFcall ..
    · rw [createNode_plain h₁ h₂ h₃ h₄]
      exact .pure _

variable {rec : Check → P Node}

theorem matchSyms
    (hrec : ∀ c : Check, (Sym.nonterminal c).plain = true → IgnoresMax (rec c)) {prod : List Sym}
    (hplain : ∀ sym ∈ prod, sym.plain = true) (children : List Node) :
    IgnoresMax (matchSyms rec prod children) := by
  induction prod generalizing children with
  | nil => exact .pure _
  | cons sym prod ih =>
      have ih := ih fun x hx => hplain x (List.mem_cons_of_mem _ hx)
      cases sym with
      | terminal type create =>
          refine getToken.bind fun tokens => ?_
          cases tokens with
          | nil => exact .pure _
          | cons token next =>
              refine .ite ?_ ((setToken next).bind fun _ => .pure _)
              refine (createChild create token children).bind fun cs => ?_
              exact (setToken next).bind fun _ => ih cs
      | nonterminal c =>
          refine getToken.bind fun tokens => ?_
          cases tokens with
          | nil => exact .pure _
          | cons token next =>
              refine (hrec c (hplain _ List.mem_cons_self)).bind fun node => ?_
              exact .ite (.pure _) (ih _)

theorem tryMatching
    (hrec : ∀ c : Check, (Sym.nonterminal c).plain = true → IgnoresMax (rec c))
    (tokenSaved : List Token) (acceptsEmpty : Bool) {prods : List (List Sym × AstType)}
    (hprods : ∀ p ∈ prods, (∀ sym ∈ p.1, sym.plain = true) ∧ p.2 ≠ .astFunction ∧
      p.2 ≠ .astFunctionProto) : IgnoresMax (tryMatching rec tokenSaved acceptsEmpty prods) := by
  induction prods with
  | nil =>
      cases acceptsEmpty with
      | true => exact .pure _
      | false => exact .pure _
  | cons p prods ih =>
      obtain ⟨hsyms, hfunc, hproto⟩ := hprods p List.mem_cons_self
      have ih := ih fun q hq => hprods q (List.mem_cons_of_mem _ hq)
      refine IgnoresMax.bind ?_ fun node => .ite ((setToken tokenSaved).bind fun _ => ih) (.pure _)
      refine (matchSyms hrec hsyms []).bind fun r => ?_
      cases r with
      | none => exact .pure _
      | some cs => exact createNode hfunc hproto cs

end IgnoresMax

theorem enter_plain {c : Check} (hc : (Sym.nonterminal c).plain = true) (s : PState) :
    c.enter s = s := by
  have hne : c ≠ .func := by
    rintro rfl
    cases hc
  rw [Check.enter, if_neg hne]

theorem check_ignoresMax (fuel : ℕ) (c : Check) (hc : (Sym.nonterminal c).plain = true) :
    IgnoresMax (check fuel c) := by
  induction fuel generalizing c with
  | zero => exact .throw _
  | succ fuel ih =>
      have hprods : ∀ p ∈ c.rule.prods, (∀ sym ∈ p.1, sym.plain = true) ∧ p.2 ≠ .astFunction ∧
          p.2 ≠ .astFunctionProto := by
        intro p hp
        have hp := rule_plain c hc p hp
        exact ⟨hp.1, hp.2.1, hp.2.2.1⟩
      constructor
      intro s m
      rw [check_step, check_step, enter_plain hc, enter_plain hc]
      exact (IgnoresMax.tryMatching ih s.token c.rule.acceptsEmpty hprods).run s m

/-! ## What fails at once records nothing -/

/-- The words of the nonterminal are single tokens. -/
abbrev Check.Single (c : Check) : Prop := single Check.productions c = true

/-- The tokens are not those a nonterminal or production begins with. -/
abbrev Apart (L : List (Peek TokenType)) (x : List Token) : Prop := ¬ Peeks Token.type L x

/-- What a sequence of symbols begins with. -/
abbrev symHeads (prod : List Sym) : List (Peek TokenType) :=
  heads Check.productions Check.starts (prod.map Sym.symbol)

/-- A `check_*` function that is not called on its first tokens fails and records nothing,
and neither does one of single tokens. -/
structure FailsQuietly (rec : Check → P Node) : Prop where
  apart : ∀ c s node s', (Sym.nonterminal c).plain = true → [] ∉ c.productions →
    Apart c.starts s.token → rec c s = .ok node s' → node = .null ∧ s'.maxArgCount = s.maxArgCount
  single : ∀ c s node s', c.Single → rec c s = .ok node s' → s'.maxArgCount = s.maxArgCount
  phrase : ∀ c s node s', rec c s = .ok node s' → node ≠ .null →
    ∃ w, s.token = w ++ s'.token ∧ Parses [.nonterminal c] w [node]

/-- Where the token after the first is not that of the production. -/
theorem matchSyms_second {rec : Check → P Node} {prod : List Sym} {b : TokenType}
    (hb : second (prod.map Sym.symbol) = some b) {children : List Node} {s s' : PState}
    {r : Option (List Node)}
    (htok : ∀ t y, s.token = t :: y → t.type ≠ b)
    (h : matchSyms rec prod children s = .ok r s') :
    r = none ∧ s'.maxArgCount = s.maxArgCount := by
  cases prod with
  | nil => cases hb
  | cons sym prod =>
      cases hs : s.token with
      | nil =>
          rw [matchSyms_nil rec hs] at h
          cases h
          exact ⟨rfl, rfl⟩
      | cons t y =>
          cases sym with
          | terminal type create =>
              obtain rfl : type = b := Option.some.inj hb
              rw [matchSyms_mismatch hs (htok t y hs)] at h
              cases h
              exact ⟨rfl, rfl⟩
          | nonterminal c => cases hb

/-- A nonterminal of single tokens has read one of them. -/
theorem Parses.single {c : Check} (hc : c.Single) {w : List Token} {node : Node}
    (h : Parses [.nonterminal c] w [node]) : ∃ t, w = [t] ∧ (t.type, none) ∈ c.starts := by
  obtain ⟨ds, hds⟩ := h.leftmost
  obtain ⟨p, hp, ds', -, hword⟩ := hds.production
  obtain ⟨a, rfl⟩ := single_prod hc hp
  have hstart : (a, none) ∈ c.starts :=
    check_lookahead.heads_prod c _ hp (List.mem_singleton_self _)
  cases hword with
  | @terminal _ _ _ t _ ht hrest =>
      cases hrest
      rw [← ht] at hstart
      exact ⟨t, rfl, hstart⟩

theorem matchSyms_quiet {rec : Check → P Node} (hq : FailsQuietly rec) {prod : List Sym}
    (hplain : ∀ sym ∈ prod, sym.plain = true) (hne : prod ≠ [])
    (hheaded : headed Check.productions (prod.map Sym.symbol) = true)
    {children : List Node} {s s' : PState} {r : Option (List Node)}
    (hapart : Apart (symHeads prod) s.token)
    (h : matchSyms rec prod children s = .ok r s') :
    r = none ∧ s'.maxArgCount = s.maxArgCount := by
  cases prod with
  | nil => exact absurd rfl hne
  | cons sym prod =>
      cases hs : s.token with
      | nil =>
          rw [matchSyms_nil rec hs] at h
          cases h
          exact ⟨rfl, rfl⟩
      | cons t y =>
          rw [hs] at hapart
          cases sym with
          | terminal type create =>
              by_cases htype : t.type = type
              · rw [matchSyms_terminal hs htype] at h
                obtain ⟨cs, s₁, hchild, hrest⟩ := bind_eq_ok h
                obtain ⟨rfl, -⟩ := createChild_append hchild
                cases hb : second (prod.map Sym.symbol) with
                | none =>
                    refine absurd ⟨(type, none), ?_, t, y, rfl, htype, by simp⟩ hapart
                    rw [symHeads, List.map_cons, Sym.symbol, heads, hb]
                    exact List.mem_singleton_self _
                | some b =>
                    apply matchSyms_second (s := { s₁ with token := y }) hb ?_ hrest
                    rintro t' y' rfl htype'
                    refine hapart ⟨(type, some b), ?_, t, _, rfl, htype, ?_⟩
                    · rw [symHeads, List.map_cons, Sym.symbol, heads, hb]
                      exact List.mem_singleton_self _
                    · rintro b' ⟨rfl⟩
                      exact ⟨t', y', rfl, htype'⟩
              · rw [matchSyms_mismatch hs htype] at h
                cases h
                exact ⟨rfl, rfl⟩
          | nonterminal c =>
              rw [matchSyms_nonterminal hs] at h
              obtain ⟨node, s₁, hnode, hrest⟩ := bind_eq_ok h
              have hnonempty : [] ∉ c.productions := of_decide_eq_true hheaded
              by_cases hsingle : c.Single
              · have hmax := hq.single c s node s₁ hsingle hnode
                by_cases hnull : node = .null
                · rw [if_pos hnull] at hrest
                  cases hrest
                  exact ⟨rfl, hmax⟩
                · rw [if_neg hnull] at hrest
                  obtain ⟨w, hw, hphrase⟩ := hq.phrase c s node s₁ hnode hnull
                  obtain ⟨t', rfl, hstart⟩ := hphrase.single hsingle
                  obtain ⟨rfl, rfl⟩ := List.cons.inj (hs.symm.trans hw)
                  have hhead : (t.type, second (prod.map Sym.symbol)) ∈
                      symHeads (.nonterminal c :: prod) := by
                    rw [symHeads, List.map_cons, Sym.symbol, heads, if_pos hsingle]
                    exact List.mem_map.mpr ⟨_, hstart, rfl⟩
                  cases hb : second (prod.map Sym.symbol) with
                  | none =>
                      rw [hb] at hhead
                      exact absurd ⟨_, hhead, t, s₁.token, rfl, rfl, by simp⟩ hapart
                  | some b =>
                      rw [hb] at hhead
                      have hnot : ∀ t' y', s₁.token = t' :: y' → t'.type ≠ b := by
                        intro t' y' htok htype
                        refine hapart ⟨_, hhead, t, s₁.token, rfl, rfl, ?_⟩
                        rintro b' ⟨rfl⟩
                        exact ⟨t', y', htok, htype⟩
                      obtain ⟨hr, hmax'⟩ := matchSyms_second hb hnot hrest
                      exact ⟨hr, hmax'.trans hmax⟩
              · have hstarts : Apart c.starts s.token := by
                  rw [hs]
                  rw [symHeads, List.map_cons, Sym.symbol, heads, if_neg hsingle] at hapart
                  exact hapart
                obtain ⟨rfl, hmax⟩ := hq.apart c s node s₁ (hplain _ List.mem_cons_self)
                  hnonempty hstarts hnode
                cases hrest
                exact ⟨rfl, hmax⟩

theorem tryMatching_quiet {rec : Check → P Node} (hq : FailsQuietly rec) {c : Check}
    (hc : (Sym.nonterminal c).plain = true) (hempty : [] ∉ c.productions)
    {prods : List (List Sym × AstType)}
    (hprods : ∀ p ∈ prods, p ∈ c.rule.prods) {tokenSaved : List Token} {s s' : PState}
    {node : Node} (hs : s.token = tokenSaved) (hapart : Apart c.starts tokenSaved)
    (h : tryMatching rec tokenSaved false prods s = .ok node s') :
    node = .null ∧ s'.maxArgCount = s.maxArgCount := by
  induction prods generalizing s with
  | nil =>
      cases h
      exact ⟨rfl, rfl⟩
  | cons p prods ih =>
      have hmem : p.1.map Sym.symbol ∈ c.productions :=
        List.mem_append_left _ (List.mem_map_of_mem (hprods p List.mem_cons_self))
      have hne : p.1 ≠ [] := by
        intro hnil
        rw [hnil] at hmem
        exact hempty hmem
      obtain ⟨first, s₁, hp, hrest⟩ := bind_eq_ok h
      obtain ⟨r, s₂, hsyms, hnode⟩ := bind_eq_ok hp
      obtain ⟨rfl, hmax⟩ := matchSyms_quiet hq
        (rule_plain c hc p (hprods p List.mem_cons_self)).1 hne
        (check_lookahead.headed_prod c _ hmem)
        (fun hpeeks => hapart (hs ▸ hpeeks.mono (check_lookahead.heads_prod c _ hmem))) hsyms
      cases hnode
      obtain ⟨hnull, hmax'⟩ := ih (fun q hq => hprods q (List.mem_cons_of_mem _ hq))
        (s := { s₁ with token := tokenSaved }) rfl hrest
      exact ⟨hnull, hmax'.trans hmax⟩

/-- The production is one terminal. -/
def oneTerminal : List Sym → Bool
  | [.terminal _ _] => true
  | _ => false

/-- A production of one terminal records nothing. -/
theorem matchSyms_oneTerminal {rec : Check → P Node} {prod : List Sym}
    (hprod : oneTerminal prod = true) {children : List Node} {s s' : PState}
    {r : Option (List Node)} (h : matchSyms rec prod children s = .ok r s') :
    s'.maxArgCount = s.maxArgCount := by
  match prod with
  | [] => cases hprod
  | .nonterminal _ :: _ => cases hprod
  | .terminal _ _ :: _ :: _ => cases hprod
  | [.terminal type create] =>
      cases hs : s.token with
      | nil =>
          rw [matchSyms_nil rec hs] at h
          cases h
          rfl
      | cons t y =>
          by_cases htype : t.type = type
          · rw [matchSyms_terminal hs htype] at h
            obtain ⟨cs, s₁, hchild, hdone⟩ := bind_eq_ok h
            obtain ⟨rfl, -⟩ := createChild_append hchild
            cases hdone
            rfl
          · rw [matchSyms_mismatch hs htype] at h
            cases h
            rfl

theorem tryMatching_single {rec : Check → P Node} {prods : List (List Sym × AstType)}
    (hprods : ∀ p ∈ prods, oneTerminal p.1 = true ∧ p.2 ≠ .astFunction ∧
      p.2 ≠ .astFunctionProto ∧ p.2 ≠ .astFcall ∧ p.2 ≠ .astRetFcall)
    {tokenSaved : List Token} {s s' : PState} {node : Node}
    (h : tryMatching rec tokenSaved false prods s = .ok node s') :
    s'.maxArgCount = s.maxArgCount := by
  induction prods generalizing s with
  | nil =>
      cases h
      rfl
  | cons p prods ih =>
      obtain ⟨hone, h₁, h₂, h₃, h₄⟩ := hprods p List.mem_cons_self
      obtain ⟨first, s₁, hp, hrest⟩ := bind_eq_ok h
      have hmax : s₁.maxArgCount = s.maxArgCount := by
        obtain ⟨r, s₂, hsyms, hnode⟩ := bind_eq_ok hp
        have hmax₂ := matchSyms_oneTerminal hone hsyms
        cases r with
        | none =>
            cases hnode
            exact hmax₂
        | some cs =>
            simp only [createNode_plain h₁ h₂ h₃ h₄] at hnode
            cases hnode
            exact hmax₂
      by_cases hnull : first = .null
      · rw [if_pos hnull] at hrest
        have hrest := ih (fun q hq => hprods q (List.mem_cons_of_mem _ hq))
          (s := { s₁ with token := tokenSaved }) hrest
        exact hrest.trans hmax
      · rw [if_neg hnull] at hrest
        cases hrest
        exact hmax

/-- The nonterminals of single tokens have no action. -/
theorem single_prods : ∀ c : Check, c.Single → (Sym.nonterminal c).plain = true ∧
    c.rule.acceptsEmpty = false ∧ ∀ p ∈ c.rule.prods, oneTerminal p.1 = true ∧
      p.2 ≠ .astFunction ∧ p.2 ≠ .astFunctionProto ∧ p.2 ≠ .astFcall ∧ p.2 ≠ .astRetFcall := by
  intro c
  cases c <;> decide

theorem check_quiet (fuel : ℕ) : FailsQuietly (check fuel) := by
  induction fuel with
  | zero =>
      constructor
      · intro c s node s' hc hempty hapart h
        cases h
      · intro c s node s' hsingle h
        cases h
      · intro c s node s' h
        cases h
  | succ fuel ih =>
      constructor
      · intro c s node s' hc hempty hapart h
        have hfalse : c.rule.acceptsEmpty = false := by
          by_contra htrue
          apply hempty
          rw [Check.productions, if_pos (by simpa using htrue)]
          exact List.mem_append_right _ (List.mem_singleton_self _)
        rw [check_step, hfalse, enter_plain hc] at h
        exact tryMatching_quiet ih hc hempty (fun _ hp => hp) rfl hapart h
      · intro c s node s' hsingle h
        obtain ⟨hc, hfalse, hprods⟩ := single_prods c hsingle
        rw [check_step, hfalse, enter_plain hc] at h
        exact tryMatching_single hprods h
      · exact check_matches (fuel + 1)

/-! ## What is recorded where something follows -/

/-- The calls in the trees have at most this many arguments. -/
def CallsWithin (b : ℕ) (cs : List Node) : Prop := ∀ node ∈ cs, node.maxCall ≤ b

/-- A phrase that is followed by a token that may follow it has all recorded calls in
its tree. -/
def Records (rec : Check → P Node) : Prop :=
  ∀ c, (Sym.nonterminal c).plain = true → ∀ s node s' t y, rec c s = .ok node s' → node ≠ .null →
    s'.token = t :: y → t.type ∈ c.follow → s'.maxArgCount ≤ max s.maxArgCount node.maxCall

/-- Every nonterminal of the production is followed by a token that may follow it. -/
abbrev symFollows (F : List TokenType) (prod : List Sym) : Prop :=
  follows Check.productions Check.starts Check.follow F (prod.map Sym.symbol) = true

/-- The next two tokens refute the first production where the second is meant. -/
abbrev symSeparate (F : List TokenType) (prod prod' : List Sym) : Prop :=
  separate Check.productions Check.starts F (prod.map Sym.symbol) (prod'.map Sym.symbol) = true

section Recorded
variable {rec : Check → P Node}

/-- What follows the first nonterminal of a production that matches. -/
theorem matchSyms_follow (hq : FailsQuietly rec) {F : List TokenType} {c : Check} {prod : List Sym}
    (hf : symFollows F (.nonterminal c :: prod)) {s s' : PState} {children cs : List Node}
    (h : matchSyms rec prod children s = .ok (some cs) s') {t : Token} {y : List Token}
    (htok : s'.token = t :: y) (ht : t.type ∈ F) :
    symFollows F prod ∧ ∃ u z, s.token = u :: z ∧ u.type ∈ c.follow := by
  obtain ⟨w, new, hw, -, hmatches⟩ := matchSyms_matches hq.phrase h
  obtain ⟨ds, hds⟩ := hmatches.leftmost
  obtain ⟨u, z, hu, hfirst⟩ := hds.mem_firsts check_lookahead ht y
  rw [symFollows, List.map_cons, Sym.symbol, follows, Bool.and_eq_true, List.all_eq_true] at hf
  exact ⟨hf.2, u, z, by rw [hw, htok, hu], of_decide_eq_true (hf.1 u.type hfirst)⟩

/-- **A production that matches** has recorded what is in its trees. -/
theorem matchSyms_records (hr : Records rec) (hq : FailsQuietly rec) {F : List TokenType}
    {prod : List Sym} (hplain : ∀ sym ∈ prod, sym.plain = true) (hf : symFollows F prod)
    {children new : List Node} {s s' : PState}
    (h : matchSyms rec prod children s = .ok (some (children ++ new)) s') {t : Token}
    {y : List Token} (htok : s'.token = t :: y) (ht : t.type ∈ F) {b : ℕ}
    (hb : CallsWithin b new) : s'.maxArgCount ≤ max s.maxArgCount b := by
  induction prod generalizing children new s with
  | nil =>
      obtain ⟨-, rfl⟩ := EStateM.Result.ok.inj h
      exact le_max_left _ _
  | cons sym prod ih =>
      have ih := @ih fun x hx => hplain x (List.mem_cons_of_mem _ hx)
      cases hs : s.token with
      | nil =>
          rw [matchSyms_nil rec hs] at h
          cases h
      | cons u z =>
          cases sym with
          | terminal type create =>
              by_cases htype : u.type = type
              · rw [matchSyms_terminal hs htype] at h
                obtain ⟨cs, s₁, hchild, hrest⟩ := bind_eq_ok h
                obtain ⟨rfl, new₁, rfl, -⟩ := createChild_append hchild
                obtain ⟨w, new₂, -, heq, -⟩ := matchSyms_matches hq.phrase hrest
                rw [List.append_assoc] at heq
                obtain rfl := List.append_cancel_left heq
                rw [← List.append_assoc] at hrest
                exact ih (s := { s₁ with token := z }) hf hrest fun n hn =>
                  hb n (List.mem_append_right _ hn)
              · rw [matchSyms_mismatch hs htype] at h
                cases h
          | nonterminal c =>
              rw [matchSyms_nonterminal hs] at h
              obtain ⟨node, s₁, hnode, hrest⟩ := bind_eq_ok h
              by_cases hnull : node = .null
              · rw [if_pos hnull] at hrest
                cases hrest
              · rw [if_neg hnull] at hrest
                obtain ⟨w, new₂, -, heq, -⟩ := matchSyms_matches hq.phrase hrest
                rw [List.append_assoc] at heq
                obtain rfl := List.append_cancel_left heq
                rw [← List.append_assoc] at hrest
                obtain ⟨hf', v, x, hv, hfollow⟩ := matchSyms_follow hq hf hrest htok ht
                have hfirst := hr c (hplain _ List.mem_cons_self) s node s₁ v x hnode hnull hv
                  hfollow
                have hle := ih hf' hrest fun n hn => hb n (List.mem_append_right _ hn)
                have hnodeb := hb node (List.mem_append_left _ (List.mem_singleton_self node))
                omega

/-- A production that cannot be meant where the other one matches. -/
theorem matchSyms_apart (hq : FailsQuietly rec) {F : List TokenType} {sym : Sym} {prod : List Sym}
    (prod' : List Sym) (hplain : ∀ x ∈ sym :: prod, x.plain = true)
    (hsep : (headed Check.productions ((sym :: prod).map Sym.symbol) &&
      (symHeads (sym :: prod)).all fun pk =>
        (looks Check.productions Check.starts F (prod'.map Sym.symbol)).all (apart pk)) = true)
    {children children' cs : List Node} {s s₁ s' s₂ : PState} {r : Option (List Node)}
    (h : matchSyms rec (sym :: prod) children s = .ok r s₁)
    (h' : matchSyms rec prod' children' s' = .ok (some cs) s₂) (hs : s'.token = s.token)
    {t : Token} {y : List Token} (htok : s₂.token = t :: y) (ht : t.type ∈ F) :
    r = none ∧ s₁.maxArgCount = s.maxArgCount := by
  rw [Bool.and_eq_true] at hsep
  apply matchSyms_quiet hq hplain (List.cons_ne_nil _ _) hsep.1 _ h
  obtain ⟨w, new, hw, -, hmatches⟩ := matchSyms_matches hq.phrase h'
  obtain ⟨ds, hds⟩ := hmatches.leftmost
  obtain ⟨pk', hmem', hpk'⟩ := hds.peeks_looks check_lookahead ht y
  rintro ⟨pk, hmem, hpk⟩
  have hne := List.all_eq_true.mp (List.all_eq_true.mp hsep.2 pk hmem) pk' hmem'
  apply not_matches_of_apart hne hpk
  rw [← hs, hw, htok]
  exact hpk'

/-- **A production that is given up** where another one matches: it has recorded only
what is in the trees of the other. -/
theorem matchSyms_given_up (hr : Records rec) (hq : FailsQuietly rec)
    (hi : ∀ c : Check, (Sym.nonterminal c).plain = true → IgnoresMax (rec c))
    {F : List TokenType} {prod prod' : List Sym} (hplain : ∀ sym ∈ prod, sym.plain = true)
    (hf : symFollows F prod') (hsep : symSeparate F prod prod')
    {children children' new : List Node} {s s₁ s₂ : PState} {m : ℕ} {r : Option (List Node)}
    (h : matchSyms rec prod children s = .ok r s₁)
    (h' : matchSyms rec prod' children' (reMax m s) = .ok (some (children' ++ new)) s₂)
    {t : Token} {y : List Token} (htok : s₂.token = t :: y) (ht : t.type ∈ F) {b : ℕ}
    (hb : CallsWithin b new) : r = none ∧ s₁.maxArgCount ≤ max s.maxArgCount b := by
  induction prod generalizing prod' children children' new s m with
  | nil => simp [symSeparate, separate] at hsep
  | cons sym prod ih =>
      have hplain' := fun x hx => hplain x (List.mem_cons_of_mem _ hx)
      cases prod' with
      | nil =>
          obtain ⟨hnone, hmax⟩ := matchSyms_apart hq [] hplain hsep h h' rfl htok ht
          exact ⟨hnone, hmax ▸ le_max_left _ _⟩
      | cons sym' prod' =>
          rw [symSeparate, List.map_cons, List.map_cons, separate, Bool.or_eq_true] at hsep
          rcases hsep with hsep | hsep
          · rw [Bool.and_eq_true, decide_eq_true_eq] at hsep
            obtain ⟨hsym, hsep⟩ := hsep
            cases hs : s.token with
            | nil =>
                have hs' : (reMax m s).token = [] := hs
                rw [matchSyms_nil rec hs'] at h'
                cases h'
            | cons u z =>
                have hs' : (reMax m s).token = u :: z := hs
                cases sym' with
                | terminal type create' =>
                    cases sym with
                    | nonterminal c => cases hsym
                    | terminal type₁ create =>
                        obtain rfl : type₁ = type := by simpa [Sym.symbol] using hsym
                        by_cases htype : u.type = type₁
                        · rw [matchSyms_terminal hs htype] at h
                          rw [matchSyms_terminal hs' htype] at h'
                          obtain ⟨cs, s₃, hchild, hrest⟩ := bind_eq_ok h
                          obtain ⟨rfl, -⟩ := createChild_append hchild
                          obtain ⟨cs', s₄, hchild', hrest'⟩ := bind_eq_ok h'
                          obtain ⟨rfl, new₁, rfl, -⟩ := createChild_append hchild'
                          obtain ⟨w, new₂, -, heq, -⟩ := matchSyms_matches hq.phrase hrest'
                          rw [List.append_assoc] at heq
                          obtain rfl := List.append_cancel_left heq
                          rw [← List.append_assoc] at hrest'
                          have hf' : symFollows F prod' := hf
                          exact ih hplain' hf' hsep (s := { s₃ with token := z }) hrest hrest'
                            fun n hn => hb n (List.mem_append_right _ hn)
                        · rw [matchSyms_mismatch hs' htype] at h'
                          cases h'
                | nonterminal c =>
                    cases sym with
                    | terminal type create => cases hsym
                    | nonterminal c₁ =>
                        obtain rfl : c₁ = c := by simpa [Sym.symbol] using hsym
                        have hc := hplain _ List.mem_cons_self
                        rw [matchSyms_nonterminal hs] at h
                        rw [matchSyms_nonterminal hs'] at h'
                        obtain ⟨node, s₃, hnode, hrest⟩ := bind_eq_ok h
                        -- the nonterminal gives the same node again
                        obtain ⟨m', hsame⟩ := (hi c₁ hc).run s m
                        rw [hnode] at hsame
                        rw [bind_ok hsame] at h'
                        by_cases hnull : node = .null
                        · rw [if_pos hnull] at h'
                          cases h'
                        · rw [if_neg hnull] at hrest h'
                          obtain ⟨w, new₂, -, heq, -⟩ := matchSyms_matches hq.phrase h'
                          rw [List.append_assoc] at heq
                          obtain rfl := List.append_cancel_left heq
                          rw [← List.append_assoc] at h'
                          obtain ⟨hf', v, x, hv, hfollow⟩ := matchSyms_follow hq hf h' htok ht
                          have hfirst := hr c₁ hc s node s₃ v x hnode hnull hv hfollow
                          obtain ⟨hnone, hle⟩ := ih hplain' hf' hsep hrest h' fun n hn =>
                            hb n (List.mem_append_right _ hn)
                          have hnodeb :=
                            hb node (List.mem_append_left _ (List.mem_singleton_self node))
                          exact ⟨hnone, by omega⟩
          · obtain ⟨hnone, hmax⟩ := matchSyms_apart hq (sym' :: prod') hplain hsep h h' rfl
              htok ht
            exact ⟨hnone, hmax ▸ le_max_left _ _⟩

/-- A production has three children at most. -/
theorem prods_children : ∀ c : Check, (Sym.nonterminal c).plain = true → ∀ p ∈ c.rule.prods,
    (p.1.filter Sym.makes).length ≤ 3 := by
  intro c
  cases c <;> decide

theorem plainNode_maxCall {type : AstType} (h₃ : type ≠ .astFcall) (h₄ : type ≠ .astRetFcall)
    {cs : List Node} (hcs : cs.length ≤ 3) : CallsWithin (plainNode type cs).maxCall cs := by
  have hnone : ¬ (type = .astFcall ∨ type = .astRetFcall) := by simp [h₃, h₄]
  intro n hn
  rw [plainNode, Node.maxCall, if_neg hnone]
  rcases cs with _ | ⟨a, _ | ⟨b, _ | ⟨c, _ | ⟨d, cs⟩⟩⟩⟩
  · cases hn
  · obtain rfl := List.mem_singleton.mp hn
    simp [child]
  · have hcases : n = a ∨ n = b := by simpa using hn
    rcases hcases with rfl | rfl <;> simp [child]
  · have hcases : n = a ∨ n = b ∨ n = c := by simpa using hn
    rcases hcases with rfl | rfl | rfl <;> simp [child]
  · simp only [List.length_cons] at hcs
    omega

/-- The node of a call holds the calls in its arguments, and its own is recorded. -/
theorem createFcall_records {type : AstType} (htype : type = .astFcall ∨ type = .astRetFcall)
    {f : String} {args node : Node} {mustReturn : Bool} {s s' : PState}
    (h : createFcall type [identNode f, args] mustReturn s = .ok node s') (hnode : node ≠ .null) :
    CallsWithin node.maxCall [identNode f, args] ∧
      s'.maxArgCount ≤ max s.maxArgCount node.maxCall := by
  obtain ⟨func, s₁, hget, h⟩ := bind_eq_ok h
  obtain ⟨-, rfl⟩ := EStateM.Result.ok.inj hget
  cases func with
  | none =>
      obtain ⟨rfl, -⟩ := EStateM.Result.ok.inj h
      exact absurd rfl hnode
  | some func =>
      simp only at h
      split_ifs at h with hvoid hcount
      · obtain ⟨rfl, -⟩ := EStateM.Result.ok.inj h
        exact absurd rfl hnode
      · obtain ⟨rfl, -⟩ := EStateM.Result.ok.inj h
        exact absurd rfl hnode
      · obtain ⟨rfl, rfl⟩ := EStateM.Result.ok.inj h
        have hargs : child [identNode f, args] 1 = args := rfl
        have hmax : ∀ val, (Node.mk type val args .null .null).maxCall =
            max (countArgs args) (max args.maxCall 0) := by
          intro val
          rw [Node.maxCall, if_pos htype]
          rfl
        rw [hargs, hmax]
        constructor
        · intro n hn
          have hcases : n = identNode f ∨ n = args := by simpa using hn
          rcases hcases with rfl | rfl
          · exact Nat.zero_le _
          · rw [Nat.max_zero]
            exact le_max_right _ _
        · exact max_le_max (le_refl s.maxArgCount) (le_max_left _ _)

/-- The node of a production holds the calls of its children, and its own is recorded. -/
theorem createNode_records {c : Check} {p : List Sym × AstType}
    (hc : (Sym.nonterminal c).plain = true) (hp : p ∈ c.rule.prods) {t : FuncTable} {M : ℕ}
    {cs : List Node} (hcs : Children t M p.1 cs) {s s' : PState} {node : Node}
    (h : createNode p.2 cs s = .ok node s') (hnode : node ≠ .null) :
    CallsWithin node.maxCall cs ∧ s'.maxArgCount ≤ max s.maxArgCount node.maxCall := by
  obtain ⟨-, hfunc, hproto, hfcall, hret, -⟩ := rule_plain c hc p hp
  obtain ⟨prod, type⟩ := p
  simp only at hfunc hproto hfcall hret hcs h
  by_cases hcf : c = .fcall
  · subst hcf
    obtain rfl := hfcall.mpr rfl
    simp only [Check.rule, checkFcall, List.mem_singleton, Prod.mk.injEq, and_true] at hp
    subst hp
    obtain ⟨_, args, ⟨token, -, rfl⟩, -, rfl⟩ := children_two hcs
    exact createFcall_records (.inl rfl) h hnode
  · by_cases hcr : c = .retFcall
    · subst hcr
      obtain rfl := hret.mpr rfl
      simp only [Check.rule, checkRetFcall, List.mem_singleton, Prod.mk.injEq, and_true] at hp
      subst hp
      obtain ⟨_, args, ⟨token, -, rfl⟩, -, rfl⟩ := children_two hcs
      exact createFcall_records (.inr rfl) h hnode
    · have h₃ := mt hfcall.mp hcf
      have h₄ := mt hret.mp hcr
      rw [createNode_plain hfunc hproto h₃ h₄] at h
      obtain ⟨rfl, rfl⟩ := EStateM.Result.ok.inj h
      refine ⟨plainNode_maxCall h₃ h₄ ?_, le_max_left _ _⟩
      rw [← hcs.length_eq]
      exact prods_children c hc _ hp

/-- The productions of a nonterminal, from one of them on. -/
def symProds (acceptsEmpty : Bool) (prods : List (List Sym × AstType)) : List (List GSym) :=
  prods.map (fun p => p.1.map Sym.symbol) ++ if acceptsEmpty then [[]] else []

theorem symProds_rule (c : Check) : symProds c.rule.acceptsEmpty c.rule.prods = c.productions := rfl

theorem symProds_subset {c : Check} {prods : List (List Sym × AstType)}
    (h : ∀ p ∈ prods, p ∈ c.rule.prods) : symProds c.rule.acceptsEmpty prods ⊆ c.productions := by
  intro q hq
  rcases List.mem_append.mp hq with hq | hq
  · obtain ⟨p, hp, rfl⟩ := List.mem_map.mp hq
    exact List.mem_append_left _ (List.mem_map_of_mem (h p hp))
  · exact List.mem_append_right _ hq

/-- One of the productions matches, and the node holds the calls of its trees. -/
def Wins (rec : Check → P Node) (acceptsEmpty : Bool) (prods : List (List Sym × AstType))
    (s : PState) (node : Node) (s' : PState) : Prop :=
  ∃ prod : List Sym, prod.map Sym.symbol ∈ symProds acceptsEmpty prods ∧
    ∃ m cs s₁, matchSyms rec prod [] (reMax m s) = .ok (some cs) s₁ ∧ s₁.token = s'.token ∧
      CallsWithin node.maxCall cs

theorem tryMatching_records (hr : Records rec) (hq : FailsQuietly rec)
    (hi : ∀ c : Check, (Sym.nonterminal c).plain = true → IgnoresMax (rec c))
    (hspec : ∀ c, (Sym.nonterminal c).plain = true → ∀ s,
      Ends (Parsed c s) (fun _ _ => True) (rec c s))
    {c : Check} (hc : (Sym.nonterminal c).plain = true) {prods : List (List Sym × AstType)}
    (hprods : ∀ p ∈ prods, p ∈ c.rule.prods)
    (hsep : (symProds c.rule.acceptsEmpty prods).Pairwise fun p q =>
      separate Check.productions Check.starts c.follow p q = true)
    {s s' : PState} {node : Node}
    (h : tryMatching rec s.token c.rule.acceptsEmpty prods s = .ok node s') (hnode : node ≠ .null)
    {t : Token} {y : List Token} (htok : s'.token = t :: y) (ht : t.type ∈ c.follow) :
    Wins rec c.rule.acceptsEmpty prods s node s' ∧
      s'.maxArgCount ≤ max s.maxArgCount node.maxCall := by
  induction prods generalizing s with
  | nil =>
      cases hempty : c.rule.acceptsEmpty with
      | true =>
          rw [hempty] at h
          obtain ⟨-, rfl⟩ := EStateM.Result.ok.inj h
          refine ⟨⟨[], List.mem_singleton_self _, s.maxArgCount, [], s, rfl, rfl, nofun⟩, ?_⟩
          exact le_max_left _ _
      | false =>
          rw [hempty] at h
          obtain ⟨rfl, -⟩ := EStateM.Result.ok.inj h
          exact absurd rfl hnode
  | cons p prods ih =>
      have hp := hprods p List.mem_cons_self
      have hplain := (rule_plain c hc p hp).1
      obtain ⟨first, s₁, hfirst, hrest⟩ := bind_eq_ok h
      obtain ⟨hsep₁, hsep⟩ := List.pairwise_cons.mp hsep
      by_cases hnull : first = .null
      · rw [if_pos hnull] at hrest
        have hstate : { s₁ with token := s.token } = reMax s₁.maxArgCount s := by
          have htable := ((matchProd_spec hspec hc hp s).ok hfirst).frame.table
          rw [reMax, ← htable]
        obtain ⟨_, s₂, hset, hrest⟩ := bind_eq_ok hrest
        obtain ⟨-, rfl⟩ := EStateM.Result.ok.inj hset
        change tryMatching rec s.token c.rule.acceptsEmpty prods { s₁ with token := s.token } = _
          at hrest
        rw [hstate] at hrest
        have hprods' := fun q hq => hprods q (List.mem_cons_of_mem _ hq)
        obtain ⟨⟨prod, hmem, m, cs, s₂, hwin, hend, hcs⟩, hle⟩ :=
          ih (s := reMax s₁.maxArgCount s) hprods' hsep hrest
        have hf := check_lookahead.follows_prod c _ (symProds_subset hprods' hmem)
        obtain ⟨r, s₃, hsyms, hmade⟩ := bind_eq_ok hfirst
        change matchSyms rec prod [] _ = .ok (some ([] ++ cs)) s₂ at hwin
        obtain ⟨rfl, hle₃⟩ := matchSyms_given_up hr hq hi hplain hf (hsep₁ _ hmem) hsyms hwin
          (hend.trans htok) ht hcs
        obtain ⟨-, rfl⟩ := EStateM.Result.ok.inj hmade
        change s'.maxArgCount ≤ max s₃.maxArgCount node.maxCall at hle
        exact ⟨⟨prod, List.mem_cons_of_mem _ hmem, m, cs, s₂, hwin, hend, hcs⟩, by omega⟩
      · rw [if_neg hnull] at hrest
        obtain ⟨rfl, rfl⟩ := EStateM.Result.ok.inj hrest
        obtain ⟨r, s₃, hsyms, hmade⟩ := bind_eq_ok hfirst
        cases r with
        | none =>
            obtain ⟨rfl, -⟩ := EStateM.Result.ok.inj hmade
            exact absurd rfl hnode
        | some cs =>
            obtain ⟨new, rfl, hchildren, -⟩ :=
              ((matchSyms_spec hspec p.1 hplain [] s).ok hsyms).2 cs rfl
            obtain ⟨hcs, hle⟩ := createNode_records hc hp hchildren hmade hnode
            have htoken := ((Action.createNode p.2 _).run s₃).ok hmade
            have hmem : p.1.map Sym.symbol ∈ symProds c.rule.acceptsEmpty (p :: prods) :=
              List.mem_cons_self
            have hf := check_lookahead.follows_prod c _ (symProds_subset hprods hmem)
            have hle₃ := matchSyms_records hr hq hplain hf hsyms (htoken.symm.trans htok) ht hcs
            exact ⟨⟨p.1, hmem, s.maxArgCount, _, s₃, hsyms, htoken.symm, hcs⟩, by omega⟩

end Recorded

theorem check_records (fuel : ℕ) : Records (check fuel) := by
  induction fuel with
  | zero =>
      intro c hc s node s' t y h
      cases h
  | succ fuel ih =>
      intro c hc s node s' t y h hnode htok ht
      rw [check_step, enter_plain hc] at h
      have hsep := check_lookahead.separate_prods c
      rw [← symProds_rule c] at hsep
      have hspec := fun (c : Check) (hc : (Sym.nonterminal c).plain = true) (s : PState) =>
        check_spec fuel hc s
      exact (tryMatching_records ih (check_quiet fuel) (check_ignoresMax fuel) hspec hc
        (fun _ hp => hp) hsep h hnode htok ht).2

/-! ## Trees and calls -/

/-- The calls have at most this many arguments, and one of them has. -/
structure IsMaxCall (calls : List Call) (M : ℕ) : Prop where
  le : ∀ c ∈ calls, c.argCount ≤ M
  attained : calls = [] ∧ M = 0 ∨ ∃ c ∈ calls, c.argCount = M

theorem IsMaxCall.nil : IsMaxCall [] 0 := ⟨nofun, .inl ⟨rfl, rfl⟩⟩

theorem IsMaxCall.append {l l' : List Call} {M M' : ℕ} (h : IsMaxCall l M) (h' : IsMaxCall l' M') :
    IsMaxCall (l ++ l') (max M M') := by
  constructor
  · intro c hc
    rcases List.mem_append.mp hc with hc | hc
    · exact (h.le c hc).trans (le_max_left _ _)
    · exact (h'.le c hc).trans (le_max_right _ _)
  · rcases le_total M M' with hle | hle
    · rw [max_eq_right hle]
      rcases h'.attained with ⟨rfl, rfl⟩ | ⟨c, hc, hM⟩
      · obtain rfl : M = 0 := Nat.le_zero.mp hle
        rw [List.append_nil]
        exact h.attained
      · exact .inr ⟨c, List.mem_append_right _ hc, hM⟩
    · rw [max_eq_left hle]
      rcases h.attained with ⟨rfl, rfl⟩ | ⟨c, hc, hM⟩
      · obtain rfl : M' = 0 := Nat.le_zero.mp hle
        exact h'.attained
      · exact .inr ⟨c, List.mem_append_left _ hc, hM⟩

/-- A call and the calls in its arguments. -/
theorem IsMaxCall.call {l : List Call} {M : ℕ} (h : IsMaxCall l M) (f : String) (n : ℕ)
    (mustReturn : Bool) : IsMaxCall (l ++ [⟨f, n, mustReturn⟩]) (max n M) := by
  rw [max_comm]
  apply h.append
  constructor
  · intro c hc
    rw [List.mem_singleton.mp hc]
  · exact .inr ⟨_, List.mem_singleton_self _, rfl⟩

section Trees
variable (ref : String → NodeVal)

/-- A node without a call of its own. -/
theorem maxCall_mk {type : AstType} (h : ¬ (type = .astFcall ∨ type = .astRetFcall))
    (val : NodeVal) (l m r : Node) :
    (Node.mk type val l m r).maxCall = max l.maxCall (max m.maxCall r.maxCall) := by
  rw [Node.maxCall, if_neg h, Nat.zero_max]

/-- The node of a call. -/
theorem maxCall_call {type : AstType} (h : type = .astFcall ∨ type = .astRetFcall) (val : NodeVal)
    (args : Args) : (Node.mk type val (args.node ref) .null .null).maxCall =
      max args.count (args.node ref).maxCall := by
  rw [Node.maxCall, if_pos h, countArgs_node, Node.maxCall, Nat.max_zero, Nat.max_zero]

theorem maxCall_inner {type : AstType} (h : ¬ (type = .astFcall ∨ type = .astRetFcall)) (n : Node) :
    (inner type n).maxCall = n.maxCall := by
  rw [inner, maxCall_mk h]
  exact Nat.max_zero _

mutual

theorem Expr.isMaxCall : ∀ e : Expr, IsMaxCall e.calls (e.node ref).maxCall
  | .unary u => by
      rw [Expr.node, maxCall_inner (by decide)]
      exact u.isMaxCall
  | .bin u op e => by
      rw [Expr.node, maxCall_mk (by decide)]
      have hop : (numopNode op).maxCall = 0 := rfl
      rw [hop, Nat.zero_max]
      exact u.isMaxCall.append e.isMaxCall

theorem Unary.isMaxCall : ∀ u : Unary, IsMaxCall u.calls (u.node ref).maxCall
  | .call f args => by
      rw [Unary.node, maxCall_inner (by decide), maxCall_call ref (.inr rfl)]
      exact (Args.isMaxCall args).call f _ true
  | .var x => .nil
  | .lit n => .nil
  | .paren e => by
      rw [Unary.node, maxCall_inner (by decide)]
      exact e.isMaxCall

theorem Args.isMaxCall : ∀ args : Args, IsMaxCall args.calls (args.node ref).maxCall
  | .empty => .nil
  | .last e => by
      rw [Args.node, maxCall_inner (by decide)]
      exact e.isMaxCall
  | .cons e args => by
      rw [Args.node, inner, maxCall_mk (by decide), Node.maxCall, Nat.max_zero]
      exact e.isMaxCall.append args.isMaxCall

end

theorem Cond.isMaxCall (c : Cond) : IsMaxCall c.calls (c.node ref).maxCall := by
  rw [Cond.node, maxCall_mk (by decide)]
  have hop : (boolopNode c.op).maxCall = 0 := rfl
  rw [hop, Nat.zero_max]
  exact (c.left.isMaxCall ref).append (c.right.isMaxCall ref)

theorem exprNode?_isMaxCall (e : Option Expr) :
    IsMaxCall (exprCalls? e) (exprNode? ref e).maxCall := by
  cases e with
  | none => exact .nil
  | some e => exact e.isMaxCall ref

end Trees

theorem Simple.isMaxCall (s : Simple) : IsMaxCall s.calls s.raw.maxCall := by
  cases s with
  | varDef type x init =>
      rw [Simple.raw, maxCall_mk (by decide)]
      have htype : (typeNode type).maxCall = 0 := rfl
      have hname : (identNode x).maxCall = 0 := rfl
      rw [htype, hname, Nat.zero_max, Nat.zero_max]
      exact exprNode?_isMaxCall .str init
  | varAssign x e =>
      rw [Simple.raw, inner, maxCall_mk (by decide)]
      have hname : (identNode x).maxCall = 0 := rfl
      rw [hname, Nat.zero_max, Node.maxCall, Nat.max_zero]
      exact e.isMaxCall .str

theorem maxCall_inner₂ {type : AstType} (h : ¬ (type = .astFcall ∨ type = .astRetFcall))
    (l m : Node) : (inner type l m).maxCall = max l.maxCall m.maxCall := by
  rw [inner, maxCall_mk h, Node.maxCall, Nat.max_zero]

/-- **The calls of a statement are those in its tree.** -/
theorem Stmt.isMaxCall (s : Stmt) : IsMaxCall s.calls s.raw.maxCall := by
  induction s with
  | skip => exact .nil
  | seq s rest ihs ihrest =>
      change IsMaxCall _ (inner .astSequence s.raw rest.raw).maxCall
      rw [maxCall_inner₂ (by decide)]
      exact ihs.append ihrest
  | simple s =>
      change IsMaxCall _ (inner .astStatement s.raw).maxCall
      rw [maxCall_inner (by decide)]
      exact s.isMaxCall
  | call f args =>
      change IsMaxCall _
        (inner .astStatement (.mk .astFcall (.func f) (args.node .str) .null .null)).maxCall
      rw [maxCall_inner (by decide), maxCall_call .str (.inl rfl)]
      exact (args.isMaxCall .str).call f _ false
  | print e =>
      change IsMaxCall _ (inner .astStatement (inner .astPrint (e.node .str))).maxCall
      rw [maxCall_inner (by decide), maxCall_inner (by decide)]
      exact e.isMaxCall .str
  | ret e =>
      change IsMaxCall _ (inner .astStatement (inner .astReturn (exprNode? .str e))).maxCall
      rw [maxCall_inner (by decide), maxCall_inner (by decide)]
      exact exprNode?_isMaxCall .str e
  | ifThen c s ih =>
      change IsMaxCall _ (inner .astBranch (c.node .str) s.raw).maxCall
      rw [maxCall_inner₂ (by decide)]
      exact (c.isMaxCall .str).append ih
  | ifElse c s₁ s₂ ih₁ ih₂ =>
      change IsMaxCall _ (Node.mk .astBranch .uninit (c.node .str) s₁.raw s₂.raw).maxCall
      rw [maxCall_mk (by decide), ← max_assoc]
      exact ((c.isMaxCall .str).append ih₁).append ih₂
  | whileLoop c body ih =>
      change IsMaxCall _ (inner .astLoop (c.node .str) body.raw).maxCall
      rw [maxCall_inner₂ (by decide)]
      exact (c.isMaxCall .str).append ih
  | forLoop init c x e body ih =>
      have hupdate := Simple.isMaxCall (.varAssign x e)
      change IsMaxCall _ (inner .astLoop (.mk .astForLoopHead .uninit init.raw (c.node .str)
        (Simple.raw (.varAssign x e))) body.raw).maxCall
      rw [maxCall_inner₂ (by decide), maxCall_mk (by decide), ← max_assoc]
      exact ((init.isMaxCall.append (c.isMaxCall .str)).append hupdate).append ih
  | doLoop body c ih =>
      change IsMaxCall _ (inner .astLoop body.raw (c.node .str)).maxCall
      rw [maxCall_inner₂ (by decide)]
      exact ih.append (c.isMaxCall .str)

/-! ## Definitions -/

theorem IsMaxCall.unique {calls : List Call} {M M' : ℕ} (h : IsMaxCall calls M)
    (hle : ∀ c ∈ calls, c.argCount ≤ M') (hM' : M' ≤ M) : M' = M := by
  rcases h.attained with ⟨-, rfl⟩ | ⟨c, hc, rfl⟩
  · exact Nat.le_zero.mp hM'
  · exact le_antisymm hM' (hle c hc)

theorem maxCall_params (params : Params) : params.node.maxCall = 0 := by
  induction params with
  | void => rfl
  | last type x => rfl
  | cons type x params ih =>
      rw [Params.node, maxCall_inner₂ (by decide), ih]
      rfl

/-- A definition that matches has recorded what is in its body. -/
theorem matchSyms_func_records {fuel : ℕ} {f : Func} {s₀ s₁ : PState} (hmax : s₀.maxArgCount = 0)
    (h : matchSyms (check fuel) (signature ++ bodySyms) [] s₀ = .ok (some f.children) s₁) :
    s₁.maxArgCount ≤ f.body.raw.maxCall := by
  have hsplit : signature ++ bodySyms =
      (signature ++ [tok .tokOpenbr, .nonterminal .sequence]) ++ [tok .tokClosebr] := rfl
  rw [hsplit, matchSyms_append] at h
  obtain ⟨r, s₂, hfront, hlast⟩ := bind_eq_ok h
  cases r with
  | none => cases hlast
  | some cs =>
      obtain ⟨t, y, htok, htype⟩ := matchSyms_head hlast
      simp only [tok, matchSyms_terminal htok htype] at hlast
      obtain ⟨hcs, rfl⟩ := EStateM.Result.ok.inj hlast
      obtain rfl := Option.some.inj hcs
      have hwithin : CallsWithin f.body.raw.maxCall f.children := by
        intro n hn
        have hcases : n = typeNode f.ret ∨ n = identNode f.name ∨ n = f.params.node ∨
            n = f.body.raw := by
          simpa [Func.children, Proto.children, Func.proto] using hn
        rcases hcases with rfl | rfl | rfl | rfl
        · exact Nat.zero_le _
        · exact Nat.zero_le _
        · rw [maxCall_params]
          exact Nat.zero_le _
        · exact le_refl _
      change matchSyms (check fuel) _ [] s₀ = .ok (some ([] ++ f.children)) s₂ at hfront
      have hle := matchSyms_records (check_records fuel) (check_quiet fuel) (by decide)
        (F := [.tokClosebr]) (by decide) hfront htok (by rw [htype]; decide) hwithin
      rw [hmax, Nat.zero_max] at hle
      exact hle

/-- **The recorded argument count of a definition** is that of its calls. -/
theorem matchProd_func_isMaxCall {fuel : ℕ} {s₀ s' : PState} {node : Node}
    (hmax : s₀.maxArgCount = 0)
    (h : matchProd (check fuel) .astFunction (signature ++ bodySyms) s₀ = .ok node s')
    (hne : node ≠ .null) :
    ∃ f : Func, (∃ s₁, matchSyms (check fuel) (signature ++ bodySyms) [] s₀ =
        .ok (some f.children) s₁) ∧ node = (Item.func f).node ∧
      f.Registers s₀.funcTable s'.funcTable ∧ IsMaxCall f.body.calls f.maxCall := by
  obtain ⟨f, rfl, hreg, -, s₁, hmatch, hM⟩ :=
    matchProd_func (fun c hc s => check_spec fuel hc s) hmax h hne
  have hle := matchSyms_func_records hmax hmatch
  rw [hM] at hle
  have hcalls : ∀ c ∈ f.body.calls, c.argCount ≤ f.maxCall := by
    intro c hc
    obtain ⟨info, -, -, -, hargs⟩ := hreg.1 c hc
    exact hargs
  have hmaxCall := f.body.isMaxCall
  rw [← hmaxCall.unique hcalls hle] at hmaxCall
  exact ⟨f, ⟨s₁, hmatch⟩, rfl, hreg, hmaxCall⟩

end Bispe
