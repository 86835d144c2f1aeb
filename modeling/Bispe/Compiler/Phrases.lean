import Bispe.Compiler.Grammar

/-!
# Phrases

What a `check_*` function that succeeds has read: the tokens of a phrase, and how its
node is made of them.  The alternatives that were given up leave nothing behind in it.

## Main definitions

* `Parses` — tokens and nodes of a list of symbols.
* `check_matches`, `matchSyms_matches` — what the parser matches.
* `Parses.leftmost` — the productions of a phrase are a derivation.
-/

namespace Bispe

open Effect Grammar

/-- The children a terminal makes of its token. -/
def Makes (create : Option Creator) (token : Token) (new : List Node) : Prop :=
  ∃ s s', createChild create token [] s = .ok new s'

/-- A node is made of the children of a production. -/
def Builds (type : AstType) (cs : List Node) (node : Node) : Prop :=
  node ≠ .null ∧ ∃ s s', createNode type cs s = .ok node s'

/-- The symbols are matched by the tokens, and leave the nodes. -/
inductive Parses : List Sym → List Token → List Node → Prop
  | nil : Parses [] [] []
  | terminal {type : TokenType} {create : Option Creator} {prod : List Sym} {token : Token}
      {w : List Token} {new cs : List Node} (htype : token.type = type)
      (hmakes : Makes create token new) (h : Parses prod w cs) :
      Parses (.terminal type create :: prod) (token :: w) (new ++ cs)
  | production {c : Check} {p : List Sym × AstType} {prod : List Sym} {w w' : List Token}
      {node : Node} {cs cs' : List Node} (hp : p ∈ c.rule.prods) (hsyms : Parses p.1 w cs)
      (hbuilds : Builds p.2 cs node) (h : Parses prod w' cs') :
      Parses (.nonterminal c :: prod) (w ++ w') (node :: cs')
  | empty {c : Check} {prod : List Sym} {w : List Token} {cs : List Node}
      (hempty : c.rule.acceptsEmpty = true) (h : Parses prod w cs) :
      Parses (.nonterminal c :: prod) w (emptyNode :: cs)

/-- A phrase in front of the rest of a production. -/
theorem Parses.cons {c : Check} {prod : List Sym} {w w' : List Token} {node : Node}
    {cs : List Node} (h : Parses [.nonterminal c] w [node]) (h' : Parses prod w' cs) :
    Parses (.nonterminal c :: prod) (w ++ w') (node :: cs) := by
  cases h with
  | production hp hsyms hbuilds hnil =>
      cases hnil
      rw [List.append_nil]
      exact .production hp hsyms hbuilds h'
  | empty hempty hnil =>
      cases hnil
      exact .empty hempty h'

theorem Parses.split {c : Check} {prod : List Sym} {w : List Token} {cs : List Node}
    (h : Parses (.nonterminal c :: prod) w cs) : ∃ w₁ w₂ node cs', w = w₁ ++ w₂ ∧
      cs = node :: cs' ∧ Parses [.nonterminal c] w₁ [node] ∧ Parses prod w₂ cs' := by
  cases h with
  | production hp hsyms hbuilds h =>
      have hphrase := Parses.production hp hsyms hbuilds .nil
      rw [List.append_nil] at hphrase
      exact ⟨_, _, _, _, rfl, rfl, hphrase, h⟩
  | empty hempty h => exact ⟨[], _, _, _, rfl, rfl, .empty hempty .nil, h⟩

theorem Parses.token {type : TokenType} {create : Option Creator} {prod : List Sym}
    {w : List Token} {cs : List Node} (h : Parses (.terminal type create :: prod) w cs) :
    ∃ t w' new cs', w = t :: w' ∧ cs = new ++ cs' ∧ t.type = type ∧ Makes create t new ∧
      Parses prod w' cs' := by
  cases h with
  | terminal htype hmakes h => exact ⟨_, _, _, _, rfl, rfl, htype, hmakes, h⟩

/-- The productions of a phrase. -/
theorem Parses.production_of {c : Check} {w : List Token} {node : Node}
    (h : Parses [.nonterminal c] w [node]) (hc : c.rule.acceptsEmpty = false) :
    ∃ p ∈ c.rule.prods, ∃ cs, Parses p.1 w cs ∧ Builds p.2 cs node := by
  cases h with
  | production hp hsyms hbuilds h =>
      cases h
      rw [List.append_nil]
      exact ⟨_, hp, _, hsyms, hbuilds⟩
  | empty hempty _ =>
      rw [hc] at hempty
      cases hempty

theorem Builds.plain {type : AstType} {cs : List Node} {node : Node} (h : Builds type cs node)
    (h₁ : type ≠ .astFunction) (h₂ : type ≠ .astFunctionProto) (h₃ : type ≠ .astFcall)
    (h₄ : type ≠ .astRetFcall) : node = plainNode type cs := by
  obtain ⟨-, s, s', h⟩ := h
  rw [createNode_plain h₁ h₂ h₃ h₄] at h
  exact (EStateM.Result.ok.inj h).1.symm

/-- The number of a literal does not depend on the state. -/
theorem literalNumber_stateless {t : Token} {n : Word} {s s' : PState}
    (h : literalNumber t s = .ok n s') : ∀ s, literalNumber t s = .ok n s := by
  intro s₁
  rw [literalNumber] at h ⊢
  cases hnumber : strtol t.val.toList with
  | none =>
      rw [hnumber] at h
      cases h
  | some number =>
      rw [hnumber] at h
      by_cases hrange : 2 ^ 32 - 1 < number ∨ number < -2 ^ 31
      · simp only [if_pos hrange] at h
        cases h
      · simp only [if_neg hrange] at h ⊢
        obtain ⟨rfl, -⟩ := EStateM.Result.ok.inj h
        rfl

/-! ## What the parser matches -/

theorem createChild_append {create : Option Creator} {token : Token} {children cs : List Node}
    {s s' : PState} (h : createChild create token children s = .ok cs s') :
    s' = s ∧ ∃ new, cs = children ++ new ∧ Makes create token new := by
  refine ⟨((createChild_spec create token.type rfl children s).ok h).1, ?_⟩
  cases create with
  | none =>
      cases h
      exact ⟨[], (List.append_nil _).symm, s, s, rfl⟩
  | some creator =>
      obtain ⟨node, s₁, hnode, h⟩ := bind_eq_ok h
      cases h
      exact ⟨[node], rfl, s, s', bind_ok hnode⟩

section Loop
variable {rec : Check → P Node}

theorem matchSyms_matches
    (hrec : ∀ c s node s', rec c s = .ok node s' → node ≠ .null →
      ∃ w, s.token = w ++ s'.token ∧ Parses [.nonterminal c] w [node])
    {prod : List Sym} {children cs : List Node} {s s' : PState}
    (h : matchSyms rec prod children s = .ok (some cs) s') :
    ∃ w new, s.token = w ++ s'.token ∧ cs = children ++ new ∧ Parses prod w new := by
  induction prod generalizing children s with
  | nil =>
      cases h
      exact ⟨[], [], rfl, (List.append_nil _).symm, .nil⟩
  | cons sym prod ih =>
      cases htok : s.token with
      | nil =>
          rw [matchSyms_nil rec htok] at h
          cases h
      | cons token next =>
          cases sym with
          | terminal type create =>
              by_cases htype : token.type = type
              · rw [matchSyms_terminal htok htype] at h
                obtain ⟨cs₁, s₁, hchild, hrest⟩ := bind_eq_ok h
                obtain ⟨rfl, new, rfl, hmakes⟩ := createChild_append hchild
                obtain ⟨w, new', hw, rfl, hmatches⟩ := ih (s := { s₁ with token := next }) hrest
                refine ⟨token :: w, new ++ new', ?_, List.append_assoc .., ?_⟩
                · rw [List.cons_append, ← hw]
                · exact .terminal htype hmakes hmatches
              · rw [matchSyms_mismatch htok htype] at h
                cases h
          | nonterminal c =>
              rw [matchSyms_nonterminal htok] at h
              obtain ⟨node, s₁, hnode, hrest⟩ := bind_eq_ok h
              by_cases hnull : node = .null
              · rw [if_pos hnull] at hrest
                cases hrest
              · rw [if_neg hnull] at hrest
                obtain ⟨w, hw, hphrase⟩ := hrec c s node s₁ hnode hnull
                obtain ⟨w', new, hw', rfl, hmatches⟩ := ih hrest
                refine ⟨w ++ w', node :: new, ?_, List.append_assoc .., hphrase.cons hmatches⟩
                rw [← htok, hw, hw', List.append_assoc]

theorem matchProd_matches
    (hrec : ∀ c s node s', rec c s = .ok node s' → node ≠ .null →
      ∃ w, s.token = w ++ s'.token ∧ Parses [.nonterminal c] w [node])
    {type : AstType} {prod : List Sym} {node : Node} {s s' : PState}
    (h : matchProd rec type prod s = .ok node s') (hnode : node ≠ .null) :
    ∃ w cs, s.token = w ++ s'.token ∧ Parses prod w cs ∧ Builds type cs node := by
  obtain ⟨r, s₁, hsyms, hrest⟩ := bind_eq_ok h
  cases r with
  | none =>
      cases hrest
      exact absurd rfl hnode
  | some cs =>
      obtain ⟨w, new, hw, rfl, hmatches⟩ := matchSyms_matches hrec hsyms
      have htoken := ((Action.createNode type _).run s₁).ok hrest
      exact ⟨w, _, by rw [hw, htoken], hmatches, hnode, s₁, s', hrest⟩

theorem tryMatching_matches
    (hrec : ∀ c s node s', rec c s = .ok node s' → node ≠ .null →
      ∃ w, s.token = w ++ s'.token ∧ Parses [.nonterminal c] w [node])
    {c : Check} {prods : List (List Sym × AstType)} (hprods : ∀ p ∈ prods, p ∈ c.rule.prods)
    {tokenSaved : List Token} {node : Node} {s s' : PState} (hs : s.token = tokenSaved)
    (h : tryMatching rec tokenSaved c.rule.acceptsEmpty prods s = .ok node s')
    (hnode : node ≠ .null) :
    ∃ w, tokenSaved = w ++ s'.token ∧ Parses [.nonterminal c] w [node] := by
  induction prods generalizing s with
  | nil =>
      by_cases hempty : c.rule.acceptsEmpty = true
      · rw [hempty] at h
        cases h
        exact ⟨[], hs.symm, .empty hempty .nil⟩
      · rw [Bool.not_eq_true] at hempty
        rw [hempty] at h
        cases h
        exact absurd rfl hnode
  | cons p prods ih =>
      obtain ⟨first, s₁, hp, h⟩ := bind_eq_ok h
      by_cases hnull : first = .null
      · rw [if_pos hnull] at h
        exact ih (fun q hq => hprods q (List.mem_cons_of_mem _ hq))
          (s := { s₁ with token := tokenSaved }) rfl h
      · rw [if_neg hnull] at h
        cases h
        obtain ⟨w, cs, hw, hmatches, hbuilds⟩ := matchProd_matches hrec hp hnull
        refine ⟨w, hs.symm.trans hw, ?_⟩
        have hphrase := Parses.production (hprods p List.mem_cons_self) hmatches hbuilds .nil
        rwa [List.append_nil] at hphrase

end Loop

/-- **A `check_*` function that succeeds has read a phrase.** -/
theorem check_matches (fuel : ℕ) (c : Check) (s : PState) (node : Node) (s' : PState)
    (h : check fuel c s = .ok node s') (hnode : node ≠ .null) :
    ∃ w, s.token = w ++ s'.token ∧ Parses [.nonterminal c] w [node] := by
  induction fuel generalizing c s node s' with
  | zero => cases h
  | succ fuel ih =>
      rw [check_step] at h
      exact tryMatching_matches ih (fun _ hp => hp) (token_enter c s) h hnode

/-! ## Phrases and derivations -/

/-- **The productions of a phrase are a derivation.** -/
theorem Parses.leftmost {prod : List Sym} {w : List Token} {cs : List Node}
    (h : Parses prod w cs) :
    ∃ ds, Leftmost Check.productions Token.type ds (prod.map Sym.symbol) w := by
  induction h with
  | nil => exact ⟨[], .nil⟩
  | terminal htype _ _ ih =>
      obtain ⟨ds, hds⟩ := ih
      exact ⟨ds, .terminal htype hds⟩
  | @production c p prod w w' node cs cs' hp _ _ _ ih ih' =>
      obtain ⟨ds, hds⟩ := ih
      obtain ⟨ds', hds'⟩ := ih'
      have hmem : p.1.map Sym.symbol ∈ c.productions :=
        List.mem_append_left _ (List.mem_map_of_mem hp)
      exact ⟨_, .nonterminal hmem (hds.append hds')⟩
  | @empty c prod w cs hempty _ ih =>
      obtain ⟨ds, hds⟩ := ih
      have hmem : [] ∈ c.productions := by
        rw [Check.productions, if_pos hempty]
        exact List.mem_append_right _ (List.mem_singleton_self _)
      exact ⟨_, .nonterminal hmem hds⟩

/-- Each token of a phrase is matched by a terminal of a production. -/
theorem Parses.terminals {prod : List Sym} {w : List Token} {cs : List Node}
    (h : Parses prod w cs) : ∀ token ∈ w, ∃ create new,
      (.terminal token.type create ∈ prod ∨
        ∃ c : Check, ∃ p ∈ c.rule.prods, .terminal token.type create ∈ p.1) ∧
      Makes create token new := by
  induction h with
  | nil => exact fun _ hmem => nomatch hmem
  | @terminal type create prod token w new cs htype hmakes _ ih =>
      intro t ht
      rcases List.mem_cons.mp ht with rfl | ht
      · rw [htype]
        exact ⟨create, new, .inl List.mem_cons_self, hmakes⟩
      · obtain ⟨create', new', hin, hmakes'⟩ := ih t ht
        exact ⟨create', new', hin.imp_left (List.mem_cons_of_mem _), hmakes'⟩
  | @production c p prod w w' node cs cs' hp _ _ _ ih ih' =>
      intro t ht
      rcases List.mem_append.mp ht with ht | ht
      · obtain ⟨create, new, hin, hmakes⟩ := ih t ht
        exact ⟨create, new, .inr (hin.elim (fun h => ⟨c, p, hp, h⟩) id), hmakes⟩
      · obtain ⟨create, new, hin, hmakes⟩ := ih' t ht
        exact ⟨create, new, hin.imp_left (List.mem_cons_of_mem _), hmakes⟩
  | @empty c prod w cs _ _ ih =>
      intro t ht
      obtain ⟨create, new, hin, hmakes⟩ := ih t ht
      exact ⟨create, new, hin.imp_left (List.mem_cons_of_mem _), hmakes⟩

end Bispe
