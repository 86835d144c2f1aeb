import Bispe.Lib.OrderedChoice

/-!
# Unambiguous grammars

Under the condition of ordered choice a grammar is unambiguous: where words of one
sequence begin at the same place, each with an expected token after it, they are the
same word and have the same derivation.

## Main definitions

* `Grammar.Before` — a word with an expected token after it.
* `Grammar.Leftmost.not_separate` — separate productions have no word in common.
* `Grammar.uniqueTo` — derivations are unique.
* `Grammar.Leftmost.production_unique` — so is the production of a word.
-/

namespace Grammar

variable {T : Type*} {N : Type} {τ : Type*} {rules : N → List (List (Symbol T N))} {kind : τ → T}
  {starts : N → List (Peek T)} {follow : N → List T}

/-- The tokens `x` begin with the word, and then one of `F` comes. -/
def Before (kind : τ → T) (F : List T) (w x : List τ) : Prop :=
  ∃ t y, x = w ++ t :: y ∧ kind t ∈ F

theorem Before.mono {F F' : List T} {w x : List τ} (h : Before kind F w x) (hF : F ⊆ F') :
    Before kind F' w x := by
  obtain ⟨t, y, hx, ht⟩ := h
  exact ⟨t, y, hx, hF ht⟩

section Unique
variable [DecidableEq T] [DecidableEq N] (hL : Lookahead rules starts follow)
include hL

/-- The first symbol of a sequence, and what comes after its word. -/
theorem Leftmost.uncons {F : List T} {ds : Used T N} {X : Symbol T N} {β : List (Symbol T N)}
    {w x : List τ} (h : Leftmost rules kind ds (X :: β) w) (hx : Before kind F w x) :
    ∃ ds₁ ds₂ w₁ w₂ x₂, ds = ds₁ ++ ds₂ ∧ w = w₁ ++ w₂ ∧ x = w₁ ++ x₂ ∧
      Leftmost rules kind ds₁ [X] w₁ ∧ Leftmost rules kind ds₂ β w₂ ∧ Before kind F w₂ x₂ ∧
      Before kind (firsts rules starts F β) w₁ x := by
  obtain ⟨ds₁, ds₂, w₁, w₂, hds, rfl, h₁, h₂⟩ := h.split_cons
  obtain ⟨t, y, rfl, ht⟩ := hx
  obtain ⟨u, z, hz, hu⟩ := h₂.mem_firsts hL ht y
  refine ⟨ds₁, ds₂, w₁, w₂, w₂ ++ t :: y, hds, rfl, List.append_assoc .., h₁, h₂,
    ⟨t, y, rfl, ht⟩, u, z, ?_, hu⟩
  rw [List.append_assoc, hz]

omit hL in
theorem follows_cons {F : List T} {A : N} {β : List (Symbol T N)}
    (hf : follows rules starts follow F (.nonterminal A :: β) = true) :
    firsts rules starts F β ⊆ follow A := by
  rw [follows, Bool.and_eq_true, List.all_eq_true] at hf
  intro a ha
  exact of_decide_eq_true (hf.1 a ha)

omit hL in
theorem follows_tail {F : List T} {X : Symbol T N} {β : List (Symbol T N)}
    (hf : follows rules starts follow F (X :: β) = true) :
    follows rules starts follow F β = true := by
  cases X with
  | terminal a => exact hf
  | nonterminal A =>
      rw [follows, Bool.and_eq_true] at hf
      exact hf.2

/-- Derivations of at most `n` productions are unique. -/
def UniqueTo (rules : N → List (List (Symbol T N))) (kind : τ → T) (starts : N → List (Peek T))
    (follow : N → List T) (n : ℕ) : Prop :=
  ∀ (F : List T) (β : List (Symbol T N)) (ds ds' : Used T N) (w w' x : List τ),
    ds.length ≤ n → ds'.length ≤ n → follows rules starts follow F β = true →
    Leftmost rules kind ds β w → Before kind F w x →
    Leftmost rules kind ds' β w' → Before kind F w' x → ds = ds' ∧ w = w'

omit hL in
/-- The words of a first symbol. -/
theorem UniqueTo.head {n : ℕ} (hU : UniqueTo rules kind starts follow n) {F : List T}
    {X : Symbol T N} {β γ : List (Symbol T N)} {ds ds' : Used T N} {w w' x : List τ}
    (hn : ds.length ≤ n) (hn' : ds'.length ≤ n)
    (hf : follows rules starts follow F (X :: β) = true)
    (hf' : follows rules starts follow F (X :: γ) = true)
    (h : Leftmost rules kind ds [X] w) (hx : Before kind (firsts rules starts F β) w x)
    (h' : Leftmost rules kind ds' [X] w') (hx' : Before kind (firsts rules starts F γ) w' x) :
    ds = ds' ∧ w = w' := by
  cases X with
  | terminal a =>
      exact hU (firsts rules starts F β ++ firsts rules starts F γ) _ ds ds' w w' x hn hn' rfl h
        (hx.mono (List.subset_append_left _ _)) h' (hx'.mono (List.subset_append_right _ _))
  | nonterminal A =>
      have hA : follows rules starts follow (follow A) [.nonterminal A] = true := by
        simp [follows, firsts]
      exact hU (follow A) _ ds ds' w w' x hn hn' hA h (hx.mono (follows_cons hf)) h'
        (hx'.mono (follows_cons hf'))

/-- **Separate productions** have no word in common. -/
theorem Leftmost.not_separate {n : ℕ} (hU : UniqueTo rules kind starts follow n) {F : List T}
    {β γ : List (Symbol T N)} {ds ds' : Used T N} {w w' x : List τ} (hn : ds.length ≤ n)
    (hn' : ds'.length ≤ n) (hf : follows rules starts follow F β = true)
    (hf' : follows rules starts follow F γ = true) (h : Leftmost rules kind ds β w)
    (hx : Before kind F w x) (h' : Leftmost rules kind ds' γ w') (hx' : Before kind F w' x) :
    ¬ separate rules starts F β γ = true := by
  induction β generalizing γ ds ds' w w' x with
  | nil => simp [separate]
  | cons X β ih =>
      intro hsep
      -- the next two tokens tell them apart
      have hapart : ¬ (headed rules (X :: β) && (heads rules starts (X :: β)).all fun pk =>
          (looks rules starts F γ).all (apart pk)) = true := by
        rw [Bool.and_eq_true]
        rintro ⟨hh, hall⟩
        obtain ⟨t, y, rfl, -⟩ := hx
        obtain ⟨t', y', heq, ht'⟩ := hx'
        obtain ⟨pk, hmem, hpk⟩ := h.peeks_heads hL (List.cons_ne_nil X β) hh (t :: y)
        obtain ⟨pk', hmem', hpk'⟩ := h'.peeks_looks hL ht' y'
        have hne := List.all_eq_true.mp (List.all_eq_true.mp hall pk hmem) pk' hmem'
        exact not_matches_of_apart hne hpk (heq ▸ hpk')
      cases γ with
      | nil => exact hapart hsep
      | cons Y γ =>
          rw [separate, Bool.or_eq_true] at hsep
          rcases hsep with hsep | hsep
          · rw [Bool.and_eq_true, decide_eq_true_eq] at hsep
            obtain ⟨rfl, hsep⟩ := hsep
            obtain ⟨ds₁, ds₂, w₁, w₂, x₂, rfl, -, hx₂, h₁, h₂, hb₂, hb₁⟩ := h.uncons hL hx
            obtain ⟨ds₁', ds₂', w₁', w₂', x₂', rfl, -, hx₂', h₁', h₂', hb₂', hb₁'⟩ :=
              h'.uncons hL hx'
            rw [List.length_append] at hn hn'
            obtain ⟨-, rfl⟩ := hU.head (by omega) (by omega) hf hf' h₁ hb₁ h₁' hb₁'
            rw [hx₂, List.append_cancel_left_eq] at hx₂'
            subst hx₂'
            exact ih (by omega) (by omega) (follows_tail hf) (follows_tail hf') h₂ hb₂ h₂' hb₂' hsep
          · exact hapart hsep

/-- **The productions** that derive words at the same place are the same. -/
theorem UniqueTo.production {n : ℕ} (hU : UniqueTo rules kind starts follow n) {A : N}
    {p p' : List (Symbol T N)} (hp : p ∈ rules A) (hp' : p' ∈ rules A) {ds ds' : Used T N}
    {w w' x : List τ} (hn : ds.length ≤ n) (hn' : ds'.length ≤ n)
    (h : Leftmost rules kind ds p w) (hx : Before kind (follow A) w x)
    (h' : Leftmost rules kind ds' p' w') (hx' : Before kind (follow A) w' x) :
    p = p' ∧ ds = ds' ∧ w = w' := by
  have hf := hL.follows_prod A p hp
  have hf' := hL.follows_prod A p' hp'
  let R := fun p q => separate rules starts (follow A) p q = true ∨
    separate rules starts (follow A) q p = true
  have hsep : (rules A).Pairwise R := (hL.separate_prods A).imp .inl
  have : Std.Symm R := ⟨fun _ _ => Or.symm⟩
  by_cases hpp : p = p'
  · subst hpp
    exact ⟨rfl, hU (follow A) p ds ds' w w' x hn hn' hf h hx h' hx'⟩
  · exfalso
    rcases hsep.forall hp hp' hpp with hsep | hsep
    · exact h.not_separate hL hU hn hn' hf hf' hx h' hx' hsep
    · exact h'.not_separate hL hU hn' hn hf' hf hx' h hx hsep

/-- If the derivations of nonterminals are unique, all are. -/
theorem uniqueTo_of_nonterminals {n : ℕ}
    (hN : ∀ (A : N) (ds ds' : Used T N) (w w' x : List τ), ds.length ≤ n → ds'.length ≤ n →
      Leftmost rules kind ds [.nonterminal A] w → Before kind (follow A) w x →
      Leftmost rules kind ds' [.nonterminal A] w' → Before kind (follow A) w' x →
      ds = ds' ∧ w = w') : UniqueTo rules kind starts follow n := by
  intro F β
  induction β with
  | nil =>
      intro ds ds' w w' x _ _ _ h _ h' _
      cases h
      cases h'
      exact ⟨rfl, rfl⟩
  | cons X β ih =>
      intro ds ds' w w' x hn hn' hf h hx h' hx'
      obtain ⟨ds₁, ds₂, w₁, w₂, x₂, rfl, rfl, hx₂, h₁, h₂, hb₂, hb₁⟩ := h.uncons hL hx
      obtain ⟨ds₁', ds₂', w₁', w₂', x₂', rfl, rfl, hx₂', h₁', h₂', hb₂', hb₁'⟩ := h'.uncons hL hx'
      rw [List.length_append] at hn hn'
      have hhead : ds₁ = ds₁' ∧ w₁ = w₁' := by
        cases X with
        | terminal a =>
            cases h₁ with
            | terminal _ h₁ =>
                cases h₁
                cases h₁' with
                | terminal _ h₁' =>
                    cases h₁'
                    rw [hx₂] at hx₂'
                    exact ⟨rfl, by rw [(List.cons.inj hx₂').1]⟩
        | nonterminal A =>
            exact hN A ds₁ ds₁' w₁ w₁' x (by omega) (by omega) h₁ (hb₁.mono (follows_cons hf)) h₁'
              (hb₁'.mono (follows_cons hf))
      obtain ⟨rfl, rfl⟩ := hhead
      rw [hx₂, List.append_cancel_left_eq] at hx₂'
      subst hx₂'
      obtain ⟨rfl, rfl⟩ := ih ds₂ ds₂' w₂ w₂' x₂ (by omega) (by omega) (follows_tail hf) h₂ hb₂
        h₂' hb₂'
      exact ⟨rfl, rfl⟩

theorem uniqueTo (n : ℕ) : UniqueTo rules kind starts follow n := by
  induction n with
  | zero =>
      refine uniqueTo_of_nonterminals hL fun A ds ds' w w' x hn _ h => ?_
      obtain ⟨p, -, es, rfl, -⟩ := h.production
      cases hn
  | succ n ih =>
      refine uniqueTo_of_nonterminals hL fun A ds ds' w w' x hn hn' h hx h' hx' => ?_
      obtain ⟨p, hp, es, rfl, hw⟩ := h.production
      obtain ⟨p', hp', es', rfl, hw'⟩ := h'.production
      rw [List.length_cons] at hn hn'
      obtain ⟨rfl, rfl, rfl⟩ := ih.production hL hp hp' (by omega) (by omega) hw hx hw' hx'
      exact ⟨rfl, rfl⟩

/-- **The grammar is unambiguous.**  The words of a nonterminal at the same place, with
expected tokens after them, are the same and are derived by the same production. -/
theorem Leftmost.production_unique {A : N} {p p' : List (Symbol T N)} (hp : p ∈ rules A)
    (hp' : p' ∈ rules A) {ds ds' : Used T N} {w w' x : List τ}
    (h : Leftmost rules kind ds p w) (hx : Before kind (follow A) w x)
    (h' : Leftmost rules kind ds' p' w') (hx' : Before kind (follow A) w' x) :
    p = p' ∧ w = w' := by
  obtain ⟨hpp, -, hw⟩ := (uniqueTo hL (max ds.length ds'.length)).production hL hp hp'
    (le_max_left ..) (le_max_right ..) h hx h' hx'
  exact ⟨hpp, hw⟩

end Unique
end Grammar
