import Bispe.Lib.Derivation
import Mathlib.Data.List.Pairwise

/-!
# Ordered choice against a context-free grammar

A recursive descent parser tries the productions of a nonterminal in order, goes
back to where it started when one fails, and never reconsiders one that succeeded.
In general it accepts less than the grammar that its productions are.  This module
gives its runs, without a bound on the recursion, and a condition on the
productions that can be checked by evaluation and under which nothing is lost.

The condition looks at two tokens: after their common prefix, two productions of a
nonterminal must be told apart by the next two tokens, where the second one is
looked at only as far as it is known.

## Main definitions

* `Grammar.Run` — the runs of the parser.
* `Grammar.Run.sound` — the productions of a successful run are a derivation.
* `Grammar.Lookahead` — the condition.
* `Grammar.Run.complete` — every derivation that is followed by an expected token
  is found.
-/

namespace Grammar

variable {T : Type*} {N : Type} {τ : Type*}

/-- What a part of the parser is about. -/
inductive Goal (T : Type*) (N : Type)
  /-- A nonterminal. -/
  | nonterminal (A : N)
  /-- The productions of a nonterminal that are left to try. -/
  | choice (A : N) (ps : List (List (Symbol T N)))
  /-- The symbols of a production that are left to match. -/
  | sequence (β : List (Symbol T N))

/-- A run from the tokens `x`, with the productions used if it succeeds, and the
tokens after it. -/
inductive Run (rules : N → List (List (Symbol T N))) (kind : τ → T) :
    Goal T N → List τ → Option (Used T N) → List τ → Prop
  | empty (x : List τ) : Run rules kind (.sequence []) x (some []) x
  | token {t : τ} {a : T} {β : List (Symbol T N)} {x x' : List τ} {r : Option (Used T N)}
      (ht : kind t = a) (h : Run rules kind (.sequence β) x r x') :
      Run rules kind (.sequence (.terminal a :: β)) (t :: x) r x'
  | mismatch {t : τ} {a : T} (β : List (Symbol T N)) (x : List τ) (ht : kind t ≠ a) :
      Run rules kind (.sequence (.terminal a :: β)) (t :: x) none x
  | exhausted (X : Symbol T N) (β : List (Symbol T N)) :
      Run rules kind (.sequence (X :: β)) [] none []
  | call {B : N} {β : List (Symbol T N)} {t : τ} {x x₁ x' : List τ} {ds : Used T N}
      {r : Option (Used T N)} (h : Run rules kind (.nonterminal B) (t :: x) (some ds) x₁)
      (h' : Run rules kind (.sequence β) x₁ r x') :
      Run rules kind (.sequence (.nonterminal B :: β)) (t :: x) (r.map (ds ++ ·)) x'
  | callFails {B : N} (β : List (Symbol T N)) {t : τ} {x x₁ : List τ}
      (h : Run rules kind (.nonterminal B) (t :: x) none x₁) :
      Run rules kind (.sequence (.nonterminal B :: β)) (t :: x) none x₁
  | fail (A : N) (x : List τ) : Run rules kind (.choice A []) x none x
  | commit {A : N} {p : List (Symbol T N)} (ps : List (List (Symbol T N))) {x x' : List τ}
      {ds : Used T N} (h : Run rules kind (.sequence p) x (some ds) x') :
      Run rules kind (.choice A (p :: ps)) x (some ((A, p) :: ds)) x'
  | retry {A : N} {p : List (Symbol T N)} {ps : List (List (Symbol T N))} {x x₁ x' : List τ}
      {r : Option (Used T N)} (h : Run rules kind (.sequence p) x none x₁)
      (h' : Run rules kind (.choice A ps) x r x') : Run rules kind (.choice A (p :: ps)) x r x'
  | enter {A : N} {x x' : List τ} {r : Option (Used T N)}
      (h : Run rules kind (.choice A (rules A)) x r x') : Run rules kind (.nonterminal A) x r x'

variable {rules : N → List (List (Symbol T N))} {kind : τ → T}

/-! ## Soundness -/

/-- The productions `ds` are a derivation for the goal. -/
def Goal.Derived (rules : N → List (List (Symbol T N))) (kind : τ → T) (ds : Used T N)
    (w : List τ) : Goal T N → Prop
  | .nonterminal A => Leftmost rules kind ds [.nonterminal A] w
  | .choice A ps => (∀ p ∈ ps, p ∈ rules A) → Leftmost rules kind ds [.nonterminal A] w
  | .sequence β => Leftmost rules kind ds β w

/-- **Soundness.**  A successful run consumes a word that the productions it used
derive. -/
theorem Run.sound {g : Goal T N} {x x' : List τ} {r : Option (Used T N)}
    (h : Run rules kind g x r x') :
    ∀ ds, r = some ds → ∃ w, x = w ++ x' ∧ g.Derived rules kind ds w := by
  induction h with
  | empty x =>
      rintro _ ⟨rfl⟩
      exact ⟨[], rfl, .nil⟩
  | @token t a β x x' r ht _ ih =>
      rintro ds hr
      obtain ⟨w, rfl, hw⟩ := ih ds hr
      exact ⟨t :: w, rfl, .terminal ht hw⟩
  | @call B β t x x₁ x' ds r _ _ ih ih' =>
      intro es hr
      obtain ⟨ds', rfl, rfl⟩ := Option.map_eq_some_iff.mp hr
      obtain ⟨w, hx, hw⟩ := ih ds rfl
      obtain ⟨w', rfl, hw'⟩ := ih' ds' rfl
      exact ⟨w ++ w', by rw [hx, List.append_assoc], Leftmost.append hw hw'⟩
  | @commit A p ps x x' ds _ ih =>
      rintro _ ⟨rfl⟩
      obtain ⟨w, hx, hw⟩ := ih ds rfl
      refine ⟨w, hx, fun hps => .nonterminal (hps p List.mem_cons_self) ?_⟩
      rwa [List.append_nil]
  | retry _ _ _ ih' =>
      intro ds hr
      obtain ⟨w, hx, hw⟩ := ih' ds hr
      exact ⟨w, hx, fun hps => hw fun p hp => hps p (List.mem_cons_of_mem _ hp)⟩
  | enter _ ih =>
      intro ds hr
      obtain ⟨w, hx, hw⟩ := ih ds hr
      exact ⟨w, hx, hw fun _ hp => hp⟩
  | _ => exact fun _ hr => nomatch hr

/-! ## What a word can begin with -/

/-- One token, and the token after it where it is known. -/
abbrev Peek (T : Type*) := T × Option T

/-- The tokens begin as `pk` says. -/
def Peek.Matches (kind : τ → T) (pk : Peek T) (x : List τ) : Prop :=
  ∃ t y, x = t :: y ∧ kind t = pk.1 ∧ ∀ b ∈ pk.2, ∃ t' y', y = t' :: y' ∧ kind t' = b

/-- The tokens begin as one of `L` says. -/
def Peeks (kind : τ → T) (L : List (Peek T)) (x : List τ) : Prop := ∃ pk ∈ L, pk.Matches kind x

theorem Peeks.mono {L L' : List (Peek T)} {x : List τ} (h : Peeks kind L x) (hL : L ⊆ L') :
    Peeks kind L' x := by
  obtain ⟨pk, hmem, hpk⟩ := h
  exact ⟨pk, hL hmem, hpk⟩

section Tables
variable (rules) (starts : N → List (Peek T)) (follow : N → List T)

/-- The words of the nonterminal are single tokens. -/
def single (B : N) : Bool :=
  (rules B).all fun
    | [.terminal _] => true
    | _ => false

/-- The token a sequence begins with, where it is a terminal. -/
def second : List (Symbol T N) → Option T
  | .terminal b :: _ => some b
  | _ => none

/-- What the words of a sequence that begins with no optional symbol begin with. -/
def heads : List (Symbol T N) → List (Peek T)
  | [] => []
  | .terminal a :: β => [(a, second β)]
  | .nonterminal B :: β =>
      if single rules B then (starts B).map fun pk => (pk.1, second β) else starts B

variable [DecidableEq T] [DecidableEq N]

/-- The sequence does not begin with an optional symbol. -/
def headed : List (Symbol T N) → Bool
  | .nonterminal B :: _ => [] ∉ rules B
  | _ => true

/-- The first tokens of a sequence that one of `F` comes after. -/
def firsts (F : List T) : List (Symbol T N) → List T
  | [] => F
  | .terminal a :: _ => [a]
  | .nonterminal B :: β =>
      (starts B).map Prod.fst ++ if [] ∈ rules B then firsts F β else []

/-- What a sequence that one of `F` comes after begins with. -/
def looks (F : List T) : List (Symbol T N) → List (Peek T)
  | [] => F.map fun a => (a, none)
  | .terminal a :: β => (firsts rules starts F β).map fun b => (a, some b)
  | .nonterminal B :: β =>
      starts B ++ if [] ∈ rules B then (firsts rules starts F β).map fun a => (a, none) else []

/-- No tokens begin both ways. -/
def apart : Peek T → Peek T → Bool
  | (a, some b), (a', some b') => a ≠ a' ∨ b ≠ b'
  | (a, _), (a', _) => a ≠ a'

/-- The production that is tried first is refuted where the second one is meant:
their first difference shows in the next two tokens. -/
def separate (F : List T) : List (Symbol T N) → List (Symbol T N) → Bool
  | [], _ => false
  | X :: β, [] => headed rules (X :: β) && (heads rules starts (X :: β)).all fun pk =>
      (looks rules starts F ([] : List (Symbol T N))).all (apart pk)
  | X :: β, Y :: γ => (X = Y && separate F β γ) ||
      (headed rules (X :: β) && (heads rules starts (X :: β)).all fun pk =>
        (looks rules starts F (Y :: γ)).all (apart pk))

/-- Every nonterminal of the sequence is followed by a token it expects. -/
def follows (F : List T) : List (Symbol T N) → Bool
  | [] => true
  | .terminal _ :: β => follows F β
  | .nonterminal B :: β => (firsts rules starts F β).all (· ∈ follow B) && follows F β

/-- The condition: tables of what the words of a nonterminal begin with and of what
comes after them, and productions that two tokens tell apart. -/
structure Lookahead : Prop where
  headed_prod : ∀ A, ∀ p ∈ rules A, headed rules p = true
  heads_prod : ∀ A, ∀ p ∈ rules A, heads rules starts p ⊆ starts A
  follows_prod : ∀ A, ∀ p ∈ rules A, follows rules starts follow (follow A) p = true
  separate_prods : ∀ A, (rules A).Pairwise fun p q => separate rules starts (follow A) p q = true

end Tables

section Sound
variable {starts : N → List (Peek T)} {follow : N → List T}

theorem second_append (p β : List (Symbol T N)) :
    second p = none ∨ second (p ++ β) = second p := by
  match p with
  | [] => exact .inl rfl
  | .terminal b :: _ => exact .inr rfl
  | .nonterminal B :: _ => exact .inl rfl

/-- More is known about the second token of a longer sequence. -/
theorem Peek.Matches.shorten {a : T} {p β : List (Symbol T N)} {x : List τ}
    (h : Peek.Matches kind (a, second (p ++ β)) x) : Peek.Matches kind (a, second p) x := by
  obtain ⟨t, y, hx, ht, hy⟩ := h
  refine ⟨t, y, hx, ht, fun b hb => hy b ?_⟩
  obtain h | h := second_append p β
  · rw [h] at hb
    cases hb
  · rwa [h]

theorem heads_append {p : List (Symbol T N)} (hp : p ≠ []) (β : List (Symbol T N)) {x : List τ}
    (h : Peeks kind (heads rules starts (p ++ β)) x) : Peeks kind (heads rules starts p) x := by
  obtain ⟨pk, hmem, hpk⟩ := h
  match p with
  | [] => exact absurd rfl hp
  | .terminal a :: p =>
      rw [List.cons_append, heads, List.mem_singleton] at hmem
      subst hmem
      exact ⟨_, List.mem_singleton_self _, hpk.shorten⟩
  | .nonterminal B :: p =>
      rw [List.cons_append, heads] at hmem
      rw [heads]
      by_cases hs : single rules B
      · rw [if_pos hs] at hmem ⊢
        obtain ⟨pk', hmem', rfl⟩ := List.mem_map.mp hmem
        exact ⟨_, List.mem_map_of_mem hmem', hpk.shorten⟩
      · rw [if_neg hs] at hmem ⊢
        exact ⟨pk, hmem, hpk⟩

theorem single_prod {B : N} (h : single rules B = true) {p : List (Symbol T N)} (hp : p ∈ rules B) :
    ∃ a, p = [.terminal a] := by
  have hp := List.all_eq_true.mp h p hp
  match p with
  | [.terminal a] => exact ⟨a, rfl⟩
  | [] => simp at hp
  | .nonterminal _ :: _ => simp at hp
  | .terminal _ :: _ :: _ => simp at hp

variable [DecidableEq T] [DecidableEq N]

theorem not_matches_of_apart {pk pk' : Peek T} (h : apart pk pk' = true) {x : List τ}
    (hx : pk.Matches kind x) : ¬ pk'.Matches kind x := by
  obtain ⟨t, y, rfl, ht, hy⟩ := hx
  rintro ⟨t', y', ⟨rfl, rfl⟩, ht', hy'⟩
  obtain ⟨a, b⟩ := pk
  obtain ⟨a', b'⟩ := pk'
  have ha : a = a' := ht.symm.trans ht'
  cases b with
  | none => simp [apart, ha] at h
  | some b =>
      cases b' with
      | none => simp [apart, ha] at h
      | some b' =>
          obtain ⟨u, v, rfl, hu⟩ := hy b rfl
          obtain ⟨u', v', ⟨rfl, rfl⟩, hu'⟩ := hy' b' rfl
          have hb : b = b' := hu.symm.trans hu'
          simp [apart, ha, hb] at h

theorem headed_append {p : List (Symbol T N)} (hp : p ≠ []) (β : List (Symbol T N)) :
    headed rules (p ++ β) = headed rules p := by
  match p with
  | [] => exact absurd rfl hp
  | .terminal a :: _ => rfl
  | .nonterminal B :: _ => rfl

variable (hL : Lookahead rules starts follow)
include hL

/-- A word of a headed sequence begins as the table says, whatever comes after it. -/
theorem Leftmost.peeks_heads {ds : Used T N} {β : List (Symbol T N)} {w : List τ}
    (h : Leftmost rules kind ds β w) (hβ : β ≠ []) (hh : headed rules β = true) (x : List τ) :
    Peeks kind (heads rules starts β) (w ++ x) := by
  induction h with
  | nil => exact absurd rfl hβ
  | @terminal ds β w t a ht h _ =>
      refine ⟨(a, second β), List.mem_singleton_self _, t, _, rfl, ht, fun b hb => ?_⟩
      match β with
      | .terminal b' :: β =>
          obtain rfl : b' = b := Option.some.inj hb
          cases h with
          | @terminal _ _ w t' _ ht' _ => exact ⟨t', w ++ x, rfl, ht'⟩
  | @nonterminal ds β p w A hp h ih =>
      have hne : p ≠ [] := by
        rintro rfl
        simp [headed, hp] at hh
      have hpβ : p ++ β ≠ [] := fun h => hne (List.append_eq_nil_iff.mp h).1
      have hrest := ih hpβ (by rw [headed_append hne, hL.headed_prod A p hp])
      rw [heads]
      by_cases hs : single rules A
      · rw [if_pos hs]
        obtain ⟨a, rfl⟩ := single_prod hs hp
        obtain ⟨pk, hmem, hpk⟩ := hrest
        obtain rfl := List.mem_singleton.mp hmem
        have ha : (a, none) ∈ starts A := hL.heads_prod A _ hp (List.mem_singleton_self _)
        exact ⟨_, List.mem_map_of_mem ha, hpk⟩
      · rw [if_neg hs]
        exact (heads_append hne β hrest).mono (hL.heads_prod A p hp)

theorem Leftmost.ne_nil {ds : Used T N} {β : List (Symbol T N)} {w : List τ}
    (h : Leftmost rules kind ds β w) (hβ : β ≠ []) (hh : headed rules β = true) : w ≠ [] := by
  rintro rfl
  obtain ⟨pk, -, t, y, hx, -⟩ := h.peeks_heads hL hβ hh []
  cases hx

/-- Only the empty production derives the empty word. -/
theorem Leftmost.nullable {ds : Used T N} {B : N}
    (h : Leftmost rules kind ds [.nonterminal B] ([] : List τ)) : [] ∈ rules B := by
  obtain ⟨p, hp, ds', -, h'⟩ := h.production
  by_cases hne : p = []
  · rwa [hne] at hp
  · exact absurd rfl (h'.ne_nil hL hne (hL.headed_prod B p hp))

theorem Leftmost.peeks_starts {ds : Used T N} {B : N} {w : List τ}
    (h : Leftmost rules kind ds [.nonterminal B] w) (hw : w ≠ []) (x : List τ) :
    Peeks kind (starts B) (w ++ x) := by
  obtain ⟨p, hp, ds', -, h'⟩ := h.production
  have hne : p ≠ [] := by
    rintro rfl
    cases h'
    exact hw rfl
  exact (h'.peeks_heads hL hne (hL.headed_prod B p hp) x).mono (hL.heads_prod B p hp)

/-- The first token of a word, or the token after it. -/
theorem Leftmost.mem_firsts {F : List T} {t : τ} (ht : kind t ∈ F) (x : List τ) {ds : Used T N}
    {β : List (Symbol T N)} {w : List τ} (h : Leftmost rules kind ds β w) :
    ∃ u y, w ++ t :: x = u :: y ∧ kind u ∈ firsts rules starts F β := by
  induction β generalizing ds w with
  | nil =>
      cases h
      exact ⟨t, x, rfl, ht⟩
  | cons X β ih =>
      obtain ⟨ds₁, ds₂, w₁, w₂, rfl, rfl, h₁, h₂⟩ := h.split_cons
      cases X with
      | terminal a =>
          cases h₁ with
          | terminal ha h₁ =>
              cases h₁
              exact ⟨_, _, rfl, by simp [firsts, ha]⟩
      | nonterminal B =>
          by_cases hw : w₁ = []
          · subst hw
            obtain ⟨u, y, hx, hu⟩ := ih h₂
            refine ⟨u, y, hx, ?_⟩
            rw [firsts, if_pos (h₁.nullable hL)]
            exact List.mem_append_right _ hu
          · obtain ⟨pk, hmem, u, y, hx, hu, -⟩ := h₁.peeks_starts hL hw (w₂ ++ t :: x)
            refine ⟨u, y, by rw [List.append_assoc, hx], ?_⟩
            rw [firsts, hu]
            exact List.mem_append_left _ (List.mem_map_of_mem hmem)

/-- The next two tokens where a sequence is meant. -/
theorem Leftmost.peeks_looks {F : List T} {t : τ} (ht : kind t ∈ F) (x : List τ) {ds : Used T N}
    {β : List (Symbol T N)} {w : List τ} (h : Leftmost rules kind ds β w) :
    Peeks kind (looks rules starts F β) (w ++ t :: x) := by
  cases β with
  | nil =>
      cases h
      exact ⟨(kind t, none), List.mem_map_of_mem ht, t, x, rfl, rfl, fun b hb => nomatch hb⟩
  | cons X β =>
      obtain ⟨ds₁, ds₂, w₁, w₂, rfl, rfl, h₁, h₂⟩ := h.split_cons
      obtain ⟨u, y, hx, hu⟩ := h₂.mem_firsts hL ht x
      cases X with
      | terminal a =>
          cases h₁ with
          | @terminal _ _ _ v _ ha h₁ =>
              cases h₁
              refine ⟨(a, some (kind u)), List.mem_map_of_mem hu, v, w₂ ++ t :: x, rfl, ha, ?_⟩
              rintro b ⟨rfl⟩
              exact ⟨u, y, hx, rfl⟩
      | nonterminal B =>
          by_cases hw : w₁ = []
          · subst hw
            rw [looks, if_pos (h₁.nullable hL)]
            exact ⟨(kind u, none), List.mem_append_right _ (List.mem_map_of_mem hu), u, y, hx, rfl,
              fun b hb => nomatch hb⟩
          · rw [List.append_assoc]
            exact (h₁.peeks_starts hL hw _).mono (List.subset_append_left _ _)

/-! ## Completeness -/

/-- A sequence does not match where only something apart from it is meant. -/
theorem Run.none_of_apart {β : List (Symbol T N)} {L : List (Peek T)} {x x' : List τ}
    {r : Option (Used T N)} (h : Run rules kind (.sequence β) x r x') (hβ : β ≠ [])
    (hh : headed rules β = true)
    (hapart : ((heads rules starts β).all fun pk => L.all (apart pk)) = true)
    (hx : Peeks kind L x) :
    r = none := by
  cases r with
  | none => rfl
  | some ds =>
      obtain ⟨w, rfl, hw⟩ := h.sound ds rfl
      obtain ⟨pk, hmem, hpk⟩ := Leftmost.peeks_heads hL hw hβ hh x'
      obtain ⟨pk', hmem', hpk'⟩ := hx
      have hne := List.all_eq_true.mp (List.all_eq_true.mp hapart pk hmem) pk' hmem'
      exact absurd hpk' (not_matches_of_apart hne hpk)

theorem Run.none_of_separate {β γ : List (Symbol T N)} {F : List T} {t : τ} (ht : kind t ∈ F)
    {ds : Used T N} {w y x x' : List τ} {r : Option (Used T N)} (hγ : Leftmost rules kind ds γ w)
    (hx : x = w ++ t :: y) (h : Run rules kind (.sequence β) x r x') {X : Symbol T N}
    {β' : List (Symbol T N)} (hβ : β = X :: β')
    (hsep : (headed rules β && (heads rules starts β).all fun pk =>
      (looks rules starts F γ).all (apart pk)) = true) : r = none := by
  rw [Bool.and_eq_true] at hsep
  subst hx hβ
  exact h.none_of_apart hL (List.cons_ne_nil X β') hsep.1 hsep.2 (hγ.peeks_looks hL ht y)

/-- What a run does on a word that is meant for it, with an expected token after it. -/
def Goal.Complete (rules : N → List (List (Symbol T N))) (kind : τ → T)
    (starts : N → List (Peek T)) (follow : N → List T) (x : List τ) (r : Option (Used T N))
    (x' : List τ) : Goal T N → Prop
  | .nonterminal A => ∀ ds w t y, x = w ++ t :: y → kind t ∈ follow A →
      Leftmost rules kind ds [.nonterminal A] w → (∃ es, r = some es) ∧ x' = t :: y
  | .choice A ps => ∀ p ∈ ps, ∀ ds w t y, x = w ++ t :: y → kind t ∈ follow A →
      (∀ q ∈ ps, q ∈ rules A) →
      ps.Pairwise (fun p q => separate rules starts (follow A) p q = true) →
      Leftmost rules kind ds p w → (∃ es, r = some es) ∧ x' = t :: y
  | .sequence β => ∀ F ds w t y, x = w ++ t :: y → kind t ∈ F →
      (follows rules starts follow F β = true → Leftmost rules kind ds β w →
        (∃ es, r = some es) ∧ x' = t :: y) ∧
      ∀ γ, follows rules starts follow F γ = true → separate rules starts F β γ = true →
        Leftmost rules kind ds γ w → r = none

/-- The word of the first nonterminal of a sequence is followed by a token the
nonterminal expects. -/
theorem Leftmost.call {F : List T} {t : τ} (ht : kind t ∈ F) (y : List τ) {ds : Used T N} {B : N}
    {γ : List (Symbol T N)} {w : List τ}
    (hf : follows rules starts follow F (.nonterminal B :: γ) = true)
    (h : Leftmost rules kind ds (.nonterminal B :: γ) w) :
    ∃ ds₁ ds₂ w₁ w₂ u z, w ++ t :: y = w₁ ++ u :: z ∧ u :: z = w₂ ++ t :: y ∧
      kind u ∈ follow B ∧ follows rules starts follow F γ = true ∧
      Leftmost rules kind ds₁ [.nonterminal B] w₁ ∧ Leftmost rules kind ds₂ γ w₂ := by
  rw [follows, Bool.and_eq_true, List.all_eq_true] at hf
  obtain ⟨ds₁, ds₂, w₁, w₂, rfl, rfl, h₁, h₂⟩ := h.split_cons
  obtain ⟨u, z, hz, hu⟩ := h₂.mem_firsts hL ht y
  have hexp := of_decide_eq_true (hf.1 (kind u) hu)
  exact ⟨ds₁, ds₂, w₁, w₂, u, z, by rw [List.append_assoc, hz], hz.symm, hexp, hf.2, h₁, h₂⟩

/-- **Completeness.**  Under the condition a word of a nonterminal, followed by a
token the nonterminal expects, is consumed exactly. -/
theorem Run.complete {g : Goal T N} {x x' : List τ} {r : Option (Used T N)}
    (h : Run rules kind g x r x') : g.Complete rules kind starts follow x r x' := by
  induction h with
  | empty x =>
      intro F ds w t y hx ht
      constructor
      · intro _ hw
        cases hw
        exact ⟨⟨[], rfl⟩, hx⟩
      · intro γ _ hsep
        cases γ <;> simp [separate] at hsep
  | @token u a β x x' r hu h ih =>
      intro F ds w t y hx ht
      have hrun : Run rules kind (.sequence (.terminal a :: β)) (u :: x) r x' := .token hu h
      constructor
      · intro hf hw
        cases hw with
        | terminal hv hw =>
            obtain ⟨rfl, rfl⟩ := List.cons.inj hx
            exact (ih F _ _ t y rfl ht).1 hf hw
      · intro γ hf hsep hw
        cases γ with
        | nil => exact hrun.none_of_separate hL ht hw hx rfl hsep
        | cons Y γ =>
            rw [separate, Bool.or_eq_true] at hsep
            obtain hsep | hsep := hsep
            · rw [Bool.and_eq_true, decide_eq_true_eq] at hsep
              obtain ⟨rfl, hsep⟩ := hsep
              cases hw with
              | terminal hv hw =>
                  obtain ⟨rfl, rfl⟩ := List.cons.inj hx
                  exact (ih F _ _ t y rfl ht).2 γ hf hsep hw
            · exact hrun.none_of_separate hL ht hw hx rfl hsep
  | @mismatch u a β x hu =>
      intro F ds w t y hx ht
      constructor
      · intro _ hw
        cases hw with
        | terminal hv hw =>
            obtain ⟨rfl, rfl⟩ := List.cons.inj hx
            exact absurd hv hu
      · intro _ _ _ _
        rfl
  | exhausted X β =>
      intro F ds w t y hx
      cases w <;> cases hx
  | @call B β u x x₁ x' es r h h' ih ih' =>
      intro F ds w t y hx ht
      have hrun : Run rules kind (.sequence (.nonterminal B :: β)) (u :: x) (r.map (es ++ ·)) x' :=
        .call h h'
      constructor
      · intro hf hw
        obtain ⟨ds₁, ds₂, w₁, w₂, v, z, hw₁, hz, hv, hf', h₁, h₂⟩ := hw.call hL ht y hf
        obtain ⟨-, rfl⟩ := ih ds₁ w₁ v z (hx.trans hw₁) hv h₁
        obtain ⟨⟨fs, rfl⟩, hx'⟩ := (ih' F ds₂ w₂ t y hz ht).1 hf' h₂
        exact ⟨⟨es ++ fs, rfl⟩, hx'⟩
      · intro γ hf hsep hw
        cases γ with
        | nil => exact hrun.none_of_separate hL ht hw hx rfl hsep
        | cons Y γ =>
            rw [separate, Bool.or_eq_true] at hsep
            obtain hsep | hsep := hsep
            · rw [Bool.and_eq_true, decide_eq_true_eq] at hsep
              obtain ⟨rfl, hsep⟩ := hsep
              obtain ⟨ds₁, ds₂, w₁, w₂, v, z, hw₁, hz, hv, hf', h₁, h₂⟩ := hw.call hL ht y hf
              obtain ⟨-, rfl⟩ := ih ds₁ w₁ v z (hx.trans hw₁) hv h₁
              rw [(ih' F ds₂ w₂ t y hz ht).2 γ hf' hsep h₂, Option.map_none]
            · exact hrun.none_of_separate hL ht hw hx rfl hsep
  | @callFails B β u x x₁ h ih =>
      intro F ds w t y hx ht
      constructor
      · intro hf hw
        obtain ⟨ds₁, ds₂, w₁, w₂, v, z, hw₁, hz, hv, hf', h₁, h₂⟩ := hw.call hL ht y hf
        obtain ⟨⟨es, hes⟩, -⟩ := ih ds₁ w₁ v z (hx.trans hw₁) hv h₁
        cases hes
      · intro _ _ _ _
        rfl
  | fail A x => exact fun p hp => nomatch hp
  | @commit A p ps x x' es h ih =>
      intro q hq ds w t y hx ht hmem hsep hw
      obtain ⟨hp, hps⟩ := List.pairwise_cons.mp hsep
      obtain ⟨hgood, hbad⟩ := ih (follow A) ds w t y hx ht
      obtain rfl | hq := List.mem_cons.mp hq
      · exact ⟨⟨_, rfl⟩, (hgood (hL.follows_prod A q (hmem q List.mem_cons_self)) hw).2⟩
      · have hnone := hbad q (hL.follows_prod A q (hmem q (List.mem_cons_of_mem p hq))) (hp q hq) hw
        cases hnone
  | @retry A p ps x x₁ x' r h h' ih ih' =>
      intro q hq ds w t y hx ht hmem hsep hw
      obtain ⟨hp, hps⟩ := List.pairwise_cons.mp hsep
      obtain rfl | hq := List.mem_cons.mp hq
      · obtain ⟨⟨es, hes⟩, -⟩ := (ih (follow A) ds w t y hx ht).1
          (hL.follows_prod A q (hmem q List.mem_cons_self)) hw
        cases hes
      · exact ih' q hq ds w t y hx ht (fun q' hq' => hmem q' (List.mem_cons_of_mem p hq')) hps hw
  | @enter A x x' r h ih =>
      intro ds w t y hx ht hw
      obtain ⟨p, hp, ds', -, hw'⟩ := hw.production
      exact ih p hp ds' w t y hx ht (fun _ hq => hq) (hL.separate_prods A) hw'

end Sound
end Grammar
