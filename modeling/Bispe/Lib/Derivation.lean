import Mathlib.Computability.ContextFreeGrammar
import Mathlib.Data.Finset.Union
import Mathlib.Data.Fintype.Basic

/-!
# Leftmost derivations

A leftmost derivation of a context-free grammar as the list of the productions it
uses, in order.  The grammar is given by the productions of every nonterminal, and
derives words of tokens; a terminal stands for all tokens of its kind.

## Main definitions

* `Grammar.Leftmost` — the derivations.
* `Grammar.toContextFree` — the productions, without an order, as a context-free
  grammar.
-/

namespace Grammar

variable {T : Type*} {N : Type} {τ : Type*}

/-- Productions that are used, each with its nonterminal. -/
abbrev Used (T : Type*) (N : Type) := List (N × List (Symbol T N))

/-- The productions `ds`, used in this order on the leftmost nonterminal, derive the
word `w` from a sentential form. -/
inductive Leftmost (rules : N → List (List (Symbol T N))) (kind : τ → T) :
    Used T N → List (Symbol T N) → List τ → Prop
  | nil : Leftmost rules kind [] [] []
  | terminal {ds : Used T N} {β : List (Symbol T N)} {w : List τ} {t : τ} {a : T}
      (ht : kind t = a) (h : Leftmost rules kind ds β w) :
      Leftmost rules kind ds (.terminal a :: β) (t :: w)
  | nonterminal {ds : Used T N} {β p : List (Symbol T N)} {w : List τ} {A : N}
      (hp : p ∈ rules A) (h : Leftmost rules kind ds (p ++ β) w) :
      Leftmost rules kind ((A, p) :: ds) (.nonterminal A :: β) w

namespace Leftmost
variable {rules : N → List (List (Symbol T N))} {kind : τ → T}

theorem append {ds es : Used T N} {α β : List (Symbol T N)} {u v : List τ}
    (h : Leftmost rules kind ds α u) (h' : Leftmost rules kind es β v) :
    Leftmost rules kind (ds ++ es) (α ++ β) (u ++ v) := by
  induction h with
  | nil => exact h'
  | terminal ht _ ih => exact .terminal ht ih
  | nonterminal hp _ ih =>
      rw [List.append_assoc] at ih
      exact .nonterminal hp ih

/-- A derivation from a concatenation is one from each part. -/
theorem split {ds : Used T N} {α β : List (Symbol T N)} {w : List τ}
    (h : Leftmost rules kind ds (α ++ β) w) : ∃ ds₁ ds₂ w₁ w₂, ds = ds₁ ++ ds₂ ∧ w = w₁ ++ w₂ ∧
      Leftmost rules kind ds₁ α w₁ ∧ Leftmost rules kind ds₂ β w₂ := by
  generalize hγ : α ++ β = γ at h
  induction h generalizing α with
  | nil =>
      obtain ⟨rfl, rfl⟩ := List.append_eq_nil_iff.mp hγ
      exact ⟨[], [], [], [], rfl, rfl, .nil, .nil⟩
  | @terminal ds γ w t a ht h ih =>
      cases α with
      | nil =>
          obtain rfl : β = .terminal a :: γ := hγ
          exact ⟨[], ds, [], t :: w, rfl, rfl, .nil, .terminal ht h⟩
      | cons X α =>
          obtain ⟨rfl, hα⟩ := List.cons.inj hγ
          obtain ⟨ds₁, ds₂, w₁, w₂, rfl, rfl, h₁, h₂⟩ := ih hα
          exact ⟨ds₁, ds₂, t :: w₁, w₂, rfl, rfl, .terminal ht h₁, h₂⟩
  | @nonterminal ds γ p w A hp h ih =>
      cases α with
      | nil =>
          obtain rfl : β = .nonterminal A :: γ := hγ
          exact ⟨[], (A, p) :: ds, [], w, rfl, rfl, .nil, .nonterminal hp h⟩
      | cons X α =>
          obtain ⟨rfl, rfl⟩ := List.cons.inj hγ
          obtain ⟨ds₁, ds₂, w₁, w₂, rfl, rfl, h₁, h₂⟩ := ih (List.append_assoc p α β)
          exact ⟨(A, p) :: ds₁, ds₂, w₁, w₂, rfl, rfl, .nonterminal hp h₁, h₂⟩

/-- The first symbol derives the beginning of the word. -/
theorem split_cons {ds : Used T N} {X : Symbol T N} {β : List (Symbol T N)} {w : List τ}
    (h : Leftmost rules kind ds (X :: β) w) : ∃ ds₁ ds₂ w₁ w₂, ds = ds₁ ++ ds₂ ∧ w = w₁ ++ w₂ ∧
      Leftmost rules kind ds₁ [X] w₁ ∧ Leftmost rules kind ds₂ β w₂ :=
  split (α := [X]) h

/-- A derivation from a nonterminal uses one of its productions. -/
theorem production {ds : Used T N} {A : N} {w : List τ}
    (h : Leftmost rules kind ds [.nonterminal A] w) :
    ∃ p ∈ rules A, ∃ ds', ds = (A, p) :: ds' ∧ Leftmost rules kind ds' p w := by
  cases h with
  | nonterminal hp h =>
      rw [List.append_nil] at h
      exact ⟨_, hp, _, rfl, h⟩

end Leftmost

section ContextFree
variable {rules : N → List (List (Symbol T N))} {start : N} {kind : τ → T}

theorem leftmost_terminals (w : List τ) :
    Leftmost rules kind [] ((w.map kind).map .terminal) w := by
  induction w with
  | nil => exact .nil
  | cons t w ih => exact .terminal rfl ih

/-- A rewriting step at the front of what is left of a derivation. -/
theorem Leftmost.of_rewrites {r : ContextFreeRule T N} (hr : r.output ∈ rules r.input)
    {u v : List (Symbol T N)} (huv : r.Rewrites u v) {ds : Used T N} {w : List τ}
    (h : Leftmost rules kind ds v w) : ∃ es, Leftmost rules kind es u w := by
  induction huv generalizing ds w with
  | head s => exact ⟨_, .nonterminal hr h⟩
  | cons X _ ih =>
      obtain ⟨ds₁, ds₂, w₁, w₂, rfl, rfl, h₁, h₂⟩ := h.split_cons
      obtain ⟨es, hes⟩ := ih h₂
      exact ⟨ds₁ ++ es, h₁.append hes⟩

variable [Fintype N] [DecidableEq N] [DecidableEq T]

/-- The productions without an order, as a context-free grammar. -/
def toContextFree (rules : N → List (List (Symbol T N))) (start : N) : ContextFreeGrammar T where
  NT := N
  initial := start
  rules := Finset.univ.biUnion fun A => ((rules A).map (ContextFreeRule.mk A)).toFinset

theorem mem_rules {r : ContextFreeRule T N} :
    r ∈ (toContextFree rules start).rules ↔ r.output ∈ rules r.input := by
  obtain ⟨A, p⟩ := r
  have h : (⟨A, p⟩ : ContextFreeRule T N) ∈ (Finset.univ : Finset N).biUnion
      (fun A => ((rules A).map (ContextFreeRule.mk A)).toFinset) ↔ p ∈ rules A := by
    simp
  exact h

theorem Leftmost.derives {ds : Used T N} {β : List (Symbol T N)} {w : List τ}
    (h : Leftmost rules kind ds β w) :
    (toContextFree rules start).Derives β ((w.map kind).map .terminal) := by
  induction h with
  | nil => exact .refl _
  | @terminal ds β w t a ht _ ih =>
      rw [List.map_cons, List.map_cons, ht]
      exact ih.append_left [.terminal a]
  | @nonterminal ds β p w A hp _ ih =>
      have hr : (⟨A, p⟩ : ContextFreeRule T N) ∈ (toContextFree rules start).rules :=
        mem_rules.mpr hp
      exact ContextFreeGrammar.Produces.trans_derives ⟨_, hr, .head β⟩ ih

theorem Leftmost.of_derives {β : List (Symbol T N)} {w : List τ}
    (h : (toContextFree rules start).Derives β ((w.map kind).map .terminal)) :
    ∃ ds, Leftmost rules kind ds β w := by
  induction h using Relation.ReflTransGen.head_induction_on with
  | refl => exact ⟨[], leftmost_terminals w⟩
  | head hstep _ ih =>
      obtain ⟨r, hr, huv⟩ := hstep
      obtain ⟨ds, hds⟩ := ih
      exact hds.of_rewrites (mem_rules.mp hr) huv

end ContextFree
end Grammar
