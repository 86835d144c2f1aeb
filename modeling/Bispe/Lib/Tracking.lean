import Mathlib.Data.List.Infix
import Mathlib.Order.Filter.Basic
import Mathlib.Tactic.Common

/-!
# Machines that track an evaluation

The meaning of a language can be given by an evaluator with a bound on its loops and
calls; a machine runs the code of the same program step by step.  The machine *tracks*
the evaluation when it prints what the evaluation prints and then arrives where the
result is, stops with the same fault, or takes at least as many steps as the bound says
when the evaluation reaches its bound.  It may give up earlier, with an error that the
language does not know, such as an overflow of its stack.

The rules below follow the structure of the evaluator: a sequence is tracked part by
part, a step of the machine counts towards the bound, and a loop is tracked when each of
its rounds is.

## Main definitions

* `Eval ω ε` — evaluations that print values in `ω` and fail with faults in `ε`.
* `Eval.rounds` — a loop with a bound on its rounds.
* `Eval.Faults` — the kind of faults an evaluation can end with.
* `Eval.Below` — what a larger bound makes of an evaluation.
* `Machine` — runs, output and failures of a machine.
* `Machine.Tracks` — the machine tracks an evaluation.
* `Machine.along` — what almost all machines of a family do.
-/

namespace Tracking

/-- How an evaluation ends without a value. -/
inductive Trap (ε : Type)
  /-- A fault of the program. -/
  | fault (e : ε)
  /-- The language gives no meaning to the program. -/
  | undefined
  /-- The bound is reached. -/
  | timeout
  deriving DecidableEq, Repr

/-- What an evaluation prints, and the value or trap it ends with. -/
structure Eval (ω ε α : Type) where
  out : List ω
  result : Except (Trap ε) α
  deriving DecidableEq

section Evaluations
variable {ω ε α β : Type}

namespace Eval

protected def bind (x : Eval ω ε α) (f : α → Eval ω ε β) : Eval ω ε β :=
  match x.result with
  | .ok a => ⟨x.out ++ (f a).out, (f a).result⟩
  | .error e => ⟨x.out, .error e⟩

instance : Monad (Eval ω ε) where
  pure a := ⟨[], .ok a⟩
  bind := Eval.bind

def trap (e : Trap ε) : Eval ω ε α := ⟨[], .error e⟩

def print (w : ω) : Eval ω ε Unit := ⟨[w], .ok ()⟩

theorem bind_ok {x : Eval ω ε α} {a : α} (h : x.result = .ok a) (f : α → Eval ω ε β) :
    x >>= f = ⟨x.out ++ (f a).out, (f a).result⟩ := by
  change x.bind f = _
  rw [Eval.bind, h]

theorem bind_error {x : Eval ω ε α} {e : Trap ε} (h : x.result = .error e)
    (f : α → Eval ω ε β) : x >>= f = ⟨x.out, .error e⟩ := by
  change x.bind f = _
  rw [Eval.bind, h]

/-- The value of a sequence is that of its second part, from the value of the first. -/
theorem bind_eq_ok {x : Eval ω ε α} {f : α → Eval ω ε β} {b : β}
    (h : (x >>= f).result = .ok b) : ∃ a, x.result = .ok a ∧ (f a).result = .ok b := by
  cases hx : x.result with
  | ok a =>
      rw [bind_ok hx] at h
      exact ⟨a, rfl, h⟩
  | error e =>
      rw [bind_error hx] at h
      cases h

/-- A loop of at most `k` rounds over an environment.  The body goes on to the next round
or leaves the loop with a value. -/
def rounds {ρ : Type} (cond : ρ → Eval ω ε Bool) (body : ρ → Eval ω ε (ρ ⊕ β)) :
    ℕ → ρ → Eval ω ε (ρ ⊕ β)
  | 0, _ => trap .timeout
  | k + 1, env => do
      if ← cond env then
        match ← body env with
        | .inl env => rounds cond body k env
        | .inr b => pure (.inr b)
      else
        pure (.inl env)

/-! ### Faults -/

/-- The faults of an evaluation are of this kind. -/
def Faults (P : ε → Prop) (x : Eval ω ε α) : Prop := ∀ e, x.result = .error (.fault e) → P e

namespace Faults

variable {P : ε → Prop} {x : Eval ω ε α} {f : α → Eval ω ε β}

theorem pure (a : α) : Faults P (pure a : Eval ω ε α) := by
  intro e h
  cases h

theorem print (w : ω) : Faults P (Eval.print w : Eval ω ε Unit) := by
  intro e h
  cases h

theorem undefined : Faults P (trap .undefined : Eval ω ε α) := by
  intro e h
  cases h

theorem timeout : Faults P (trap .timeout : Eval ω ε α) := by
  intro e h
  cases h

theorem fault {e : ε} (h : P e) : Faults P (trap (.fault e) : Eval ω ε α) := by
  intro e' he'
  cases he'
  exact h

theorem bind (hx : Faults P x) (hf : ∀ a, Faults P (f a)) : Faults P (x >>= f) := by
  intro e h
  cases hresult : x.result with
  | error e' =>
      rw [bind_error hresult] at h
      rw [Except.error.inj h] at hresult
      exact hx e hresult
  | ok a =>
      rw [bind_ok hresult] at h
      exact hf a e h

theorem rounds {ρ : Type} {cond : ρ → Eval ω ε Bool} {body : ρ → Eval ω ε (ρ ⊕ β)}
    (hcond : ∀ env, Faults P (cond env)) (hbody : ∀ env, Faults P (body env)) (k : ℕ) (env : ρ) :
    Faults P (Eval.rounds cond body k env) := by
  induction k generalizing env with
  | zero => exact timeout
  | succ k ih =>
      refine bind (hcond env) fun go => ?_
      cases go with
      | false => exact pure _
      | true =>
          refine bind (hbody env) fun r => ?_
          cases r with
          | inl env' => exact ih env'
          | inr b => exact pure _

end Faults

/-! ### Bounds -/

/-- An evaluation by a larger bound: the same, unless the first one has reached its bound. -/
def Below (x y : Eval ω ε α) : Prop :=
  x = y ∨ (x.result = .error .timeout ∧ x.out <+: y.out)

namespace Below

variable {x y : Eval ω ε α} {f g : α → Eval ω ε β}

theorem refl (x : Eval ω ε α) : Below x x := .inl rfl

theorem timeout (y : Eval ω ε α) : Below (trap .timeout) y := .inr ⟨rfl, List.nil_prefix⟩

/-- What has ended by a bound ends in the same way by a larger one. -/
theorem eq (h : Below x y) (hx : x.result ≠ .error .timeout) : y = x :=
  (h.resolve_right fun htime => hx htime.1).symm

theorem out (h : Below x y) : x.out <+: y.out := by
  rcases h with rfl | ⟨-, h⟩
  · exact List.prefix_rfl
  · exact h

theorem bind (h : Below x y) (hfg : ∀ a, Below (f a) (g a)) : Below (x >>= f) (y >>= g) := by
  rcases h with rfl | ⟨htime, hout⟩
  · cases hx : x.result with
    | error e =>
        rw [bind_error hx, bind_error hx]
        exact refl _
    | ok a =>
        rw [bind_ok hx, bind_ok hx]
        rcases hfg a with heq | ⟨htime, hout⟩
        · rw [heq]
          exact refl _
        · exact .inr ⟨htime, (List.prefix_append_right_inj _).mpr hout⟩
  · rw [bind_error htime]
    refine .inr ⟨rfl, hout.trans ?_⟩
    cases hy : y.result with
    | error e =>
        rw [bind_error hy]
    | ok a =>
        rw [bind_ok hy]
        exact List.prefix_append _ _

theorem rounds {ρ : Type} {cond cond' : ρ → Eval ω ε Bool}
    {body body' : ρ → Eval ω ε (ρ ⊕ β)} (hcond : ∀ env, Below (cond env) (cond' env))
    (hbody : ∀ env, Below (body env) (body' env)) {k k' : ℕ} (hk : k ≤ k') (env : ρ) :
    Below (Eval.rounds cond body k env) (Eval.rounds cond' body' k' env) := by
  induction k generalizing k' env with
  | zero => exact timeout _
  | succ k ih =>
      obtain ⟨k', rfl⟩ := Nat.exists_eq_add_one_of_ne_zero (by omega : k' ≠ 0)
      refine bind (hcond env) fun go => ?_
      cases go with
      | false => exact refl _
      | true =>
          refine bind (hbody env) fun r => ?_
          cases r with
          | inl env' => exact ih (by omega) env'
          | inr b => exact refl _

end Below

end Eval

end Evaluations

/-- A machine: its runs of a number of steps, what it has printed, and the states in which
its next step fails. -/
structure Machine (σ ω ε : Type) where
  runs : ℕ → σ → σ → Prop
  out : σ → List ω
  fails : σ → ε → Prop
  refl : ∀ s, runs 0 s s
  trans : ∀ {n m s s' s''}, runs n s s' → runs m s' s'' → runs (n + m) s s''

namespace Machine

variable {σ ω ε α β : Type} (M : Machine σ ω ε) (excuse : ε → Prop)

/-- The machine stops with an excuse; what it has printed until then is the beginning of `o`. -/
def GivesUp (s : σ) (o : List ω) : Prop :=
  ∃ n s' e, M.runs n s s' ∧ M.fails s' e ∧ excuse e ∧ M.out s' <+: o

/-- Where `n` steps have to lead for an evaluation with the bound `k`. -/
def Ends (k : ℕ) (Post : α → σ → Prop) (n : ℕ) (s' : σ) : Except (Trap ε) α → Prop
  | .ok a => Post a s'
  | .error (.fault e) => M.fails s' e
  | .error .undefined => True
  | .error .timeout => k ≤ n

/-- **The machine tracks the evaluation** `x` with the bound `k`. -/
def Tracks (k : ℕ) (x : Eval ω ε α) (s : σ) (Post : α → σ → Prop) : Prop :=
  x.result = .error .undefined ∨ M.GivesUp excuse s (M.out s ++ x.out) ∨
    ∃ n s', M.runs n s s' ∧ M.out s' = M.out s ++ x.out ∧ M.Ends k Post n s' x.result

variable {M excuse} {k n : ℕ} {x : Eval ω ε α} {s s' : σ} {P Q : α → σ → Prop}

theorem GivesUp.mono {o o' : List ω} (h : M.GivesUp excuse s o) (ho : o <+: o') :
    M.GivesUp excuse s o' := by
  obtain ⟨n, s', e, hrun, hfail, hexcuse, hout⟩ := h
  exact ⟨n, s', e, hrun, hfail, hexcuse, hout.trans ho⟩

theorem GivesUp.after {o : List ω} (hrun : M.runs n s s') (h : M.GivesUp excuse s' o) :
    M.GivesUp excuse s o := by
  obtain ⟨m, s'', e, hrun', hfail⟩ := h
  exact ⟨n + m, s'', e, M.trans hrun hrun', hfail⟩

theorem Ends.imp {k' n' : ℕ} {r : Except (Trap ε) α} (h : M.Ends k P n s r)
    (hP : ∀ a, P a s → Q a s) (hk : k ≤ n → k' ≤ n') : M.Ends k' Q n' s r := by
  cases r with
  | ok a => exact hP a h
  | error e =>
      cases e with
      | fault e => exact h
      | undefined => trivial
      | timeout => exact hk h

theorem Ends.error {e : Trap ε} {R : β → σ → Prop}
    (h : M.Ends k P n s (.error e)) : M.Ends k R n s (.error e) := by
  cases e with
  | fault e => exact h
  | undefined => trivial
  | timeout => exact h

namespace Tracks

theorem pure {a : α} (h : P a s) : M.Tracks excuse k (pure a) s P :=
  .inr (.inr ⟨0, s, M.refl s, (List.append_nil _).symm, h⟩)

theorem undefined : M.Tracks excuse k (.trap .undefined) s P := .inl rfl

theorem timeout : M.Tracks excuse 0 (.trap .timeout) s P :=
  .inr (.inr ⟨0, s, M.refl s, (List.append_nil _).symm, Nat.zero_le 0⟩)

theorem fault {e : ε} (h : M.fails s e) : M.Tracks excuse k (.trap (.fault e)) s P :=
  .inr (.inr ⟨0, s, M.refl s, (List.append_nil _).symm, h⟩)

/-- A machine that fails with an excuse tracks anything. -/
theorem giveUp {e : ε} (h : M.fails s e) (hexcuse : excuse e) : M.Tracks excuse k x s P :=
  .inr (.inl ⟨0, s, e, M.refl s, h, hexcuse, List.prefix_append _ _⟩)

theorem print {w : ω} {P : Unit → σ → Prop} (hrun : M.runs n s s')
    (hout : M.out s' = M.out s ++ [w]) (h : P () s') : M.Tracks excuse k (.print w) s P :=
  .inr (.inr ⟨n, s', hrun, hout, h⟩)

theorem mono (h : M.Tracks excuse k x s P) (hPQ : ∀ a s', P a s' → Q a s') :
    M.Tracks excuse k x s Q := by
  rcases h with h | h | ⟨n, s', hrun, hout, hends⟩
  · exact .inl h
  · exact .inr (.inl h)
  · exact .inr (.inr ⟨n, s', hrun, hout, hends.imp (fun a ha => hPQ a s' ha) id⟩)

/-- The value is that of the evaluation. -/
theorem result (h : M.Tracks excuse k x s P) :
    M.Tracks excuse k x s fun a s' => x.result = .ok a ∧ P a s' := by
  rcases h with h | h | ⟨n, s', hrun, hout, hends⟩
  · exact .inl h
  · exact .inr (.inl h)
  · refine .inr (.inr ⟨n, s', hrun, hout, ?_⟩)
    cases hx : x.result with
    | error e =>
        rw [hx] at hends
        exact hends.error
    | ok a =>
        rw [hx] at hends
        exact ⟨rfl, hends⟩

/-- Steps after the value is there. -/
theorem extend (h : M.Tracks excuse k x s P) (hPQ : ∀ a s', P a s' →
    ∃ m s'', M.runs m s' s'' ∧ M.out s'' = M.out s' ∧ Q a s'') : M.Tracks excuse k x s Q := by
  rcases h with h | h | ⟨n, s', hrun, hout, hends⟩
  · exact .inl h
  · exact .inr (.inl h)
  · cases hx : x.result with
    | error e =>
        rw [hx] at hends
        refine .inr (.inr ⟨n, s', hrun, hout, ?_⟩)
        rw [hx]
        exact hends.error
    | ok a =>
        rw [hx] at hends
        obtain ⟨m, s'', hrun', hout', hQ⟩ := hPQ a s' hends
        refine .inr (.inr ⟨n + m, s'', M.trans hrun hrun', hout'.trans hout, ?_⟩)
        rw [hx]
        exact hQ

/-- A smaller bound. -/
theorem bound {k' : ℕ} (h : M.Tracks excuse k x s P) (hk : k' ≤ k) : M.Tracks excuse k' x s P := by
  rcases h with h | h | ⟨n, s', hrun, hout, hends⟩
  · exact .inl h
  · exact .inr (.inl h)
  · exact .inr (.inr ⟨n, s', hrun, hout, hends.imp (fun _ ha => ha) hk.trans⟩)

/-- Steps that print nothing count towards the bound. -/
theorem after (hrun : M.runs n s s') (hout : M.out s' = M.out s) (h : M.Tracks excuse k x s' P) :
    M.Tracks excuse (k + n) x s P := by
  rcases h with h | h | ⟨m, s'', hrun', hout', hends⟩
  · exact .inl h
  · rw [hout] at h
    exact .inr (.inl (h.after hrun))
  · rw [hout] at hout'
    refine .inr (.inr ⟨n + m, s'', M.trans hrun hrun', hout', hends.imp (fun _ ha => ha) ?_⟩)
    intro hk
    omega

/-- Steps that print nothing. -/
theorem steps (hrun : M.runs n s s') (hout : M.out s' = M.out s) (h : M.Tracks excuse k x s' P) :
    M.Tracks excuse k x s P :=
  (after hrun hout h).bound (Nat.le_add_right k n)

/-- **One part after another.** -/
theorem bind {f : α → Eval ω ε β} {R : β → σ → Prop} (h : M.Tracks excuse k x s P)
    (hf : ∀ a s', P a s' → M.Tracks excuse k (f a) s' R) : M.Tracks excuse k (x >>= f) s R := by
  cases hx : x.result with
  | error e =>
      rw [Eval.bind_error hx]
      rcases h with h | h | ⟨n, s', hrun, hout, hends⟩
      · rw [hx] at h
        exact .inl (congrArg Except.error (Except.error.inj h))
      · exact .inr (.inl h)
      · rw [hx] at hends
        exact .inr (.inr ⟨n, s', hrun, hout, hends.error⟩)
  | ok a =>
      rw [Eval.bind_ok hx]
      rcases h with h | h | ⟨n, s', hrun, hout, hends⟩
      · rw [hx] at h
        cases h
      · -- it has given up in the first part
        refine .inr (.inl (h.mono ?_))
        rw [← List.append_assoc]
        exact List.prefix_append _ _
      · rw [hx] at hends
        rcases hf a s' hends with h | h | ⟨m, s'', hrun', hout', hends'⟩
        · exact .inl h
        · rw [hout, List.append_assoc] at h
          exact .inr (.inl (h.after hrun))
        · rw [hout, List.append_assoc] at hout'
          refine .inr (.inr ⟨n + m, s'', M.trans hrun hrun', hout', ?_⟩)
          exact hends'.imp (fun _ hb => hb) fun hk => hk.trans (Nat.le_add_left m n)

/-- **Loops.**  `I` holds where the condition is evaluated and `J` where the body starts;
after the condition the machine takes one more step, to the body or out of the loop. -/
theorem rounds {ρ : Type} {cond : ρ → Eval ω ε Bool} {body : ρ → Eval ω ε (ρ ⊕ β)}
    {I J : ρ → σ → Prop} {R : ρ ⊕ β → σ → Prop} {b : ℕ}
    (hcond : ∀ env s, I env s → M.Tracks excuse b (cond env) s fun go s' =>
      ∃ s'', M.runs 1 s' s'' ∧ M.out s'' = M.out s' ∧ if go then J env s'' else R (.inl env) s'')
    (hbody : ∀ env s, J env s → M.Tracks excuse b (body env) s fun r s' =>
      match r with
      | .inl env => I env s'
      | .inr c => R (.inr c) s')
    (hk : k ≤ b) {env : ρ} (h : I env s) :
    M.Tracks excuse k (Eval.rounds cond body k env) s R := by
  induction k generalizing env s with
  | zero => exact timeout
  | succ k ih =>
      refine ((hcond env s h).bound hk).bind fun go s' hs' => ?_
      obtain ⟨s'', hrun, hout, hgo⟩ := hs'
      cases go with
      | false => exact after hrun hout (pure hgo)
      | true =>
          refine after hrun hout (((hbody env s'' hgo).bound (by omega)).bind fun r s₁ hs₁ => ?_)
          cases r with
          | inl env' => exact ih (by omega) hs₁
          | inr c => exact pure hs₁

end Tracks

/-! ### Families -/

section Families
variable {ι : Type} {N : ι → Machine σ ω ε} {out : σ → List ω} {l : Filter ι}

/-- What almost all machines of a family do.  They have their output in common. -/
def along (N : ι → Machine σ ω ε) (out : σ → List ω) (l : Filter ι) : Machine σ ω ε where
  runs n s s' := ∀ᶠ i in l, (N i).runs n s s'
  out := out
  fails s e := ∀ᶠ i in l, (N i).fails s e
  refl s := .of_forall fun i => (N i).refl s
  trans h h' := (h.and h').mono fun i hi => (N i).trans hi.1 hi.2

theorem Ends.eventually {r : Except (Trap ε) α} (h : (along N out l).Ends k P n s r) :
    ∀ᶠ i in l, (N i).Ends k P n s r := by
  cases r with
  | ok a => exact .of_forall fun i => h
  | error e =>
      cases e with
      | fault e => exact h
      | undefined => exact .of_forall fun i => trivial
      | timeout => exact .of_forall fun i => h

/-- **What a family tracks** is tracked by almost all of its machines. -/
theorem Tracks.eventually (hout : ∀ i, (N i).out = out)
    (h : (along N out l).Tracks excuse k x s P) : ∀ᶠ i in l, (N i).Tracks excuse k x s P := by
  rcases h with h | ⟨n, s', e, hrun, hfail, hexcuse, hprefix⟩ | ⟨n, s', hrun, hsame, hends⟩
  · exact .of_forall fun i => .inl h
  · filter_upwards [hrun, hfail] with i hrun hfail
    refine .inr (.inl ⟨n, s', e, hrun, hfail, hexcuse, ?_⟩)
    rw [hout]
    exact hprefix
  · filter_upwards [hrun, hends.eventually] with i hrun hends
    refine .inr (.inr ⟨n, s', hrun, ?_, hends⟩)
    rw [hout]
    exact hsame

end Families

end Machine

end Tracking
