import Mathlib.Init

/-!
# Relating effectful programs

A program written against an interface of primitive operations can be run over
two implementations of the interface.  If every primitive of the one is related
to the same primitive of the other, the two programs are related: this module
names the closure conditions under which that holds, for any two monads, and
gives the instance for one monad of states and errors in which both sides run
from the same state and keep an invariant.

## Main definitions

* `MonadRel m m'` — a relation between the programs of two monads that is closed
  under `pure` and `bind`.
* `Keeps I E x` — the program `x` keeps the state invariant `I`, and ends with
  `E` when it stops with an error.
* `MonadRel.keeping I E` — `Keeps` as a relation between two runs of one monad.
* `Preserves view x` — the program `x` leaves a view of the state as it is.
* `Commutes u x` — the program `x` does not depend on what `u` changes.
* `MonadRel.commuting u` — `Commutes` as a relation between two runs.
* `Similar R x y` — from related states, `x` and `y` have one result, in related states.
-/

namespace Effect

/-- A relation between programs, indexed by a relation between their results. -/
structure MonadRel (m m' : Type → Type) [Monad m] [Monad m'] where
  /-- Two programs are related, with results related by `A`. -/
  rel : {α β : Type} → (α → β → Prop) → m α → m' β → Prop
  rel_pure : ∀ {α β : Type} {A : α → β → Prop} {a : α} {b : β}, A a b →
    rel A (pure a) (pure b)
  rel_bind : ∀ {α β γ δ : Type} {A : α → β → Prop} {C : γ → δ → Prop} {x : m α} {y : m' β}
    {f : α → m γ} {g : β → m' δ}, rel A x y → (∀ a b, A a b → rel C (f a) (g b)) →
    rel C (x >>= f) (y >>= g)

variable {ε σ α β : Type}

theorem run_pure (a : α) (s : σ) : (pure a : EStateM ε σ α) s = .ok a s := rfl

theorem run_bind (x : EStateM ε σ α) (f : α → EStateM ε σ β) (s : σ) :
    (x >>= f) s = match x s with
      | .ok a s' => f a s'
      | .error e s' => .error e s' := rfl

theorem run_get (s : σ) : (get : EStateM ε σ σ) s = .ok s s := rfl

theorem run_modify (f : σ → σ) (s : σ) : (modify f : EStateM ε σ Unit) s = .ok () (f s) := rfl

/-- Run the continuation after a first part with a known result. -/
theorem bind_ok {x : EStateM ε σ α} {f : α → EStateM ε σ β} {s s' : σ} {a : α}
    (h : x s = .ok a s') : (x >>= f) s = f a s' := by rw [run_bind, h]

theorem bind_error {x : EStateM ε σ α} {f : α → EStateM ε σ β} {s s' : σ} {e : ε}
    (h : x s = .error e s') : (x >>= f) s = .error e s' := by rw [run_bind, h]

/-- Split a successful run of a sequence at its middle state. -/
theorem bind_eq_ok {x : EStateM ε σ α} {f : α → EStateM ε σ β} {s s' : σ} {b : β}
    (h : (x >>= f) s = .ok b s') : ∃ a s₁, x s = .ok a s₁ ∧ f a s₁ = .ok b s' := by
  rw [run_bind] at h
  cases hx : x s with
  | ok a s₁ => exact ⟨a, s₁, rfl, by simpa [hx] using h⟩
  | error e s₁ => simp [hx] at h

/-- The state a run ends in. -/
def stateOf : EStateM.Result ε σ α → σ
  | .ok _ s => s
  | .error _ s => s

/-- The value a run succeeds with. -/
def valueOf : EStateM.Result ε σ α → Option α
  | .ok a _ => some a
  | .error _ _ => none

theorem valueOf_eq_some {r : EStateM.Result ε σ α} {a : α} (h : valueOf r = some a) :
    ∃ s, r = .ok a s := by
  cases r with
  | ok b s =>
      obtain rfl := Option.some.inj h
      exact ⟨s, rfl⟩
  | error e s => cases h

/-- The result of a run satisfies `Q` when it succeeds and `E` when it fails. -/
def Ends (Q : α → σ → Prop) (E : ε → σ → Prop) : EStateM.Result ε σ α → Prop
  | .ok a s => Q a s
  | .error e s => E e s

@[simp] theorem ends_ok {Q : α → σ → Prop} {E : ε → σ → Prop} (a : α) (s : σ) :
    Ends Q E (.ok a s) ↔ Q a s := Iff.rfl
@[simp] theorem ends_error {Q : α → σ → Prop} {E : ε → σ → Prop} (e : ε) (s : σ) :
    Ends Q E (.error e s : EStateM.Result ε σ α) ↔ E e s := Iff.rfl

/-- A claim about success only. -/
theorem Ends.of_ok {Q : α → σ → Prop} {r : EStateM.Result ε σ α}
    (h : ∀ a s, r = .ok a s → Q a s) : Ends Q (fun _ _ => True) r := by
  cases r with
  | ok a s => exact h a s rfl
  | error e s => trivial

theorem Ends.ok {Q : α → σ → Prop} {E : ε → σ → Prop} {r : EStateM.Result ε σ α} {a : α} {s : σ}
    (h : Ends Q E r) (hr : r = .ok a s) : Q a s := by
  subst hr
  exact h

theorem Ends.state {P : σ → Prop} {r : EStateM.Result ε σ α}
    (h : Ends (fun _ s => P s) (fun _ s => P s) r) : P (stateOf r) := by
  cases r with
  | ok a s => exact h
  | error e s => exact h

theorem Ends.bind {x : EStateM ε σ α} {f : α → EStateM ε σ β} {s : σ} {P : α → σ → Prop}
    {Q : β → σ → Prop} {E : ε → σ → Prop} (hx : Ends P E (x s))
    (hf : ∀ a s', P a s' → Ends Q E (f a s')) : Ends Q E ((x >>= f) s) := by
  rw [run_bind]
  cases hs : x s with
  | ok a s' => rw [hs] at hx; exact hf a s' hx
  | error e s' => rw [hs] at hx; exact hx

theorem Ends.mono {r : EStateM.Result ε σ α} {P Q : α → σ → Prop} {E F : ε → σ → Prop}
    (h : Ends P E r) (hPQ : ∀ a s, P a s → Q a s) (hEF : ∀ e s, E e s → F e s) : Ends Q F r := by
  cases r with
  | ok a s => exact hPQ a s h
  | error e s => exact hEF e s h

/-- `x` keeps `I`; a run that stops with an error ends in a state with `E`. -/
def Keeps (I : σ → Prop) (E : ε → σ → Prop) (x : EStateM ε σ α) : Prop :=
  ∀ s, I s → Ends (fun _ s' => I s') E (x s)

/-- `x` keeps `I` whether it succeeds or fails. -/
structure Stable (I : σ → Prop) (x : EStateM ε σ α) : Prop where
  keeps : Keeps I (fun _ s => I s) x

namespace Stable

variable {I : σ → Prop}

theorem pure (a : α) : Stable I (pure a : EStateM ε σ α) := ⟨fun _ hs => hs⟩

theorem bind {x : EStateM ε σ α} {f : α → EStateM ε σ β} (hx : Stable I x)
    (hf : ∀ a, Stable I (f a)) : Stable I (x >>= f) :=
  ⟨fun s hs => (hx.keeps s hs).bind fun a s' hs' => (hf a).keeps s' hs'⟩

theorem get : Stable I (get : EStateM ε σ σ) := ⟨fun _ hs => hs⟩

theorem modify {f : σ → σ} (h : ∀ s, I s → I (f s)) : Stable I (modify f : EStateM ε σ Unit) :=
  ⟨h⟩

theorem ite {c : Prop} [Decidable c] {x y : EStateM ε σ α} (hx : Stable I x)
    (hy : Stable I y) : Stable I (if c then x else y) := by split <;> assumption

end Stable

/-- Two runs of one monad from the same state agree on state and error, and keep
`I`. -/
def MonadRel.keeping (I : σ → Prop) (E : ε → σ → Prop) :
    MonadRel (EStateM ε σ) (EStateM ε σ) where
  rel A x y := ∀ s, I s → match x s, y s with
    | .ok a s', .ok b s'' => A a b ∧ s' = s'' ∧ I s'
    | .error e s', .error e' s'' => e = e' ∧ s' = s'' ∧ E e s'
    | _, _ => False
  rel_pure h s hs := ⟨h, rfl, hs⟩
  rel_bind := by
    intro α β γ δ A C x y f g hx hf s hs
    have h := hx s hs
    simp only [run_bind]
    cases hxs : x s with
    | ok a s' =>
        cases hys : y s with
        | ok b s'' =>
            rw [hxs, hys] at h
            obtain ⟨hab, rfl, hI⟩ := h
            exact hf a b hab s' hI
        | error e s'' => rw [hxs, hys] at h; exact h.elim
    | error e s' =>
        cases hys : y s with
        | ok b s'' => rw [hxs, hys] at h; exact h.elim
        | error e' s'' => rw [hxs, hys] at h; exact h

/-- A program that keeps `I` is related to itself. -/
theorem Keeps.rel {I : σ → Prop} {E : ε → σ → Prop} {x : EStateM ε σ α} (h : Keeps I E x) :
    (MonadRel.keeping I E).rel Eq x x := by
  intro s hs
  have := h s hs
  cases hx : x s with
  | ok a s' => rw [hx] at this; exact ⟨rfl, rfl, this⟩
  | error e s' => rw [hx] at this; exact ⟨rfl, rfl, this⟩

theorem Keeps.of_rel {I : σ → Prop} {E : ε → σ → Prop} {x : EStateM ε σ α}
    (h : (MonadRel.keeping I E).rel Eq x x) : Keeps I E x := by
  intro s hs
  have := h s hs
  cases hx : x s with
  | ok a s' => rw [hx] at this; exact this.2.2
  | error e s' => rw [hx] at this; exact this.2.2

/-! ## Frames -/

/-- Whether it succeeds or fails, `x` leaves `view` as it is. -/
structure Preserves {V : Type} (view : σ → V) (x : EStateM ε σ α) : Prop where
  run : ∀ s, Ends (fun _ s' => view s' = view s) (fun _ s' => view s' = view s) (x s)

namespace Preserves

variable {V : Type} {view : σ → V}

theorem pure (a : α) : Preserves view (pure a : EStateM ε σ α) := ⟨fun _ => rfl⟩

theorem bind {x : EStateM ε σ α} {f : α → EStateM ε σ β} (hx : Preserves view x)
    (hf : ∀ a, Preserves view (f a)) : Preserves view (x >>= f) where
  run s := (hx.run s).bind fun a s' hs' =>
    ((hf a).run s').mono (fun _ _ h => h.trans hs') (fun _ _ h => h.trans hs')

theorem get : Preserves view (get : EStateM ε σ σ) := ⟨fun _ => rfl⟩

theorem modify {f : σ → σ} (h : ∀ s, view (f s) = view s) :
    Preserves view (modify f : EStateM ε σ Unit) := ⟨h⟩

theorem ite {c : Prop} [Decidable c] {x y : EStateM ε σ α} (hx : Preserves view x)
    (hy : Preserves view y) : Preserves view (if c then x else y) := by split <;> assumption

/-- A program that leaves the view alone keeps every property of it. -/
theorem keeps {x : EStateM ε σ α} (h : Preserves view x) (I : V → Prop) :
    Keeps (fun s => I (view s)) (fun _ s => I (view s)) x := fun s hs =>
  (h.run s).mono (fun _ _ h' => (congrArg I h').mpr hs) (fun _ _ h' => (congrArg I h').mpr hs)

end Preserves

/-! ## Independence of a part of the state -/

/-- Change the state a run has ended in. -/
def mapState (u : σ → σ) : EStateM.Result ε σ α → EStateM.Result ε σ α
  | .ok a s => .ok a (u s)
  | .error e s => .error e (u s)

/-- `x` does not notice whether `u` has been applied to the state. -/
def Commutes (u : σ → σ) (x : EStateM ε σ α) : Prop := ∀ s, x (u s) = mapState u (x s)

namespace Commutes

variable {u : σ → σ}

theorem pure (a : α) : Commutes u (pure a : EStateM ε σ α) := fun _ => rfl

theorem throw (e : ε) : Commutes u (throw e : EStateM ε σ α) := fun _ => rfl

theorem bind {x : EStateM ε σ α} {f : α → EStateM ε σ β} (hx : Commutes u x)
    (hf : ∀ a, Commutes u (f a)) : Commutes u (x >>= f) := by
  intro s
  rw [run_bind, run_bind, hx s]
  cases x s with
  | ok a s' => exact hf a s'
  | error e s' => rfl

theorem ite {c : Prop} [Decidable c] {x y : EStateM ε σ α} (hx : Commutes u x)
    (hy : Commutes u y) : Commutes u (if c then x else y) := by split <;> assumption

end Commutes

/-- The second program does from `u s` what the first one does from `s`. -/
def MonadRel.commuting (u : σ → σ) : MonadRel (EStateM ε σ) (EStateM ε σ) where
  rel A x y := ∀ s, match x s, y (u s) with
    | .ok a s', .ok b s'' => A a b ∧ s'' = u s'
    | .error e s', .error e' s'' => e = e' ∧ s'' = u s'
    | _, _ => False
  rel_pure h _ := ⟨h, rfl⟩
  rel_bind := by
    intro α β γ δ A C x y f g hx hf s
    have h := hx s
    simp only [run_bind]
    cases hxs : x s with
    | ok a s' =>
        cases hys : y (u s) with
        | ok b s'' =>
            rw [hxs, hys] at h
            obtain ⟨hab, rfl⟩ := h
            exact hf a b hab s'
        | error e s'' => rw [hxs, hys] at h; exact h.elim
    | error e s' =>
        cases hys : y (u s) with
        | ok b s'' => rw [hxs, hys] at h; exact h.elim
        | error e' s'' => rw [hxs, hys] at h; exact h

theorem Commutes.rel {u : σ → σ} {x : EStateM ε σ α} (h : Commutes u x) :
    (MonadRel.commuting u).rel Eq x x := by
  intro s
  rw [h s]
  cases x s with
  | ok a s' => exact ⟨rfl, rfl⟩
  | error e s' => exact ⟨rfl, rfl⟩

theorem Commutes.of_rel {u : σ → σ} {x : EStateM ε σ α}
    (h : (MonadRel.commuting u).rel Eq x x) : Commutes u x := by
  intro s
  have hs := h s
  cases hx : x s with
  | ok a s' =>
      cases hy : x (u s) with
      | ok b s'' =>
          rw [hx, hy] at hs
          obtain ⟨rfl, rfl⟩ := hs
          rfl
      | error e s'' => rw [hx, hy] at hs; exact hs.elim
  | error e s' =>
      cases hy : x (u s) with
      | ok b s'' => rw [hx, hy] at hs; exact hs.elim
      | error e' s'' =>
          rw [hx, hy] at hs
          obtain ⟨rfl, rfl⟩ := hs
          rfl

/-! ## Two runs -/

section Similar
variable {τ : Type} {R : σ → τ → Prop}

/-- The runs succeed with one value, in states related by `R`, or fail with one error. -/
inductive SimilarResult (R : σ → τ → Prop) :
    EStateM.Result ε σ α → EStateM.Result ε τ α → Prop
  | ok (a : α) {s : σ} {t : τ} : R s t → SimilarResult R (.ok a s) (.ok a t)
  | error (e : ε) (s : σ) (t : τ) : SimilarResult R (.error e s) (.error e t)

/-- From states related by `R`, the programs have the same values and errors, and keep `R`. -/
def Similar (R : σ → τ → Prop) (x : EStateM ε σ α) (y : EStateM ε τ α) : Prop :=
  ∀ s t, R s t → SimilarResult R (x s) (y t)

namespace Similar

theorem pure (a : α) : Similar R (pure a : EStateM ε σ α) (pure a) := fun _ _ h => .ok a h

theorem throw (e : ε) : Similar R (throw e : EStateM ε σ α) (throw e) :=
  fun s t _ => .error e s t

theorem bind {x : EStateM ε σ α} {y : EStateM ε τ α} {f : α → EStateM ε σ β}
    {g : α → EStateM ε τ β} (hx : Similar R x y) (hf : ∀ a, Similar R (f a) (g a)) :
    Similar R (x >>= f) (y >>= g) := by
  intro s t h
  have hxs := hx s t h
  rw [run_bind, run_bind]
  generalize x s = r at hxs
  generalize y t = r' at hxs
  cases hxs with
  | ok a ht => exact hf a _ _ ht
  | error e s' t' => exact .error e s' t'

/-- What comes next is a matter of the state. -/
theorem get {f : σ → EStateM ε σ β} {g : τ → EStateM ε τ β}
    (hf : ∀ s t, R s t → Similar R (f s) (g t)) : Similar R (get >>= f) (get >>= g) :=
  fun s t h => hf s t h s t h

theorem modify {f : σ → σ} {g : τ → τ} (h : ∀ s t, R s t → R (f s) (g t)) :
    Similar R (modify f : EStateM ε σ Unit) (modify g) := fun s t hs => .ok () (h s t hs)

theorem ite {c : Prop} [Decidable c] {x x' : EStateM ε σ α} {y y' : EStateM ε τ α}
    (hx : Similar R x y) (hy : Similar R x' y') :
    Similar R (if c then x else x') (if c then y else y') := by
  split
  · exact hx
  · exact hy

end Similar
end Similar

end Effect
