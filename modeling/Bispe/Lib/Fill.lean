import Mathlib.Data.List.Basic
import Mathlib.Tactic.Common

/-!
# Loops that fill an array

A counting loop that writes one place of an array in each iteration.  What it
writes may depend on the array, as long as it reads below the place it writes: the
array after the loop then satisfies the loop body as an equation.

## Main definitions

* `Fill.fill` — the loop.
* `Fill.Causal` — the body reads below the place it writes.
-/

namespace Fill

variable {α : Type*} {m : ℕ}

/-- `for (i = a; i < a + n; i++) v[i] = f(v, i)`. -/
def fill (f : Vector α m → ℕ → α) (a n : ℕ) (v : Vector α m) : Vector α m :=
  (List.range' a n).foldl (fun v i => v.setIfInBounds i (f v i)) v

/-- From `a` on, what is written at `i` depends on the places below `i` only. -/
def Causal (f : Vector α m → ℕ → α) (a : ℕ) : Prop :=
  ∀ v v' i, a ≤ i → (∀ j < i, v[j]? = v'[j]?) → f v i = f v' i

theorem causal_const (f : ℕ → α) (a : ℕ) : Causal (fun (_ : Vector α m) => f) a :=
  fun _ _ _ _ _ => rfl

variable {f : Vector α m → ℕ → α} {a n : ℕ} {v : Vector α m}

@[simp] theorem fill_zero : fill f a 0 v = v := rfl

theorem fill_succ :
    fill f a (n + 1) v = (fill f a n v).setIfInBounds (a + n) (f (fill f a n v) (a + n)) := by
  rw [fill, List.range'_concat, List.foldl_append, Nat.one_mul]
  rfl

/-- The loop leaves the other places alone. -/
theorem getElem?_fill_of_outside {j : ℕ} (h : j < a ∨ a + n ≤ j) :
    (fill f a n v)[j]? = v[j]? := by
  induction n with
  | zero => rfl
  | succ n ih =>
      rw [fill_succ, Vector.getElem?_setIfInBounds_ne (by omega), ih (by omega)]

/-- **The places the loop writes satisfy its body**, on the final array. -/
theorem getElem?_fill (hf : Causal f a) {j : ℕ} (ha : a ≤ j) (hj : j < a + n) (hm : j < m) :
    (fill f a n v)[j]? = some (f (fill f a n v) j) := by
  induction n with
  | zero => omega
  | succ n ih =>
      have hsame : f (fill f a (n + 1) v) j = f (fill f a n v) j := by
        apply hf _ _ _ ha
        intro i hi
        rw [fill_succ, Vector.getElem?_setIfInBounds_ne (by omega)]
      by_cases hlast : j = a + n
      · subst hlast
        rw [hsame, fill_succ, Vector.getElem?_setIfInBounds_self_of_lt hm]
      · rw [hsame, fill_succ, Vector.getElem?_setIfInBounds_ne (by omega), ih (by omega)]

end Fill
