import Mathlib.Data.List.TakeDrop
import Mathlib.Tactic.Common

/-!
# Ring buffers

A buffer of `n` cells that is filled in order, and from its start again when it is full.
The position of the next write is the number of writes modulo `n`; below it are the
values written since it was last at the start.

## Main definitions

* `Ring.next` — the position of the next write.
* `Ring.recent` — the values below it.
-/

namespace Ring

variable {α : Type*} {n : ℕ} {xs : List α} {x : α}

/-- The position of the next write, after the values `xs`. -/
def next (n : ℕ) (xs : List α) : ℕ := xs.length % n

/-- The values written since the position was last at the start. -/
def recent (n : ℕ) (xs : List α) : List α := xs.drop (xs.length - next n xs)

theorem next_le (n : ℕ) (xs : List α) : next n xs ≤ xs.length := Nat.mod_le _ _

theorem next_lt (hn : 0 < n) (xs : List α) : next n xs < n := Nat.mod_lt _ hn

@[simp] theorem length_recent (n : ℕ) (xs : List α) : (recent n xs).length = next n xs := by
  have := next_le n xs
  rw [recent, List.length_drop]
  omega

theorem next_of_lt (h : xs.length < n) : next n xs = xs.length := Nat.mod_eq_of_lt h

theorem recent_of_lt (h : xs.length < n) : recent n xs = xs := by
  rw [recent, next_of_lt h, Nat.sub_self, List.drop_zero]

/-- A write moves the position on, from the last cell to the first one. -/
theorem next_push (hn : 0 < n) (xs : List α) (x : α) :
    next n (xs ++ [x]) = if next n xs + 1 < n then next n xs + 1 else 0 := by
  have hlt : next n xs < n := next_lt hn xs
  have hdiv : n * (xs.length / n) + next n xs = xs.length := Nat.div_add_mod _ _
  have hlen : (xs ++ [x]).length = n * (xs.length / n) + (next n xs + 1) := by
    rw [List.length_append, List.length_singleton, ← Nat.add_assoc, hdiv]
  rw [next, hlen, Nat.mul_add_mod]
  by_cases h : next n xs + 1 < n
  · rw [if_pos h, Nat.mod_eq_of_lt h]
  · rw [if_neg h, show next n xs + 1 = n by omega, Nat.mod_self]

/-- After a write the last of the recent values is the one that was written. -/
theorem recent_push (hn : 0 < n) (xs : List α) (x : α) :
    recent n (xs ++ [x]) = if next n xs + 1 < n then recent n xs ++ [x] else [] := by
  have hle := next_le n xs
  rw [recent, next_push hn]
  split
  · rw [recent, List.length_append, List.length_singleton,
      show xs.length + 1 - (next n xs + 1) = xs.length - next n xs by omega,
      List.drop_append_of_le_length (Nat.sub_le _ _)]
  · rw [Nat.sub_zero, List.drop_length]

/-- A cell below the position after a write holds the value written, or what it held. -/
theorem getElem?_recent_push (hn : 0 < n) {i : ℕ} {y : α}
    (h : (recent n (xs ++ [x]))[i]? = some y) :
    (i = next n xs ∧ y = x) ∨ (i < next n xs ∧ (recent n xs)[i]? = some y) := by
  rw [recent_push hn] at h
  split at h
  · by_cases hi : i < next n xs
    · rw [List.getElem?_append_left (by simpa using hi)] at h
      exact .inr ⟨hi, h⟩
    · rw [List.getElem?_append_right (by simpa using hi), length_recent] at h
      obtain ⟨hz, rfl⟩ : i - next n xs = 0 ∧ x = y := by
        rw [List.getElem?_singleton] at h
        split at h
        · next hz => exact ⟨hz, Option.some.inj h⟩
        · cases h
      exact .inl ⟨by omega, rfl⟩
  · simp at h

/-- Cells that hold the recent values, read in order. -/
theorem map_range_eq_recent (cells : ℕ → α)
    (h : ∀ i y, (recent n xs)[i]? = some y → cells i = y) :
    (List.range (next n xs)).map cells = recent n xs := by
  refine List.ext_getElem (by simp) fun i hi _ => ?_
  rw [List.getElem_map, List.getElem_range]
  exact h i _ (List.getElem?_eq_getElem _)

end Ring
