import Mathlib.Algebra.Order.Ring.Int
import Mathlib.Logic.Function.Basic
import Mathlib.Tactic.Ring

/-!
# Chained block encryption over a memory of blocks

A chaining mode stores a plaintext block `x` at position `k` as
`enc (mix x (m (k - 1)))`: every stored block depends on its predecessor.  This
module develops the mode over an arbitrary type of blocks, with `mix` an
arbitrary cancellable operation, and over a memory indexed by `ℤ`, so that the
block before the first one (the init vector) is an ordinary position.

## Main definitions

* `Chaining.Mode` — the block cipher pair and the mixing operation.
* `Chaining.Mode.decode` — the plaintext of a position.
* `Chaining.Mode.write` — store a block, ignoring the blocks after it.
* `Chaining.Mode.rechain` — store a block and re-encrypt the `n` blocks after it.
* `Chaining.Mode.encrypt` — encrypt the blocks `1, …, n` of a buffer in place.
* `Chaining.Mode.held` — the plaintexts of a memory with one block in a register.
* `Chaining.Mode.plain` — the mode that stores plaintext.
-/

namespace Chaining

variable {B : Type*}

/-- A block cipher pair with the operation that mixes a block with its
predecessor. -/
structure Mode (B : Type*) where
  /-- Encrypt one block. -/
  enc : B → B
  /-- Decrypt one block. -/
  dec : B → B
  /-- Mix a block with the stored block before it. -/
  mix : B → B → B

namespace Mode

/-- Decryption undoes encryption, and mixing twice with one block cancels. -/
structure Lawful (M : Mode B) : Prop where
  dec_enc : ∀ x, M.dec (M.enc x) = x
  mix_mix : ∀ x y, M.mix (M.mix x y) y = x

/-- The plaintext of the block stored at `k`. -/
def decode (M : Mode B) (m : ℤ → B) (k : ℤ) : B := M.mix (M.dec (m k)) (m (k - 1))

/-- The block that stores plaintext `x` behind the stored block `prev`. -/
def link (M : Mode B) (x prev : B) : B := M.enc (M.mix x prev)

/-- Store plaintext `x` at `k`.  The blocks after `k` keep their bytes. -/
def write (M : Mode B) (m : ℤ → B) (k : ℤ) (x : B) : ℤ → B :=
  Function.update m k (M.link x (m (k - 1)))

/-- Put the already encrypted block `cur` at `k` and re-encrypt the `n` blocks
after it under their new predecessors. -/
def rechain (M : Mode B) : ℕ → B → ℤ → (ℤ → B) → ℤ → B
  | 0, cur, k, m => Function.update m k cur
  | n + 1, cur, k, m =>
      M.rechain n (M.enc (M.mix (M.decode m (k + 1)) cur)) (k + 1) (Function.update m k cur)

/-- Encrypt the blocks `k, …, k + n - 1` in place, each under its already
encrypted predecessor. -/
def encrypt (M : Mode B) : ℕ → ℤ → (ℤ → B) → ℤ → B
  | 0, _, m => m
  | n + 1, k, m => M.encrypt n (k + 1) (M.write m k (m k))

/-- The mode that stores plaintext. -/
def plain : Mode B := ⟨id, id, fun x _ => x⟩

theorem plain_lawful : (plain : Mode B).Lawful := ⟨fun _ => rfl, fun _ _ => rfl⟩

@[simp] theorem decode_plain (m : ℤ → B) (k : ℤ) : plain.decode m k = m k := rfl

@[simp] theorem write_plain (m : ℤ → B) (k : ℤ) (x : B) :
    plain.write m k x = Function.update m k x := rfl

/-- A position's plaintext depends on its own block and the block before. -/
theorem decode_congr (M : Mode B) {m m' : ℤ → B} {k : ℤ} (h : m k = m' k)
    (h' : m (k - 1) = m' (k - 1)) : M.decode m k = M.decode m' k := by
  rw [decode, decode, h, h']

theorem decode_link {M : Mode B} (hM : M.Lawful) {m : ℤ → B} {k : ℤ} {x : B}
    (h : m k = M.link x (m (k - 1))) : M.decode m k = x := by
  rw [decode, h, link, hM.dec_enc, hM.mix_mix]

theorem write_self (M : Mode B) (m : ℤ → B) (k : ℤ) (x : B) :
    M.write m k x k = M.link x (m (k - 1)) := Function.update_self ..

theorem write_of_ne (M : Mode B) (m : ℤ → B) {k j : ℤ} (x : B) (h : j ≠ k) :
    M.write m k x j = m j := Function.update_of_ne h ..

/-- A written block decodes to what was written. -/
theorem decode_write_self {M : Mode B} (hM : M.Lawful) (m : ℤ → B) (k : ℤ) (x : B) :
    M.decode (M.write m k x) k = x := by
  refine decode_link hM ?_
  rw [write_self, write_of_ne M m x (by omega)]

/-- Writing one block disturbs its own plaintext and that of the next block. -/
theorem decode_write_of_ne (M : Mode B) (m : ℤ → B) {k j : ℤ} (x : B) (h : j ≠ k)
    (h' : j ≠ k + 1) : M.decode (M.write m k x) j = M.decode m j :=
  M.decode_congr (M.write_of_ne m x h) (M.write_of_ne m x (by omega))

/-! ## Re-encrypting a chain -/

/-- A chain rewrite touches the blocks `k, …, k + n` only. -/
theorem rechain_of_lt_or_gt (M : Mode B) (n : ℕ) (cur : B) (k : ℤ) (m : ℤ → B) {j : ℤ}
    (h : j < k ∨ k + n < j) : M.rechain n cur k m j = m j := by
  induction n generalizing cur k m with
  | zero => exact Function.update_of_ne (by omega) ..
  | succ n ih =>
      rw [rechain, ih _ _ _ (by omega)]
      exact Function.update_of_ne (by omega) ..

theorem rechain_self (M : Mode B) (n : ℕ) (cur : B) (k : ℤ) (m : ℤ → B) :
    M.rechain n cur k m k = cur := by
  cases n with
  | zero => exact Function.update_self ..
  | succ n =>
      rw [rechain, M.rechain_of_lt_or_gt n _ _ _ (Or.inl (by omega))]
      exact Function.update_self ..

/-- Every block after the first keeps its plaintext. -/
theorem decode_rechain_of_gt {M : Mode B} (hM : M.Lawful) (n : ℕ) (cur : B) (k : ℤ)
    (m : ℤ → B) {j : ℤ} (h : k < j) (h' : j ≤ k + n) :
    M.decode (M.rechain n cur k m) j = M.decode m j := by
  induction n generalizing cur k m with
  | zero => omega
  | succ n ih =>
      rw [rechain]
      by_cases hj : j = k + 1
      · subst hj
        refine decode_link hM ?_
        rw [M.rechain_self, add_sub_cancel_right, M.rechain_of_lt_or_gt n _ _ _ (Or.inl (by omega)),
          Function.update_self, link]
      · rw [ih _ _ _ (by omega) (by omega)]
        exact M.decode_congr (Function.update_of_ne (by omega) ..)
          (Function.update_of_ne (by omega) ..)

/-- Without encryption a chain rewrite is one store. -/
theorem rechain_plain (n : ℕ) (cur : B) (k : ℤ) (m : ℤ → B) :
    plain.rechain n cur k m = Function.update m k cur := by
  induction n generalizing cur k m with
  | zero => rfl
  | succ n ih =>
      rw [rechain, ih]
      funext j
      by_cases hj : j = k + 1
      · subst hj
        simp [plain, decode]
      · rw [Function.update_of_ne hj]

/-! ## A block in a register

While one block is worked on in a register, its place in memory is out of date.
What the memory stands for is every other plaintext, and the register. -/

/-- The plaintexts of `m` with `x` in place of block `k`. -/
def held (M : Mode B) (m : ℤ → B) (k : ℤ) (x : B) : ℤ → B := Function.update (M.decode m) k x

@[simp] theorem held_self (M : Mode B) (m : ℤ → B) (k : ℤ) (x : B) : M.held m k x k = x :=
  Function.update_self ..

theorem held_of_ne (M : Mode B) (m : ℤ → B) {k j : ℤ} (x : B) (h : j ≠ k) :
    M.held m k x j = M.decode m j := Function.update_of_ne h ..

/-- Loading a block changes nothing. -/
@[simp] theorem held_decode (M : Mode B) (m : ℤ → B) (k : ℤ) :
    M.held m k (M.decode m k) = M.decode m := Function.update_eq_self ..

theorem held_congr (M : Mode B) {m m' : ℤ → B} {j : ℤ} (k : ℤ) (x : B) (h : m j = m' j)
    (h' : m (j - 1) = m' (j - 1)) : M.held m k x j = M.held m' k x j := by
  by_cases hj : j = k
  · subst hj
    simp
  · rw [M.held_of_ne m x hj, M.held_of_ne m' x hj, M.decode_congr h h']

/-- Writing the register back damages the next block only. -/
theorem decode_write {M : Mode B} (hM : M.Lawful) (m : ℤ → B) (k : ℤ) (x : B) {j : ℤ}
    (h : j ≠ k + 1) : M.decode (M.write m k x) j = M.held m k x j := by
  by_cases hj : j = k
  · subst hj
    rw [decode_write_self hM, held_self]
  · rw [M.decode_write_of_ne m x hj h, M.held_of_ne m x hj]

/-- **Re-encrypting the `n` blocks behind the register** moves the damage behind
them. -/
theorem decode_rechain_link {M : Mode B} (hM : M.Lawful) (n : ℕ) (x : B) (k : ℤ) (m : ℤ → B)
    {j : ℤ} (h : j ≠ k + n + 1) :
    M.decode (M.rechain n (M.link x (m (k - 1))) k m) j = M.held m k x j := by
  by_cases hj : j = k
  · subst hj
    rw [held_self]
    refine decode_link hM ?_
    rw [M.rechain_self, M.rechain_of_lt_or_gt n _ _ _ (Or.inl (by omega))]
  · rw [M.held_of_ne m x hj]
    by_cases hk : k < j ∧ j ≤ k + n
    · exact decode_rechain_of_gt hM n _ k m hk.1 hk.2
    · exact M.decode_congr (M.rechain_of_lt_or_gt n _ k m (by omega))
        (M.rechain_of_lt_or_gt n _ k m (by omega))

/-! ## Encrypting a buffer in place -/

theorem encrypt_of_lt (M : Mode B) (n : ℕ) (k : ℤ) (m : ℤ → B) {j : ℤ} (h : j < k) :
    M.encrypt n k m j = m j := by
  induction n generalizing k m with
  | zero => rfl
  | succ n ih => rw [encrypt, ih _ _ (by omega), M.write_of_ne m _ (by omega)]

/-- Every encrypted block decodes to the block that was there. -/
theorem decode_encrypt {M : Mode B} (hM : M.Lawful) (n : ℕ) (k : ℤ) (m : ℤ → B) {j : ℤ}
    (h : k ≤ j) (h' : j < k + n) : M.decode (M.encrypt n k m) j = m j := by
  induction n generalizing k m with
  | zero => omega
  | succ n ih =>
      rw [encrypt]
      by_cases hj : j = k
      · subst hj
        rw [M.decode_congr (M.encrypt_of_lt n _ _ (by omega)) (M.encrypt_of_lt n _ _ (by omega)),
          decode_write_self hM]
      · rw [ih _ _ (by omega) (by omega), M.write_of_ne m _ hj]

end Mode
end Chaining
