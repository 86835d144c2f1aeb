import Mathlib.Data.List.Basic
import Mathlib.Tactic.Common

/-!
# Iterated round ciphers and their equivalent inverse

A block cipher that alternates a substitution layer, a linear mixing layer and
the addition of a round key, over an arbitrary type of blocks and for any number
of rounds.  Its decryption can run the inverse layers in the order of encryption
when the keys of the inner rounds are passed through the inverse mixing layer:
the equivalent inverse cipher.

## Main definitions

* `Rounds.Layers` — the layers of one round, with their inverses.
* `Rounds.Layers.encrypt`, `Rounds.Layers.decrypt` — the cipher and its
  equivalent inverse.
-/

namespace Rounds

variable {B : Type*}

/-- The layers of a round and the operation that adds a key. -/
structure Layers (B : Type*) where
  /-- Add a round key. -/
  add : B → B → B
  /-- The substitution layer. -/
  sub : B → B
  /-- Its inverse. -/
  invSub : B → B
  /-- The mixing layer. -/
  mix : B → B
  /-- Its inverse. -/
  invMix : B → B

namespace Layers

/-- Keys cancel, the layers are inverted, and the inverse mixing layer is additive. -/
structure Lawful (L : Layers B) : Prop where
  add_add : ∀ x k, L.add (L.add x k) k = x
  invSub_sub : ∀ x, L.invSub (L.sub x) = x
  sub_invSub : ∀ x, L.sub (L.invSub x) = x
  invMix_mix : ∀ x, L.invMix (L.mix x) = x
  mix_invMix : ∀ x, L.mix (L.invMix x) = x
  invMix_add : ∀ x k, L.invMix (L.add x k) = L.add (L.invMix x) (L.invMix k)

/-- One inner round. -/
def round (L : Layers B) (x k : B) : B := L.add (L.mix (L.sub x)) k

/-- One inner round of the equivalent inverse cipher, with its transformed key. -/
def invRound (L : Layers B) (x k : B) : B := L.add (L.invMix (L.invSub x)) k

/-- The inner rounds with the keys `ks`. -/
def rounds (L : Layers B) (ks : List B) (x : B) : B := ks.foldl L.round x

/-- The inner rounds of the inverse cipher, with the keys `ks` before their
transformation, in the order of use. -/
def invRounds (L : Layers B) (ks : List B) (x : B) : B :=
  ks.foldl (fun y k => L.invRound y (L.invMix k)) x

/-- Whiten with `k₀`, run the inner rounds, and close with a round without mixing. -/
def encrypt (L : Layers B) (k₀ : B) (ks : List B) (kₙ x : B) : B :=
  L.add (L.sub (L.rounds ks (L.add x k₀))) kₙ

/-- The equivalent inverse cipher: the same shape, with the keys in reverse. -/
def decrypt (L : Layers B) (k₀ : B) (ks : List B) (kₙ x : B) : B :=
  L.add (L.invSub (L.invRounds ks.reverse (L.add x kₙ))) k₀

variable {L : Layers B}

@[simp] theorem rounds_nil (x : B) : L.rounds [] x = x := rfl

@[simp] theorem rounds_cons (k : B) (ks : List B) (x : B) :
    L.rounds (k :: ks) x = L.rounds ks (L.round x k) := rfl

@[simp] theorem invRounds_nil (x : B) : L.invRounds [] x = x := rfl

@[simp] theorem invRounds_cons (k : B) (ks : List B) (x : B) :
    L.invRounds (k :: ks) x = L.invRounds ks (L.invRound x (L.invMix k)) := rfl

@[simp] theorem invRounds_concat (ks : List B) (k x : B) :
    L.invRounds (ks ++ [k]) x = L.invRound (L.invRounds ks x) (L.invMix k) := by
  simp [invRounds]

/-- One inverse round takes the substituted result of a round to the substituted
state before it. -/
theorem invRound_sub_round (hL : L.Lawful) (x k : B) :
    L.invRound (L.sub (L.round x k)) (L.invMix k) = L.sub x := by
  rw [invRound, hL.invSub_sub, round, hL.invMix_add, hL.add_add, hL.invMix_mix]

/-- One round takes the unsubstituted result of an inverse round to the
unsubstituted state before it. -/
theorem round_invSub_invRound (hL : L.Lawful) (x k : B) :
    L.round (L.invSub (L.invRound x (L.invMix k))) k = L.invSub x := by
  rw [round, hL.sub_invSub, invRound, ← hL.invMix_add, hL.mix_invMix, hL.add_add]

theorem invRounds_sub_rounds (hL : L.Lawful) (ks : List B) (x : B) :
    L.invRounds ks.reverse (L.sub (L.rounds ks x)) = L.sub x := by
  induction ks generalizing x with
  | nil => rfl
  | cons k ks ih =>
      rw [List.reverse_cons, invRounds_concat, rounds_cons, ih, invRound_sub_round hL]

theorem rounds_invSub_invRounds (hL : L.Lawful) (ks : List B) (x : B) :
    L.rounds ks (L.invSub (L.invRounds ks.reverse x)) = L.invSub x := by
  induction ks with
  | nil => rfl
  | cons k ks ih =>
      rw [List.reverse_cons, invRounds_concat, rounds_cons, round_invSub_invRound hL, ih]

/-- **Decryption undoes encryption**, for any keys and any number of rounds. -/
theorem decrypt_encrypt (hL : L.Lawful) (k₀ : B) (ks : List B) (kₙ x : B) :
    L.decrypt k₀ ks kₙ (L.encrypt k₀ ks kₙ x) = x := by
  rw [decrypt, encrypt, hL.add_add, invRounds_sub_rounds hL, hL.invSub_sub, hL.add_add]

/-- **Encryption undoes decryption.** -/
theorem encrypt_decrypt (hL : L.Lawful) (k₀ : B) (ks : List B) (kₙ x : B) :
    L.encrypt k₀ ks kₙ (L.decrypt k₀ ks kₙ x) = x := by
  rw [encrypt, decrypt, hL.add_add, rounds_invSub_invRounds hL, hL.sub_invSub, hL.add_add]

end Layers
end Rounds
