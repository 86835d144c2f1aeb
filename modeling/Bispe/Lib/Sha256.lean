import Mathlib.Algebra.Group.Nat.Defs
import Mathlib.Data.List.Basic
import Mathlib.Tactic.Common

/-!
# The SHA-256 standard

SHA-256 of FIPS 180-4 for messages of whole bytes of any length: padding to blocks
of 64 bytes, the message schedule as a recurrence, 64 rounds a block.

## Main definitions

* `Sha256.pad` — the padded message.
* `Sha256.schedule` — the words `W_t` of a block.
* `Sha256.compress` — the hash value after one more block.
* `Sha256.hash` — the digest.
-/

namespace Sha256

abbrev Byte := BitVec 8

abbrev Word := BitVec 32

/-! ## Functions and constants -/

def ch (x y z : Word) : Word := (x &&& y) ^^^ (~~~x &&& z)

def maj (x y z : Word) : Word := (x &&& y) ^^^ (x &&& z) ^^^ (y &&& z)

/-- `Σ₀`. -/
def bigSigma0 (x : Word) : Word := x.rotateRight 2 ^^^ x.rotateRight 13 ^^^ x.rotateRight 22

/-- `Σ₁`. -/
def bigSigma1 (x : Word) : Word := x.rotateRight 6 ^^^ x.rotateRight 11 ^^^ x.rotateRight 25

/-- `σ₀`. -/
def smallSigma0 (x : Word) : Word := x.rotateRight 7 ^^^ x.rotateRight 18 ^^^ x >>> 3

/-- `σ₁`. -/
def smallSigma1 (x : Word) : Word := x.rotateRight 17 ^^^ x.rotateRight 19 ^^^ x >>> 10

/-- The first 64 primes. -/
def primes : List ℕ :=
  [2, 3, 5, 7, 11, 13, 17, 19, 23, 29, 31, 37, 41, 43, 47, 53, 59, 61, 67, 71, 73, 79, 83, 89, 97,
   101, 103, 107, 109, 113, 127, 131, 137, 139, 149, 151, 157, 163, 167, 173, 179, 181, 191, 193,
   197, 199, 211, 223, 227, 229, 233, 239, 241, 251, 257, 263, 269, 271, 277, 281, 283, 293, 307,
   311]

/-- The constants `K_t`. -/
def constants : List Word :=
  [0x428a2f98, 0x71374491, 0xb5c0fbcf, 0xe9b5dba5, 0x3956c25b, 0x59f111f1, 0x923f82a4, 0xab1c5ed5,
   0xd807aa98, 0x12835b01, 0x243185be, 0x550c7dc3, 0x72be5d74, 0x80deb1fe, 0x9bdc06a7, 0xc19bf174,
   0xe49b69c1, 0xefbe4786, 0x0fc19dc6, 0x240ca1cc, 0x2de92c6f, 0x4a7484aa, 0x5cb0a9dc, 0x76f988da,
   0x983e5152, 0xa831c66d, 0xb00327c8, 0xbf597fc7, 0xc6e00bf3, 0xd5a79147, 0x06ca6351, 0x14292967,
   0x27b70a85, 0x2e1b2138, 0x4d2c6dfc, 0x53380d13, 0x650a7354, 0x766a0abb, 0x81c2c92e, 0x92722c85,
   0xa2bfe8a1, 0xa81a664b, 0xc24b8b70, 0xc76c51a3, 0xd192e819, 0xd6990624, 0xf40e3585, 0x106aa070,
   0x19a4c116, 0x1e376c08, 0x2748774c, 0x34b0bcb5, 0x391c0cb3, 0x4ed8aa4a, 0x5b9cca4f, 0x682e6ff3,
   0x748f82ee, 0x78a5636f, 0x84c87814, 0x8cc70208, 0x90befffa, 0xa4506ceb, 0xbef9a3f7, 0xc67178f2]

/-- The constants are the first 32 bits of the fractional parts of the cube roots of
the first 64 primes. -/
theorem constants_cubeRoots :
    List.Forall₂ (fun (p : ℕ) (k : Word) => ∃ r < 7,
      (r * 2 ^ 32 + k.toNat) ^ 3 ≤ p * 2 ^ 96 ∧ p * 2 ^ 96 < (r * 2 ^ 32 + k.toNat + 1) ^ 3)
      primes constants := by
  decide +kernel

/-- The working variables, and the hash value. -/
structure Vars where
  a : Word
  b : Word
  c : Word
  d : Word
  e : Word
  f : Word
  g : Word
  h : Word

def Vars.toList (v : Vars) : List Word := [v.a, v.b, v.c, v.d, v.e, v.f, v.g, v.h]

/-- The initial hash value. -/
def initial : Vars :=
  ⟨0x6a09e667, 0xbb67ae85, 0x3c6ef372, 0xa54ff53a, 0x510e527f, 0x9b05688c, 0x1f83d9ab, 0x5be0cd19⟩

/-- It is the first 32 bits of the fractional parts of the square roots of the first
eight primes. -/
theorem initial_squareRoots :
    List.Forall₂ (fun (p : ℕ) (k : Word) => ∃ r < 5,
      (r * 2 ^ 32 + k.toNat) ^ 2 ≤ p * 2 ^ 64 ∧ p * 2 ^ 64 < (r * 2 ^ 32 + k.toNat + 1) ^ 2)
      (primes.take 8) initial.toList := by
  decide +kernel

/-! ## Preprocessing -/

/-- The number of zero bytes in the padding of `n` bytes. -/
def zeros (n : ℕ) : ℕ := (119 - n % 64) % 64

/-- A number as eight bytes, the most significant one first. -/
def bigEndian64 (n : ℕ) : List Byte :=
  (List.range 8).map fun i => BitVec.ofNat 8 (n / 256 ^ (7 - i))

/-- The message, a one bit, zero bits, and the length in bits. -/
def pad (message : List Byte) : List Byte :=
  message ++ 0x80 :: List.replicate (zeros message.length) 0 ++ bigEndian64 (8 * message.length)

/-- The blocks of 64 bytes. -/
def blocks (l : List Byte) : List (List Byte) :=
  (List.range (l.length / 64)).map fun i => (l.drop (64 * i)).take 64

/-! ## The hash computation -/

/-- Word `t` of a block, the most significant byte first. -/
def wordOf (block : List Byte) (t : ℕ) : Word :=
  block.getD (4 * t) 0 ++ block.getD (4 * t + 1) 0 ++ block.getD (4 * t + 2) 0 ++
    block.getD (4 * t + 3) 0

/-- The message schedule of the words `M`. -/
def schedule (M : ℕ → Word) (t : ℕ) : Word :=
  if t < 16 then M t
  else smallSigma1 (schedule M (t - 2)) + schedule M (t - 7) + smallSigma0 (schedule M (t - 15)) +
    schedule M (t - 16)

/-- One round. -/
def round (W : ℕ → Word) (v : Vars) (t : ℕ) : Vars :=
  let T₁ := v.h + bigSigma1 v.e + ch v.e v.f v.g + constants.getD t 0 + W t
  let T₂ := bigSigma0 v.a + maj v.a v.b v.c
  ⟨T₁ + T₂, v.a, v.b, v.c, v.d + T₁, v.e, v.f, v.g⟩

/-- The hash value after one more block. -/
def compress (H : Vars) (block : List Byte) : Vars :=
  let v := (List.range 64).foldl (round (schedule (wordOf block))) H
  ⟨v.a + H.a, v.b + H.b, v.c + H.c, v.d + H.d, v.e + H.e, v.f + H.f, v.g + H.g, v.h + H.h⟩

/-- The bytes of a word, the most significant one first. -/
def wordBytes (x : Word) : List Byte :=
  [x.extractLsb' 24 8, x.extractLsb' 16 8, x.extractLsb' 8 8, x.extractLsb' 0 8]

/-- The digest. -/
def hash (message : List Byte) : List Byte :=
  ((blocks (pad message)).foldl compress initial).toList.flatMap wordBytes

variable {M : ℕ → Word}

/-- The bytes of a word of a block. -/
theorem extractLsb'_wordOf (block : List Byte) (t : ℕ) {r : ℕ} (hr : r < 4) :
    (wordOf block t).extractLsb' (8 * (3 - r)) 8 = block.getD (4 * t + r) 0 := by
  obtain rfl | rfl | rfl | rfl : r = 0 ∨ r = 1 ∨ r = 2 ∨ r = 3 := by omega
  all_goals
    apply BitVec.eq_of_getLsbD_eq
    intro i hi
    simp only [wordOf, BitVec.getLsbD_extractLsb', BitVec.getLsbD_append]
    grind

theorem schedule_of_lt {t : ℕ} (h : t < 16) : schedule M t = M t := by
  rw [schedule, if_pos h]

theorem schedule_of_ge {t : ℕ} (h : 16 ≤ t) :
    schedule M t = smallSigma1 (schedule M (t - 2)) + schedule M (t - 7) +
      smallSigma0 (schedule M (t - 15)) + schedule M (t - 16) := by
  rw [schedule, if_neg (by omega)]

theorem schedule_add (t : ℕ) :
    schedule M (t + 16) = smallSigma1 (schedule M (t + 14)) + schedule M (t + 9) +
      smallSigma0 (schedule M (t + 1)) + schedule M t := schedule_of_ge (by omega)

/-- A sequence that starts with `M` and satisfies the recurrence is the schedule. -/
theorem eq_schedule {W : ℕ → Word} {n : ℕ} (hfirst : ∀ t < 16, W t = M t)
    (hnext : ∀ t, 16 ≤ t → t < n → W t = smallSigma1 (W (t - 2)) + W (t - 7) +
      smallSigma0 (W (t - 15)) + W (t - 16)) {t : ℕ} (ht : t < n) : W t = schedule M t := by
  induction t using Nat.strongRecOn with
  | ind t ih =>
      by_cases h : t < 16
      · rw [hfirst t h, schedule_of_lt h]
      · rw [hnext t (by omega) ht, schedule_of_ge (by omega), ih _ (by omega) (by omega),
          ih _ (by omega) (by omega), ih _ (by omega) (by omega), ih _ (by omega) (by omega)]

/-- **The schedule runs backwards**: 16 words of it behind one another determine the
words before them. -/
theorem schedule_backwards {M' : ℕ → Word} {t : ℕ}
    (h : ∀ i, t ≤ i → i < t + 16 → schedule M i = schedule M' i) {i : ℕ} (hi : i < t + 16) :
    schedule M i = schedule M' i := by
  induction t with
  | zero => exact h i (by omega) hi
  | succ t ih =>
      have hfirst : schedule M t = schedule M' t := by
        have hlast := h (t + 16) (by omega) (by omega)
        rw [schedule_add, schedule_add, h (t + 14) (by omega) (by omega),
          h (t + 9) (by omega) (by omega), h (t + 1) (by omega) (by omega)] at hlast
        exact (BitVec.add_right_inj _).mp hlast
      by_cases hlt : i < t + 16
      · apply ih
        · intro j hj hj'
          by_cases hjt : j = t
          · rw [hjt, hfirst]
          · exact h j (by omega) (by omega)
        · exact hlt
      · exact h i (by omega) hi

/-- A message shorter than 56 bytes fills one block. -/
theorem hash_of_lt {message : List Byte} (h : message.length < 56) :
    hash message = (compress initial (pad message)).toList.flatMap wordBytes := by
  have hlen : (pad message).length = 64 := by
    simp only [pad, zeros, bigEndian64, List.length_append, List.length_cons,
      List.length_replicate, List.length_map, List.length_range]
    omega
  have hblocks : blocks (pad message) = [pad message] := by
    rw [blocks, hlen]
    simp [List.take_of_length_le, hlen]
  rw [hash, hblocks]
  rfl

end Sha256
