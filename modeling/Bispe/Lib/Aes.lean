import Bispe.Lib.Blocks
import Bispe.Lib.Rounds
import Mathlib.Data.Fin.Basic
import Mathlib.Algebra.Group.Fin.Basic
import Mathlib.Data.Fin.VecNotation

/-!
# The AES instructions

AES on 128-bit registers: the round layers over the field of 256 elements, the
six AES-NI instructions, and the key expansion for 256-bit keys.  A register is
four dwords; dword `c` is column `c` of the AES state, and its byte `r`, from the
least significant one, is the byte in row `r`.

## Main definitions

* `Aes.gmul`, `Aes.sbox`, `Aes.invSbox` — the field and the substitution.
* `Aes.mixColumns`, `Aes.shiftRows`, `Aes.subBytes` and their inverses.
* `Aes.aesenc`, `Aes.aesenclast`, `Aes.aesdec`, `Aes.aesdeclast`, `Aes.aesimc`,
  `Aes.aeskeygenassist` — the instructions.
* `Aes.layers` — AES as an iterated round cipher.
* `Aes.roundKey` — the round keys of a 256-bit key.
-/

namespace Aes

abbrev Byte := BitVec 8

abbrev Word := BitVec 32

/-- A 128-bit register. -/
abbrev Block := Fin 4 → Word

/-- The AES state: columns of four bytes. -/
abbrev State := Fin 4 → Fin 4 → Byte

/-! ## The field -/

/-- Multiply by `x` modulo `x⁸ + x⁴ + x³ + x + 1`. -/
def xtime (b : Byte) : Byte := (b <<< 1) ^^^ (if b.msb then 0x1b else 0)

/-- Add the multiples of `b` selected by the low `n` bits of `c`. -/
def mulBits : ℕ → ℕ → Byte → Byte
  | 0, _, _ => 0
  | n + 1, c, b => (if c % 2 = 1 then b else 0) ^^^ mulBits n (c / 2) (xtime b)

/-- Multiplication in the field, with a factor given as a number below 16. -/
def gmul (c : ℕ) (b : Byte) : Byte := mulBits 4 c b

theorem xtime_xor (a b : Byte) : xtime (a ^^^ b) = xtime a ^^^ xtime b := by
  have hred : (if (a ^^^ b).msb then (0x1b : Byte) else 0) =
      (if a.msb then 0x1b else 0) ^^^ (if b.msb then 0x1b else 0) := by
    rw [BitVec.msb_xor]
    cases a.msb <;> cases b.msb <;> rfl
  rw [xtime, xtime, xtime, hred, BitVec.shiftLeft_xor_distrib]
  ac_rfl

theorem mulBits_xor (n c : ℕ) (a b : Byte) :
    mulBits n c (a ^^^ b) = mulBits n c a ^^^ mulBits n c b := by
  induction n generalizing c a b with
  | zero => simp [mulBits]
  | succ n ih =>
      simp only [mulBits, xtime_xor, ih]
      by_cases hc : c % 2 = 1
      · simp only [hc, if_true]
        ac_rfl
      · simp [hc]

theorem gmul_xor (c : ℕ) (a b : Byte) : gmul c (a ^^^ b) = gmul c a ^^^ gmul c b :=
  mulBits_xor 4 c a b

/-! ## The substitution -/

/-- Entry `b` of a table of 256 bytes, given by rows of 16. -/
def entry (rows : List ℕ) (b : Byte) : Byte :=
  BitVec.ofNat 8 (rows.getD (b.toNat / 16) 0 >>> (8 * (15 - b.toNat % 16)))

/-- The substitution box. -/
def sboxRows : List ℕ :=
  [0x637c777bf26b6fc53001672bfed7ab76,
   0xca82c97dfa5947f0add4a2af9ca472c0,
   0xb7fd9326363ff7cc34a5e5f171d83115,
   0x04c723c31896059a071280e2eb27b275,
   0x09832c1a1b6e5aa0523bd6b329e32f84,
   0x53d100ed20fcb15b6acbbe394a4c58cf,
   0xd0efaafb434d338545f9027f503c9fa8,
   0x51a3408f929d38f5bcb6da2110fff3d2,
   0xcd0c13ec5f974417c4a77e3d645d1973,
   0x60814fdc222a908846eeb814de5e0bdb,
   0xe0323a0a4906245cc2d3ac629195e479,
   0xe7c8376d8dd54ea96c56f4ea657aae08,
   0xba78252e1ca6b4c6e8dd741f4bbd8b8a,
   0x703eb5664803f60e613557b986c11d9e,
   0xe1f8981169d98e949b1e87e9ce5528df,
   0x8ca1890dbfe6426841992d0fb054bb16]

/-- The inverse substitution box. -/
def invSboxRows : List ℕ :=
  [0x52096ad53036a538bf40a39e81f3d7fb,
   0x7ce339829b2fff87348e4344c4dee9cb,
   0x547b9432a6c2233dee4c950b42fac34e,
   0x082ea16628d924b2765ba2496d8bd125,
   0x72f8f66486689816d4a45ccc5d65b692,
   0x6c704850fdedb9da5e154657a78d9d84,
   0x90d8ab008cbcd30af7e45805b8b34506,
   0xd02c1e8fca3f0f02c1afbd0301138a6b,
   0x3a9111414f67dcea97f2cfcef0b4e673,
   0x96ac7422e7ad3585e2f937e81c75df6e,
   0x47f11a711d29c5896fb7620eaa18be1b,
   0xfc563e4bc6d279209adbc0fe78cd5af4,
   0x1fdda8338807c731b11210592780ec5f,
   0x60517fa919b54a0d2de57a9f93c99cef,
   0xa0e03b4dae2af5b0c8ebbb3c83539961,
   0x172b047eba77d626e169146355210c7d]

def sbox (b : Byte) : Byte := entry sboxRows b

def invSbox (b : Byte) : Byte := entry invSboxRows b

theorem invSbox_sbox (b : Byte) : invSbox (sbox b) = b := by
  revert b
  decide +kernel

theorem sbox_invSbox (b : Byte) : sbox (invSbox b) = b := by
  revert b
  decide +kernel

/-! ## Bytes of a register -/

/-- Byte `r` of a dword, from the least significant one. -/
def byteAt (w : Word) (r : Fin 4) : Byte := w.extractLsb' (8 * r) 8

/-- The dword with these bytes. -/
def ofBytes (b : Fin 4 → Byte) : Word := b 3 ++ b 2 ++ b 1 ++ b 0

/-- The state held in a register. -/
def bytes (x : Block) : State := fun c r => byteAt (x c) r

/-- The register that holds a state. -/
def ofState (s : State) : Block := fun c => ofBytes (s c)

/-- `vpxor`, and the key addition of every round. -/
def addKey (x k : Block) : Block := fun c => x c ^^^ k c

theorem byteAt_xor (v w : Word) (r : Fin 4) : byteAt (v ^^^ w) r = byteAt v r ^^^ byteAt w r := by
  simp [byteAt, BitVec.extractLsb'_xor]

theorem byteAt_ofBytes (b : Fin 4 → Byte) (r : Fin 4) : byteAt (ofBytes b) r = b r := by
  match r with
  | 0 => exact BitVec.extractLsb'_append_eq_right
  | 1 =>
      calc byteAt (ofBytes b) 1 = (b 3 ++ b 2 ++ b 1).extractLsb' 0 8 :=
            BitVec.extractLsb'_append_eq_of_le (by decide)
        _ = b 1 := BitVec.extractLsb'_append_eq_right
  | 2 =>
      calc byteAt (ofBytes b) 2 = (b 3 ++ b 2 ++ b 1).extractLsb' 8 8 :=
            BitVec.extractLsb'_append_eq_of_le (by decide)
        _ = (b 3 ++ b 2).extractLsb' 0 8 := BitVec.extractLsb'_append_eq_of_le (by decide)
        _ = b 2 := BitVec.extractLsb'_append_eq_right
  | 3 =>
      calc byteAt (ofBytes b) 3 = (b 3 ++ b 2 ++ b 1).extractLsb' 16 8 :=
            BitVec.extractLsb'_append_eq_of_le (by decide)
        _ = (b 3 ++ b 2).extractLsb' 8 8 := BitVec.extractLsb'_append_eq_of_le (by decide)
        _ = b 3 := BitVec.extractLsb'_append_eq_left

theorem ofBytes_byteAt (w : Word) : ofBytes (byteAt w) = w := by
  apply BitVec.eq_of_getLsbD_eq
  intro i hi
  simp only [byteAt, ofBytes, BitVec.getLsbD_append, BitVec.getLsbD_extractLsb']
  grind

@[simp] theorem bytes_ofState (s : State) : bytes (ofState s) = s := by
  funext c r
  exact byteAt_ofBytes (s c) r

@[simp] theorem ofState_bytes (x : Block) : ofState (bytes x) = x := by
  funext c
  exact ofBytes_byteAt (x c)

theorem bytes_addKey (x k : Block) (c r : Fin 4) :
    bytes (addKey x k) c r = bytes x c r ^^^ bytes k c r := byteAt_xor ..

theorem ofState_xor (s t : State) :
    ofState (fun c r => s c r ^^^ t c r) = addKey (ofState s) (ofState t) := by
  rw [← ofState_bytes (addKey (ofState s) (ofState t))]
  congr 1
  funext c r
  rw [bytes_addKey, bytes_ofState, bytes_ofState]

/-! ## The layers -/

/-- `SubBytes`. -/
def subBytes (s : State) : State := fun c r => sbox (s c r)

/-- `InvSubBytes`. -/
def invSubBytes (s : State) : State := fun c r => invSbox (s c r)

/-- `ShiftRows`: row `r` moves by `r` columns. -/
def shiftRows (s : State) : State := fun c r => s (c + r) r

/-- `InvShiftRows`. -/
def invShiftRows (s : State) : State := fun c r => s (c - r) r

/-- Multiply a column by the circulant matrix with first row `m`. -/
def circulant (m : Fin 4 → ℕ) (a : Fin 4 → Byte) : Fin 4 → Byte := fun r =>
  gmul (m 0) (a r) ^^^ gmul (m 1) (a (r + 1)) ^^^ gmul (m 2) (a (r + 2)) ^^^ gmul (m 3) (a (r + 3))

/-- The matrix of `MixColumns`. -/
def mixRow : Fin 4 → ℕ := ![2, 3, 1, 1]

/-- The matrix of `InvMixColumns`. -/
def invMixRow : Fin 4 → ℕ := ![14, 11, 13, 9]

/-- `MixColumns`. -/
def mixColumns (s : State) : State := fun c => circulant mixRow (s c)

/-- `InvMixColumns`. -/
def invMixColumns (s : State) : State := fun c => circulant invMixRow (s c)

theorem invSubBytes_shift (s : State) :
    invSubBytes (invShiftRows (subBytes (shiftRows s))) = s := by
  funext c r
  simp [invSubBytes, invShiftRows, subBytes, shiftRows, invSbox_sbox]

theorem subBytes_shift (s : State) :
    subBytes (shiftRows (invSubBytes (invShiftRows s))) = s := by
  funext c r
  simp [invSubBytes, invShiftRows, subBytes, shiftRows, sbox_invSbox]

theorem circulant_xor (m : Fin 4 → ℕ) (a b : Fin 4 → Byte) (r : Fin 4) :
    circulant m (fun i => a i ^^^ b i) r = circulant m a r ^^^ circulant m b r := by
  simp only [circulant, gmul_xor]
  ac_rfl

/-- Entry `k` of the first row of a product of circulant matrices, applied to a byte. -/
def convolve (n m : Fin 4 → ℕ) (k : Fin 4) (b : Byte) : Byte :=
  gmul (n 0) (gmul (m k) b) ^^^ gmul (n 1) (gmul (m (k - 1)) b) ^^^
    gmul (n 2) (gmul (m (k - 2)) b) ^^^ gmul (n 3) (gmul (m (k - 3)) b)

/-- The product of two circulant matrices is circulant. -/
theorem circulant_circulant (n m : Fin 4 → ℕ) (a : Fin 4 → Byte) (r : Fin 4) :
    circulant n (circulant m a) r = convolve n m 0 (a r) ^^^ convolve n m 1 (a (r + 1)) ^^^
      convolve n m 2 (a (r + 2)) ^^^ convolve n m 3 (a (r + 3)) := by
  have h (i j : Fin 4) : r + i + j = r + (i + j) := add_assoc r i j
  simp only [circulant, convolve, gmul_xor, h]
  simp only [Fin.reduceAdd, Fin.reduceSub, add_zero]
  ac_rfl

theorem circulant_inverse {n m : Fin 4 → ℕ}
    (h : ∀ b, convolve n m 0 b = b ∧ convolve n m 1 b = 0 ∧ convolve n m 2 b = 0 ∧
      convolve n m 3 b = 0) (a : Fin 4 → Byte) : circulant n (circulant m a) = a := by
  funext r
  rw [circulant_circulant, (h _).1, (h _).2.1, (h _).2.2.1, (h _).2.2.2]
  simp

theorem xor_left_comm (a b c : Byte) : a ^^^ (b ^^^ c) = b ^^^ (a ^^^ c) := by ac_rfl

@[simp] theorem xor_cancel_left (a b : Byte) : a ^^^ (a ^^^ b) = b := by
  rw [← BitVec.xor_assoc, BitVec.xor_self, BitVec.zero_xor]

-- no field reduction is needed: the factors stay below degree eight, and their
-- products cancel as polynomials
theorem convolve_invMix_mix (b : Byte) :
    convolve invMixRow mixRow 0 b = b ∧ convolve invMixRow mixRow 1 b = 0 ∧
      convolve invMixRow mixRow 2 b = 0 ∧ convolve invMixRow mixRow 3 b = 0 := by
  simp [convolve, gmul, mulBits, mixRow, invMixRow, xtime_xor, BitVec.xor_assoc, BitVec.xor_comm,
    xor_left_comm]

theorem convolve_mix_invMix (b : Byte) :
    convolve mixRow invMixRow 0 b = b ∧ convolve mixRow invMixRow 1 b = 0 ∧
      convolve mixRow invMixRow 2 b = 0 ∧ convolve mixRow invMixRow 3 b = 0 := by
  simp [convolve, gmul, mulBits, mixRow, invMixRow, xtime_xor, BitVec.xor_assoc, BitVec.xor_comm,
    xor_left_comm]

theorem invMixColumns_mixColumns (s : State) : invMixColumns (mixColumns s) = s := by
  funext c
  exact circulant_inverse convolve_invMix_mix (s c)

theorem mixColumns_invMixColumns (s : State) : mixColumns (invMixColumns s) = s := by
  funext c
  exact circulant_inverse convolve_mix_invMix (s c)

theorem invMixColumns_xor (s t : State) :
    invMixColumns (fun c r => s c r ^^^ t c r) =
      fun c r => invMixColumns s c r ^^^ invMixColumns t c r := by
  funext c r
  exact circulant_xor invMixRow (s c) (t c) r

/-! ## The instructions -/

/-- `AESENC`. -/
def aesenc (x k : Block) : Block :=
  addKey (ofState (mixColumns (subBytes (shiftRows (bytes x))))) k

/-- `AESENCLAST`. -/
def aesenclast (x k : Block) : Block := addKey (ofState (subBytes (shiftRows (bytes x)))) k

/-- `AESDEC`. -/
def aesdec (x k : Block) : Block :=
  addKey (ofState (invMixColumns (invSubBytes (invShiftRows (bytes x))))) k

/-- `AESDECLAST`. -/
def aesdeclast (x k : Block) : Block :=
  addKey (ofState (invSubBytes (invShiftRows (bytes x)))) k

/-- `AESIMC`. -/
def aesimc (x : Block) : Block := ofState (invMixColumns (bytes x))

/-- `SubWord`. -/
def subWord (w : Word) : Word := ofBytes fun r => sbox (byteAt w r)

/-- `RotWord`. -/
def rotWord (w : Word) : Word := w.rotateRight 8

/-- `AESKEYGENASSIST` with the round constant `imm`. -/
def aeskeygenassist (imm : Byte) (x : Block) : Block :=
  ![subWord (x 1), rotWord (subWord (x 1)) ^^^ imm.setWidth 32,
    subWord (x 3), rotWord (subWord (x 3)) ^^^ imm.setWidth 32]

/-- AES as an iterated round cipher. -/
def layers : Rounds.Layers Block where
  add := addKey
  sub x := ofState (subBytes (shiftRows (bytes x)))
  invSub x := ofState (invSubBytes (invShiftRows (bytes x)))
  mix x := ofState (mixColumns (bytes x))
  invMix := aesimc

theorem addKey_addKey (x k : Block) : addKey (addKey x k) k = x := by
  funext c
  change x c ^^^ k c ^^^ k c = x c
  rw [BitVec.xor_assoc, BitVec.xor_self, BitVec.xor_zero]

theorem aesimc_addKey (x k : Block) : aesimc (addKey x k) = addKey (aesimc x) (aesimc k) := by
  have h : bytes (addKey x k) = fun c r => bytes x c r ^^^ bytes k c r := by
    funext c r
    exact bytes_addKey x k c r
  rw [aesimc, h, invMixColumns_xor, ofState_xor, aesimc, aesimc]

theorem layers_lawful : layers.Lawful where
  add_add := addKey_addKey
  invSub_sub x := by simp [layers, invSubBytes_shift]
  sub_invSub x := by simp [layers, subBytes_shift]
  invMix_mix x := by simp [layers, aesimc, invMixColumns_mixColumns]
  mix_invMix x := by simp [layers, aesimc, mixColumns_invMixColumns]
  invMix_add := aesimc_addKey

theorem aesenc_eq_round (x k : Block) : aesenc x k = layers.round x k := by
  simp [aesenc, layers, Rounds.Layers.round]

theorem aesdec_eq_invRound (x k : Block) : aesdec x k = layers.invRound x k := by
  simp [aesdec, layers, Rounds.Layers.invRound, aesimc]

/-! ## The expansion of a 256-bit key -/

/-- The round constants. -/
def rcon (j : ℕ) : Byte := xtime^[j - 1] 1

/-- What is added to the word eight places before, from the word just before. -/
def temp (i : ℕ) (t : Word) : Word :=
  if i % 8 = 0 then subWord (rotWord t) ^^^ (rcon (i / 8)).setWidth 32
  else if i % 8 = 4 then subWord t
  else t

/-- The words of the expanded key. -/
def expanded (key : Fin 8 → Word) (i : ℕ) : Word :=
  if h : i < 8 then key ⟨i, h⟩
  else expanded key (i - 8) ^^^ temp i (expanded key (i - 1))

/-- The round keys: four words each. -/
def roundKey (key : Fin 8 → Word) (n : ℕ) : Block := fun c => expanded key (4 * n + c)

theorem eq_of_byteAt {v w : Word} (h : ∀ r, byteAt v r = byteAt w r) : v = w := by
  rw [← ofBytes_byteAt v, ← ofBytes_byteAt w, funext h]

theorem byteAt_rotWord (w : Word) (r : Fin 4) : byteAt (rotWord w) r = byteAt w (r + 1) := by
  apply BitVec.eq_of_getLsbD_eq
  intro i hi
  simp only [byteAt, rotWord, BitVec.getLsbD_extractLsb', BitVec.getLsbD_rotateRight, hi]
  match r with
  | 0 => simp [show i < 24 by omega]
  | 1 =>
      have h : 8 + (8 + i) = 16 + i := by omega
      simp [show 8 + i < 24 by omega, h]
  | 2 =>
      have h : 8 + (16 + i) = 24 + i := by omega
      simp [show 16 + i < 24 by omega, h]
  | 3 => simp [show ¬ 24 + i < 24 by omega, show 24 + i < 32 by omega]

theorem subWord_rotWord (w : Word) : subWord (rotWord w) = rotWord (subWord w) := by
  apply eq_of_byteAt
  intro r
  rw [subWord, byteAt_ofBytes, byteAt_rotWord, byteAt_rotWord, subWord, byteAt_ofBytes]

theorem expanded_add_eight (key : Fin 8 → Word) (i : ℕ) :
    expanded key (i + 8) = expanded key i ^^^ temp (i + 8) (expanded key (i + 7)) := by
  rw [expanded, dif_neg (by omega)]
  rfl

/-- A round key starts from the last word of the key before it. -/
theorem roundKey_zero (key : Fin 8 → Word) (n : ℕ) :
    roundKey key (n + 2) 0 = roundKey key n 0 ^^^ temp (4 * n + 8) (roundKey key (n + 1) 3) :=
  expanded_add_eight key (4 * n)

/-- Within a round key each word adds the word before it. -/
theorem roundKey_succ (key : Fin 8 → Word) (n : ℕ) (c : Fin 3) :
    roundKey key (n + 2) c.succ = roundKey key n c.succ ^^^ roundKey key (n + 2) c.castSucc := by
  have hi : 4 * (n + 2) + (c.succ : ℕ) = 4 * n + c.succ + 8 := by omega
  have hp : 4 * (n + 2) + (c.castSucc : ℕ) = 4 * n + c.succ + 7 := by
    rw [Fin.val_castSucc, Fin.val_succ]
    omega
  have h₀ : (4 * n + (c.succ : ℕ) + 8) % 8 ≠ 0 := by rw [Fin.val_succ]; omega
  have h₄ : (4 * n + (c.succ : ℕ) + 8) % 8 ≠ 4 := by rw [Fin.val_succ]; omega
  rw [roundKey, roundKey, roundKey, hi, hp, expanded_add_eight, temp, if_neg h₀, if_neg h₄]

end Aes
