import Bispe.Lib.Aes

/-!
# The AES-256 standard

AES-256 in the terms of FIPS-197: bytes as elements of the field of 256 elements,
the state as an array `s[r, c]` with `in[r + 4c]` at row `r` and column `c`, and the
key expansion on words of four bytes.  The instructions and the key expansion of
`Bispe.Lib.Aes`, which work on dwords, are shown to compute it.

## Main definitions

* `Fips197.mul`, `Fips197.sbox` — the field and the S-box.
* `Fips197.keyExpansion` — the words of the expanded key.
* `Fips197.cipher` — the encryption of one block.
-/

namespace Fips197

open Aes (Byte Word Block xtime mulBits)

/-- The number of 32-bit words of the key. -/
def Nk : ℕ := 8

/-- The number of rounds. -/
def Nr : ℕ := 14

/-- The state: `s r c` is the byte in row `r` and column `c`. -/
abbrev State := Fin 4 → Fin 4 → Byte

/-! ## The field and the S-box -/

/-- Multiplication modulo `x⁸ + x⁴ + x³ + x + 1`. -/
def mul (a b : Byte) : Byte := mulBits 8 a.toNat b

/-- The affine map of the S-box: bit `i` of the result adds the bits `i`, `i + 4`,
`i + 5`, `i + 6`, `i + 7` modulo 8 of `b` and bit `i` of `63`. -/
def affine (b : Byte) : Byte :=
  b ^^^ b.rotateRight 4 ^^^ b.rotateRight 5 ^^^ b.rotateRight 6 ^^^ b.rotateRight 7 ^^^ 0x63

/-- The S-box, by its table. -/
def sbox (b : Byte) : Byte := Aes.sbox b

/-- The table holds the affine image of the inverse of each byte, with 0 for the
inverse of 0. -/
theorem sbox_eq_affine (b : Byte) :
    ∃ b', mul b b' = (if b = 0 then 0 else 1) ∧ (b = 0 → b' = 0) ∧ sbox b = affine b' := by
  let unaffine (y : Byte) : Byte :=
    y.rotateRight 2 ^^^ y.rotateRight 5 ^^^ y.rotateRight 7 ^^^ 0x05
  refine ⟨unaffine (sbox b), ?_⟩
  revert b
  decide +kernel

theorem mul_two (b : Byte) : mul 2 b = Aes.gmul 2 b := by
  simp [mul, Aes.gmul, mulBits]

theorem mul_three (b : Byte) : mul 3 b = Aes.gmul 3 b := by
  simp [mul, Aes.gmul, mulBits]

theorem gmul_one (b : Byte) : Aes.gmul 1 b = b := by
  simp [Aes.gmul, mulBits]

/-! ## The cipher -/

def subBytes (s : State) : State := fun r c => sbox (s r c)

def shiftRows (s : State) : State := fun r c => s r (c + r)

def mixColumns (s : State) : State := fun r c =>
  match r with
  | 0 => mul 2 (s 0 c) ^^^ mul 3 (s 1 c) ^^^ s 2 c ^^^ s 3 c
  | 1 => s 0 c ^^^ mul 2 (s 1 c) ^^^ mul 3 (s 2 c) ^^^ s 3 c
  | 2 => s 0 c ^^^ s 1 c ^^^ mul 2 (s 2 c) ^^^ mul 3 (s 3 c)
  | 3 => mul 3 (s 0 c) ^^^ s 1 c ^^^ s 2 c ^^^ mul 2 (s 3 c)

/-- Column `c` of the state and word `c` of the round key, byte by byte. -/
def addRoundKey (s : State) (w : Fin 4 → Fin 4 → Byte) : State := fun r c => s r c ^^^ w c r

/-- The words `4n` to `4n + 3` of the expanded key. -/
def roundKey (w : ℕ → Fin 4 → Byte) (n : ℕ) : Fin 4 → Fin 4 → Byte := fun c => w (4 * n + c)

/-- Encryption under the words `w` of the expanded key. -/
def cipher (w : ℕ → Fin 4 → Byte) (input : Fin 16 → Byte) : Fin 16 → Byte :=
  let start : State := fun r c => input (Fin.ofNat 16 ((r : ℕ) + 4 * (c : ℕ)))
  let first := addRoundKey start (roundKey w 0)
  let inner := (List.range' 1 (Nr - 1)).foldl (fun s n =>
    addRoundKey (mixColumns (shiftRows (subBytes s))) (roundKey w n)) first
  let last := addRoundKey (shiftRows (subBytes inner)) (roundKey w Nr)
  fun i => last (Fin.ofNat 4 i) (Fin.ofNat 4 ((i : ℕ) / 4))

/-! ## The key expansion -/

def subWord (a : Fin 4 → Byte) : Fin 4 → Byte := fun r => sbox (a r)

/-- `[a₀, a₁, a₂, a₃]` becomes `[a₁, a₂, a₃, a₀]`. -/
def rotWord (a : Fin 4 → Byte) : Fin 4 → Byte := fun r => a (r + 1)

/-- `[x ^ (j - 1), 0, 0, 0]`. -/
def rcon (j : ℕ) : Fin 4 → Byte := fun r => if r = 0 then xtime^[j - 1] 1 else 0

/-- What word `i` adds to the word `Nk` places before it, from the word just before. -/
def temp (i : ℕ) (t : Fin 4 → Byte) : Fin 4 → Byte :=
  if i % Nk = 0 then fun r => subWord (rotWord t) r ^^^ rcon (i / Nk) r
  else if Nk > 6 ∧ i % Nk = 4 then subWord t
  else t

/-- Word `i` of the expanded key. -/
def keyExpansion (key : Fin 32 → Byte) (i : ℕ) : Fin 4 → Byte :=
  if i < Nk then fun r => key (Fin.ofNat 32 (4 * i + (r : ℕ)))
  else fun r => keyExpansion key (i - Nk) r ^^^ temp i (keyExpansion key (i - 1)) r
termination_by i
decreasing_by all_goals have : Nk = 8 := rfl; omega

/-! ## The instructions compute the standard -/

/-- The dwords of a key given by bytes. -/
def keyWords (key : Fin 32 → Byte) : Fin 8 → Word := fun j =>
  Aes.ofBytes fun r => key (Fin.ofNat 32 (4 * (j : ℕ) + (r : ℕ)))

theorem byteAt_subWord (w : Word) (r : Fin 4) :
    Aes.byteAt (Aes.subWord w) r = subWord (Aes.byteAt w) r := by
  rw [Aes.subWord, Aes.byteAt_ofBytes, subWord, sbox]

theorem byteAt_rcon (j : ℕ) (r : Fin 4) :
    Aes.byteAt ((Aes.rcon j).setWidth 32) r = rcon j r := by
  have h : (Aes.rcon j).setWidth 32 = Aes.ofBytes (rcon j) := by
    apply BitVec.eq_of_getLsbD_eq
    intro i hi
    simp only [Aes.ofBytes, rcon, Aes.rcon, BitVec.getLsbD_append, BitVec.getLsbD_setWidth]
    simp
    grind
  rw [h, Aes.byteAt_ofBytes]

/-- What one word of the expansion adds, byte by byte. -/
theorem byteAt_temp (i : ℕ) (w : Word) (r : Fin 4) :
    Aes.byteAt (Aes.temp i w) r = temp i (Aes.byteAt w) r := by
  have hrot : Aes.byteAt (Aes.rotWord w) = rotWord (Aes.byteAt w) :=
    funext fun r => Aes.byteAt_rotWord w r
  by_cases h0 : i % 8 = 0
  · simp [Aes.temp, temp, Nk, h0, Aes.byteAt_xor, byteAt_subWord, byteAt_rcon, hrot]
  · by_cases h4 : i % 8 = 4
    · simp [Aes.temp, temp, Nk, h4, byteAt_subWord]
    · simp [Aes.temp, temp, Nk, h0, h4]

/-- **The key expansion** on dwords is the one of the standard. -/
theorem byteAt_expanded (key : Fin 32 → Byte) (i : ℕ) (r : Fin 4) :
    Aes.byteAt (Aes.expanded (keyWords key) i) r = keyExpansion key i r := by
  induction i using Nat.strong_induction_on generalizing r with
  | _ i ih =>
      rw [Aes.expanded, keyExpansion, Nk]
      by_cases h : i < 8
      · rw [dif_pos h, if_pos h, keyWords, Aes.byteAt_ofBytes]
      · have hprev : Aes.byteAt (Aes.expanded (keyWords key) (i - 1)) = keyExpansion key (i - 1) :=
          funext fun r => ih (i - 1) (by omega) r
        rw [dif_neg h, if_neg h, Aes.byteAt_xor, ih (i - 8) (by omega), byteAt_temp, hprev]

/-- A register as a state of the standard. -/
def stateOf (x : Block) : State := fun r c => Aes.byteAt (x c) r

theorem stateOf_addKey (x k : Block) :
    stateOf (Aes.addKey x k) = addRoundKey (stateOf x) fun c r => Aes.byteAt (k c) r := by
  funext r c
  exact Aes.byteAt_xor ..

theorem stateOf_sub (x : Block) :
    stateOf (Aes.layers.sub x) = shiftRows (subBytes (stateOf x)) := by
  funext r c
  have h := congrFun (congrFun (Aes.bytes_ofState (Aes.subBytes (Aes.shiftRows (Aes.bytes x)))) c) r
  exact h

theorem stateOf_mix (x : Block) : stateOf (Aes.layers.mix x) = mixColumns (stateOf x) := by
  funext r c
  have h := congrFun (congrFun (Aes.bytes_ofState (Aes.mixColumns (Aes.bytes x))) c) r
  refine h.trans ?_
  match r with
  | 0 =>
      simp only [mixColumns, mul_two, mul_three]
      simp [Aes.mixColumns, Aes.circulant, Aes.mixRow, stateOf, Aes.bytes, gmul_one]
  | 1 | 2 | 3 =>
      simp only [mixColumns, mul_two, mul_three]
      simp [Aes.mixColumns, Aes.circulant, Aes.mixRow, stateOf, Aes.bytes, gmul_one]
      ac_rfl

theorem stateOf_round (x k : Block) :
    stateOf (Aes.layers.round x k) =
      addRoundKey (mixColumns (shiftRows (subBytes (stateOf x)))) fun c r =>
        Aes.byteAt (k c) r := by
  rw [Rounds.Layers.round, ← stateOf_sub, ← stateOf_mix, ← stateOf_addKey]
  rfl

theorem stateOf_rounds (ks : List Block) (x : Block) :
    stateOf (Aes.layers.rounds ks x) = (ks.map fun k c r => Aes.byteAt (k c) r).foldl
      (fun s w => addRoundKey (mixColumns (shiftRows (subBytes s))) w) (stateOf x) := by
  induction ks generalizing x with
  | nil => rfl
  | cons k ks ih => rw [Rounds.Layers.rounds_cons, ih, stateOf_round, List.map_cons,
      List.foldl_cons]

/-- Byte `i` of a register, from the least significant one. -/
def byteOf (x : Block) (i : Fin 16) : Byte :=
  Aes.byteAt (x (Fin.ofNat 4 ((i : ℕ) / 4))) (Fin.ofNat 4 i)

/-- The state read from the bytes of a register. -/
theorem stateOf_eq (x : Block) :
    stateOf x = fun (r c : Fin 4) => byteOf x (Fin.ofNat 16 ((r : ℕ) + 4 * (c : ℕ))) := by
  funext r c
  have hi : ((Fin.ofNat 16 ((r : ℕ) + 4 * (c : ℕ)) : Fin 16) : ℕ) = r + 4 * c := by
    simp only [Fin.val_ofNat]
    omega
  have hc : Fin.ofNat 4 (((r : ℕ) + 4 * (c : ℕ)) / 4) = c := by
    apply Fin.ext
    simp only [Fin.val_ofNat]
    omega
  have hr : Fin.ofNat 4 ((r : ℕ) + 4 * (c : ℕ)) = r := by
    apply Fin.ext
    simp only [Fin.val_ofNat]
    omega
  rw [byteOf, hi, hc, hr, stateOf]

theorem bytes_roundKey (key : Fin 32 → Byte) (n : ℕ) :
    (fun c r => Aes.byteAt (Aes.roundKey (keyWords key) n c) r) =
      roundKey (keyExpansion key) n := by
  funext c r
  exact byteAt_expanded key (4 * n + c) r

/-- **The cipher** of the round keys is the one of the standard. -/
theorem byteOf_encrypt (key : Fin 32 → Byte) (x : Block) :
    byteOf (Aes.layers.encrypt (Aes.roundKey (keyWords key) 0)
      ((List.range' 1 (Nr - 1)).map (Aes.roundKey (keyWords key)))
      (Aes.roundKey (keyWords key) Nr) x) = cipher (keyExpansion key) (byteOf x) := by
  have hkeys : ((List.range' 1 (Nr - 1)).map (Aes.roundKey (keyWords key))).map
      (fun k c r => Aes.byteAt (k c) r) =
      (List.range' 1 (Nr - 1)).map (roundKey (keyExpansion key)) := by
    rw [List.map_map]
    exact List.map_congr_left fun n _ => bytes_roundKey key n
  have hstate : stateOf (Aes.layers.encrypt (Aes.roundKey (keyWords key) 0)
      ((List.range' 1 (Nr - 1)).map (Aes.roundKey (keyWords key)))
      (Aes.roundKey (keyWords key) Nr) x) = addRoundKey (shiftRows (subBytes
        (((List.range' 1 (Nr - 1)).map (roundKey (keyExpansion key))).foldl
          (fun s w => addRoundKey (mixColumns (shiftRows (subBytes s))) w)
          (addRoundKey (stateOf x) (roundKey (keyExpansion key) 0)))))
        (roundKey (keyExpansion key) Nr) := by
    rw [Rounds.Layers.encrypt]
    change stateOf (Aes.addKey _ _) = _
    rw [stateOf_addKey, stateOf_sub, stateOf_rounds, hkeys, bytes_roundKey]
    change addRoundKey (shiftRows (subBytes (List.foldl _ (stateOf (Aes.addKey _ _)) _))) _ = _
    rw [stateOf_addKey, bytes_roundKey]
  funext i
  change stateOf _ (Fin.ofNat 4 i) (Fin.ofNat 4 ((i : ℕ) / 4)) = _
  rw [hstate, List.foldl_map, stateOf_eq x, cipher]

end Fips197
