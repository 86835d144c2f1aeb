import Mathlib.Data.Nat.Basic
import Mathlib.Algebra.Order.Ring.Int
import Mathlib.Tactic.Linarith

/-!
# Unsigned division of two's-complement words

A divider that reads its operands as unsigned numbers, used on words that stand for
signed integers.  The words it leaves stand for the truncated quotient and remainder
of the signed operands on some pairs only, and this module says on which.

## Main definitions

* `DivAgrees a b` — the quotient is right for the integers `a` and `b`.
* `ModAgrees m a b` — the remainder is, for words with `m` values.
-/

namespace Signed

/-- Dividing as unsigned numbers gives the truncated quotient. -/
def DivAgrees (a b : ℤ) : Prop := a = b ∨ b = 1 ∨ (0 ≤ a ∧ (0 < b ∨ a < -b))

/-- Dividing as unsigned numbers gives the remainder that has the sign of `a`. -/
def ModAgrees (m : ℕ) (a b : ℤ) : Prop :=
  a = b ∨ (0 ≤ a ∧ (0 < b ∨ a < -b)) ∨ (a < 0 ∧ 0 < b ∧ b ∣ a ∧ b ∣ m)

instance (a b : ℤ) : Decidable (DivAgrees a b) :=
  inferInstanceAs (Decidable (_ ∨ _ ∨ _))

instance (m : ℕ) (a b : ℤ) : Decidable (ModAgrees m a b) :=
  inferInstanceAs (Decidable (_ ∨ _ ∨ _))

/-- Where the quotient is right, the remainder is. -/
theorem DivAgrees.mod {a b : ℤ} (h : DivAgrees a b) (m : ℕ) : ModAgrees m a b := by
  rcases h with h | rfl | h
  · exact .inl h
  · by_cases ha : 0 ≤ a
    · exact .inr (.inl ⟨ha, .inl one_pos⟩)
    · exact .inr (.inr ⟨not_le.mp ha, one_pos, one_dvd a, one_dvd _⟩)
  · exact .inr (.inl h)

/-! ## Magnitudes

A word is a number `n` below `m`; one of at least `m / 2` stands for `n - m`. -/

/-- The integer a word stands for. -/
def signed (m n : ℕ) : ℤ := if 2 * n < m then n else n - m

section Magnitudes
variable {m n d k l : ℕ}

theorem signed_of_lt (h : 2 * n < m) : signed m n = n := if_pos h

theorem signed_of_le (h : m ≤ 2 * n) (hk : n + k = m) : signed m n = -k := by
  rw [signed, if_neg (by omega)]
  omega

/-- A large dividend and a small divisor other than one leave a positive quotient. -/
theorem div_pos_of_big (hn : m ≤ 2 * n) (hd : 2 ≤ d) (hlt : 2 * d < m) (hm : n < m) :
    1 ≤ n / d ∧ 2 * (n / d) < m := by
  constructor
  · exact (Nat.one_le_div_iff (by omega)).mpr (by omega)
  · have hle : n / d ≤ n / 2 := Nat.div_le_div_left hd two_pos
    omega

/-- A large divisor leaves one or zero. -/
theorem div_of_big (hd : m ≤ 2 * d) (hm : n < m) : n / d = if d ≤ n then 1 else 0 := by
  split
  · exact Nat.div_eq_of_lt_le (by omega) (by omega)
  · exact Nat.div_eq_of_lt (by omega)

theorem mod_of_big (hd : m ≤ 2 * d) (hm : n < m) : n % d = if d ≤ n then n - d else n := by
  split
  · rw [Nat.mod_eq_sub_mod (by omega), Nat.mod_eq_of_lt (by omega)]
  · exact Nat.mod_eq_of_lt (by omega)

/-! The four cases of the signs: `k` and `l` are the magnitudes of the negative operands. -/

theorem div_pos_neg (hm : 0 < m) (hn : 2 * n < m) (hl : 0 < l) (hd : m ≤ 2 * d)
    (hdl : d + l = m) :
    signed m (n / d) = (n : ℤ).tdiv (-l) ↔ DivAgrees n (-l) := by
  have hq : n / d = 0 := Nat.div_eq_of_lt (by omega)
  rw [hq, signed_of_lt (by omega), Int.tdiv_neg, Int.natCast_zero, zero_eq_neg,
    ← Int.ofNat_tdiv, Int.natCast_eq_zero, Nat.div_eq_zero_iff, DivAgrees]
  omega

theorem div_neg_pos (hn : m ≤ 2 * n) (hk : 0 < k) (hnk : n + k = m) (hd : 2 * d < m)
    (hd0 : 0 < d) : signed m (n / d) = (-(k : ℤ)).tdiv d ↔ DivAgrees (-k) d := by
  by_cases hone : d = 1
  · subst hone
    simp [DivAgrees, signed_of_le hn hnk]
  · obtain ⟨hpos, hlt⟩ := div_pos_of_big hn (by omega) hd (by omega)
    rw [signed_of_lt hlt, Int.neg_tdiv, ← Int.ofNat_tdiv, DivAgrees]
    generalize k / d = q
    omega

theorem div_neg_neg (hm : 2 < m) (hk : 0 < k) (hnk : n + k = m) (hl : 0 < l)
    (hd : m ≤ 2 * d) (hdl : d + l = m) :
    signed m (n / d) = (-(k : ℤ)).tdiv (-l) ↔ DivAgrees (-k) (-l) := by
  rw [div_of_big hd (by omega), Int.neg_tdiv, Int.tdiv_neg, neg_neg, ← Int.ofNat_tdiv, DivAgrees]
  split
  · have hone : signed m 1 = 1 := signed_of_lt (by omega)
    by_cases hkl : k = l
    · subst hkl
      simp [hone, Nat.div_self hk]
    · have hq : k / l = 0 := Nat.div_eq_of_lt (by omega)
      rw [hone, hq]
      omega
  · have hzero : signed m 0 = 0 := signed_of_lt (by omega)
    have hq : 1 ≤ k / l := (Nat.one_le_div_iff hl).mpr (by omega)
    rw [hzero]
    omega

theorem mod_pos_neg (hn : 2 * n < m) (hl : 0 < l) (hd : m ≤ 2 * d) (hdl : d + l = m) :
    signed m (n % d) = (n : ℤ).tmod (-l) ↔ ModAgrees m n (-l) := by
  have hr : n % d = n := Nat.mod_eq_of_lt (by omega)
  rw [hr, signed_of_lt hn, Int.tmod_neg, ← Int.ofNat_tmod, Int.natCast_inj, ModAgrees]
  by_cases hlt : n < l
  · rw [Nat.mod_eq_of_lt hlt]
    omega
  · have := Nat.mod_lt n hl
    omega

theorem mod_neg_pos (hk : 0 < k) (hnk : n + k = m) (hd : 2 * d < m) (hd0 : 0 < d) :
    signed m (n % d) = (-(k : ℤ)).tmod d ↔ ModAgrees m (-k) d := by
  have hlt : n % d < d := Nat.mod_lt n hd0
  rw [signed_of_lt (by omega), Int.neg_tmod, ← Int.ofNat_tmod]
  have hdvd : n % d = 0 ∧ k % d = 0 ↔ d ∣ k ∧ d ∣ m := by
    rw [← Nat.dvd_iff_mod_eq_zero, ← Nat.dvd_iff_mod_eq_zero, ← hnk, and_comm]
    exact and_congr_right fun h => Nat.dvd_add_iff_left h
  have hmod : ModAgrees m (-k) d ↔ d ∣ k ∧ d ∣ m := by
    rw [ModAgrees, Int.dvd_neg, Int.natCast_dvd_natCast, Int.natCast_dvd_natCast]
    omega
  rw [hmod, ← hdvd]
  omega

theorem mod_neg_neg (hn : m ≤ 2 * n) (hk : 0 < k) (hnk : n + k = m) (hl : 0 < l)
    (hd : m ≤ 2 * d) (hdl : d + l = m) :
    signed m (n % d) = (-(k : ℤ)).tmod (-l) ↔ ModAgrees m (-k) (-l) := by
  rw [mod_of_big hd (by omega), Int.neg_tmod, Int.tmod_neg, ← Int.ofNat_tmod, ModAgrees]
  split
  · rw [signed_of_lt (by omega)]
    by_cases hkl : k = l
    · subst hkl
      simp
      omega
    · rw [Nat.mod_eq_of_lt (by omega)]
      omega
  · have := Nat.mod_lt k hl
    rw [signed_of_le hn hnk]
    omega

/-- **When an unsigned quotient is the signed one.** -/
theorem signed_div_iff (hm : 2 < m) (hn : n < m) (hd : d < m) (hd0 : 0 < d) :
    signed m (n / d) = (signed m n).tdiv (signed m d) ↔ DivAgrees (signed m n) (signed m d) := by
  by_cases hbig : 2 * n < m
  · by_cases hbig' : 2 * d < m
    · have hle : n / d ≤ n := Nat.div_le_self n d
      rw [signed_of_lt hbig, signed_of_lt hbig', signed_of_lt (by omega), ← Int.ofNat_tdiv,
        DivAgrees]
      omega
    · rw [signed_of_lt hbig, signed_of_le (n := d) (k := m - d) (by omega) (by omega)]
      exact div_pos_neg (by omega) hbig (by omega) (by omega) (by omega)
  · rw [signed_of_le (n := n) (k := m - n) (by omega) (by omega)]
    by_cases hbig' : 2 * d < m
    · rw [signed_of_lt hbig']
      exact div_neg_pos (by omega) (by omega) (by omega) hbig' hd0
    · rw [signed_of_le (n := d) (k := m - d) (by omega) (by omega)]
      exact div_neg_neg hm (by omega) (by omega) (by omega) (by omega) (by omega)

/-- **When an unsigned remainder is the signed one.** -/
theorem signed_mod_iff (hn : n < m) (hd : d < m) (hd0 : 0 < d) :
    signed m (n % d) = (signed m n).tmod (signed m d) ↔
      ModAgrees m (signed m n) (signed m d) := by
  by_cases hbig : 2 * n < m
  · by_cases hbig' : 2 * d < m
    · have hle : n % d ≤ n := Nat.mod_le n d
      rw [signed_of_lt hbig, signed_of_lt hbig', signed_of_lt (by omega), ← Int.ofNat_tmod,
        ModAgrees]
      omega
    · rw [signed_of_lt hbig, signed_of_le (n := d) (k := m - d) (by omega) (by omega)]
      exact mod_pos_neg hbig (by omega) (by omega) (by omega)
  · rw [signed_of_le (n := n) (k := m - n) (by omega) (by omega)]
    by_cases hbig' : 2 * d < m
    · rw [signed_of_lt hbig']
      exact mod_neg_pos (by omega) (by omega) hbig' hd0
    · rw [signed_of_le (n := d) (k := m - d) (by omega) (by omega)]
      exact mod_neg_neg (by omega) (by omega) (by omega) (by omega) (by omega) (by omega)

end Magnitudes

/-! ## Words -/

section Words
variable {w : ℕ}

theorem toInt_eq_signed (x : BitVec w) : x.toInt = signed (2 ^ w) x.toNat :=
  BitVec.toInt_eq_toNat_cond x

theorem toNat_pos_of_ne_zero {b : BitVec w} (hb : b ≠ 0) : 0 < b.toNat :=
  Nat.pos_of_ne_zero fun h => hb (BitVec.eq_of_toNat_eq h)

theorem toInt_udiv_iff (hw : 1 < w) (a : BitVec w) {b : BitVec w} (hb : b ≠ 0) :
    (a / b).toInt = a.toInt.tdiv b.toInt ↔ DivAgrees a.toInt b.toInt := by
  simp only [toInt_eq_signed, BitVec.toNat_udiv]
  have hpow : 2 ^ 2 ≤ 2 ^ w := Nat.pow_le_pow_right two_pos hw
  exact signed_div_iff (by omega) a.isLt b.isLt (toNat_pos_of_ne_zero hb)

theorem toInt_umod_iff (a : BitVec w) {b : BitVec w} (hb : b ≠ 0) :
    (a % b).toInt = a.toInt.tmod b.toInt ↔ ModAgrees (2 ^ w) a.toInt b.toInt := by
  simp only [toInt_eq_signed, BitVec.toNat_umod]
  exact signed_mod_iff a.isLt b.isLt (toNat_pos_of_ne_zero hb)

end Words
end Signed
