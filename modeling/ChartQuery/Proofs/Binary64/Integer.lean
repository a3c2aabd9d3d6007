import ChartQuery.Proofs.Binary64.Finite
import Mathlib.Algebra.Group.Nat.Defs

namespace ChartQuery

theorem roundHalfEven_mul (s : Nat) {d : Nat} (hd : 0 < d) : roundHalfEven (s * d) d = s := by
  simp only [roundHalfEven, Nat.mul_div_cancel s hd, Nat.mul_mod_left, Nat.mul_zero, if_pos, hd,
    true_or]

namespace Binary64

theorem scale_ne_zero : scale ≠ 0 := by
  obtain ⟨k, hk⟩ : ∃ k, scale = Nat.pow 2 k := ⟨_, scale_eq (k := 1022) (b := 52) rfl⟩
  rw [hk]
  exact Nat.ne_of_gt (Nat.two_pow_pos k)

theorem le_mul_pow_div_pow {n : Nat} (hn : n ≠ 0) (k b : Nat) :
    Nat.pow 2 b ≤ n * Nat.pow 2 (k + b) / (1 * Nat.pow 2 (n.log2 + k)) := by
  simp only [Nat.pow_eq, Nat.one_mul]
  rw [Nat.le_div_iff_mul_le (Nat.two_pow_pos _)]
  calc 2 ^ b * 2 ^ (n.log2 + k)
    _ = 2 ^ n.log2 * 2 ^ (k + b) := by
      rw [← Nat.pow_add, ← Nat.pow_add]
      congr 1
      omega
    _ ≤ n * 2 ^ (k + b) := Nat.mul_le_mul_right _ (Nat.log2_self_le hn)

theorem unitExponent_one_eq {n : Nat} (hn : n ≠ 0) : unitExponent n 1 = n.log2 + 1022 := by
  have hone : Nat.log2 1 = 0 := by decide
  have hdigits : 2 * hiddenBit ≤ n * scale / (1 * Nat.pow 2 (n.log2 + 1021)) := by
    rw [scale_eq (k := 1021) (b := 53) rfl]
    exact le_mul_pow_div_pow hn 1021 53
  rw [unitExponent, hone, Nat.sub_zero, if_neg (Nat.not_lt.mpr hdigits)]

/-- An integer of up to 53 bits is a multiple of the unit in which it is rounded. -/
theorem exists_mul_unit {n : Nat} (hn : n ≠ 0) (h : n ≤ 2 ^ 53) (k : Nat) :
    ∃ s, s * Nat.pow 2 (n.log2 + k) = n * Nat.pow 2 (k + 52) ∧ hiddenBit ≤ s ∧
      s < 2 * hiddenBit := by
  have hbit : hiddenBit = 2 ^ 52 := rfl
  have hle := Nat.log2_self_le hn
  have hlt : n < 2 ^ (n.log2 + 1) := Nat.lt_log2_self
  simp only [Nat.pow_eq]
  by_cases hlog : n.log2 ≤ 52
  · refine ⟨n * 2 ^ (52 - n.log2), ?_, ?_, ?_⟩
    · rw [Nat.mul_assoc, ← Nat.pow_add]
      congr 2
      omega
    · calc hiddenBit
        _ = 2 ^ n.log2 * 2 ^ (52 - n.log2) := by rw [← Nat.pow_add, Nat.add_sub_cancel' hlog, hbit]
        _ ≤ n * 2 ^ (52 - n.log2) := Nat.mul_le_mul_right _ hle
    · calc n * 2 ^ (52 - n.log2)
        _ < 2 ^ (n.log2 + 1) * 2 ^ (52 - n.log2) :=
          Nat.mul_lt_mul_of_pos_right hlt (Nat.two_pow_pos _)
        _ = 2 * hiddenBit := by
          rw [← Nat.pow_add, hbit, ← Nat.pow_succ']
          congr 1
          omega
  · have hpow : 2 ^ 53 ≤ 2 ^ n.log2 := Nat.pow_le_pow_right (Nat.succ_pos 1) (by omega)
    obtain rfl : n = 2 ^ 53 := Nat.le_antisymm h (Nat.le_trans hpow hle)
    refine ⟨hiddenBit, ?_, Nat.le_refl _, by decide⟩
    rw [Nat.log2_two_pow, hbit, ← Nat.pow_add, ← Nat.pow_add]
    congr 1
    omega

theorem negative_ofMagnitude (negative : Bool) {m : Nat} (h : m < signBit) :
    (ofMagnitude negative m).negative = negative := by
  rw [signBit] at h
  cases negative with
  | false => simp [ofMagnitude, Binary64.negative, signBit]; omega
  | true => simp [ofMagnitude, Binary64.negative, signBit]; omega

/-- The value of a normal double, from its significand and its unit. -/
theorem scaled_ofMagnitude (negative : Bool) {p s : Nat} (hp : p < 2046) (hle : hiddenBit ≤ s)
    (hlt : s < 2 * hiddenBit) : (ofMagnitude negative (p * hiddenBit + s)).scaled =
      if negative then -((s * Nat.pow 2 p : Nat) : Int) else (s * Nat.pow 2 p : Nat) := by
  have hm : p * hiddenBit + s < signBit := by
    simp only [hiddenBit, signBit] at *
    omega
  have hmagnitude : (ofMagnitude negative (p * hiddenBit + s)).magnitude = p * hiddenBit + s :=
    magnitude_ofMagnitude hm
  have hexponent : (ofMagnitude negative (p * hiddenBit + s)).exponent = p + 1 := by
    rw [exponent, hmagnitude]
    simp only [hiddenBit] at *
    omega
  have hsignificand : (ofMagnitude negative (p * hiddenBit + s)).significand = s := by
    rw [significand, hexponent, if_neg (Nat.succ_ne_zero p), fraction, hmagnitude]
    simp only [hiddenBit] at *
    omega
  rw [scaled, hsignificand, hexponent, negative_ofMagnitude negative hm]
  rfl

/-- Integers of up to 53 bits are doubles. -/
theorem scaled_ofInt {n : Int} (h : n.natAbs ≤ 2 ^ 53) : (ofInt n).scaled = n * scale := by
  by_cases hn : n.natAbs = 0
  · obtain rfl := Int.natAbs_eq_zero.mp hn
    rw [Int.zero_mul]
    rfl
  · obtain ⟨s, hs, hle, hlt⟩ := exists_mul_unit hn h 1022
    rw [← scale_eq (k := 1022) (b := 52) rfl] at hs
    have hlog : n.natAbs.log2 < 54 := (Nat.log2_lt hn).2 (Nat.lt_of_le_of_lt h (by decide))
    have hnearest : nearestMagnitude n.natAbs 1 = (n.natAbs.log2 + 1022) * hiddenBit + s := by
      have hpos : 0 < Nat.pow 2 (n.natAbs.log2 + 1022) := Nat.two_pow_pos _
      rw [nearestMagnitude, unitExponent_one_eq hn, Nat.one_mul, ← hs, roundHalfEven_mul s hpos]
      apply Nat.min_eq_right
      simp only [hiddenBit] at hlt ⊢
      omega
    rw [ofInt, ofRatio, if_neg hn, hnearest, scaled_ofMagnitude _ (by omega) hle hlt, hs]
    split
    case isTrue hneg =>
      have hsign : (n.natAbs : Int) = -n :=
        Int.ofNat_natAbs_of_nonpos (Int.le_of_lt (of_decide_eq_true hneg))
      rw [Int.natCast_mul, hsign, ← Int.neg_mul, Int.neg_neg]
    case isFalse hneg =>
      have hsign : (n.natAbs : Int) = n := Int.natAbs_of_nonneg (by simpa using hneg)
      rw [Int.natCast_mul, hsign]

/-- A double that is an integer of the signed 64-bit range is that integer. -/
theorem toInt64_of_scaled {x : Binary64} {n : Int} (h : x.scaled = n * scale)
    (hle : -0x8000000000000000 ≤ n) (hlt : n < 0x8000000000000000) : x.toInt64 = Int64.ofInt n := by
  rw [toInt64, truncate, h, Int.mul_tdiv_cancel n (Int.natCast_ne_zero.mpr scale_ne_zero)]
  congr 1
  simp only [signBit]
  omega

end Binary64

end ChartQuery
