import ChartQuery.Binary64.Rounding
import Mathlib.Tactic.Common

namespace ChartQuery

theorem roundHalfEven_le (n d : Nat) : roundHalfEven n d ≤ n / d + 1 := by
  rw [roundHalfEven]
  split
  · exact Nat.le_succ (n / d)
  · exact Nat.le_refl (n / d + 1)

namespace Binary64

theorem magnitude_ofMagnitude {negative : Bool} {m : Nat} (h : m < signBit) :
    (ofMagnitude negative m).magnitude = m := by
  rw [signBit] at h
  cases negative with
  | false =>
    rw [ofMagnitude, magnitude, signBit]
    simp [Nat.mod_eq_of_lt, h]
  | true =>
    rw [ofMagnitude, magnitude]
    simp [Nat.mod_eq_of_lt, h, signBit]

theorem isFinite_ofMagnitude {negative : Bool} {m : Nat} (h : m < 2047 * hiddenBit) :
    (ofMagnitude negative m).isFinite = true := by
  have hm : m < signBit := by
    rw [hiddenBit] at h
    rw [signBit]
    omega
  have hexp : m / hiddenBit < 2047 := Nat.div_lt_of_lt_mul (by rwa [Nat.mul_comm])
  rw [isFinite, exponent, magnitude_ofMagnitude hm, bne_iff_ne]
  exact Nat.ne_of_lt hexp

theorem scale_eq {k b : Nat} (h : k + b = 1074) : scale = Nat.pow 2 (k + b) := by
  unfold scale
  congr 1
  exact h.symm

theorem mul_pow_div_pow_lt (n k b : Nat) :
    n * Nat.pow 2 (k + b) / (1 * Nat.pow 2 (n.log2 + k + 1)) < Nat.pow 2 b := by
  have hn : n < 2 ^ (n.log2 + 1) := Nat.lt_log2_self
  simp only [Nat.pow_eq, Nat.one_mul]
  apply Nat.div_lt_of_lt_mul
  calc n * 2 ^ (k + b)
    _ < 2 ^ (n.log2 + 1) * 2 ^ (k + b) := Nat.mul_lt_mul_of_pos_right hn (Nat.two_pow_pos _)
    _ = 2 ^ (n.log2 + k + 1) * 2 ^ b := by
      rw [← Nat.pow_add, ← Nat.pow_add]
      congr 1
      omega

/-- An integer has at most 53 bits in its unit, and the unit is no coarser than that takes. -/
theorem unitExponent_one (n : Nat) :
    unitExponent n 1 ≤ n.log2 + 1022 ∧
      n * scale / (1 * Nat.pow 2 (unitExponent n 1)) < 2 * hiddenBit := by
  have hone : Nat.log2 1 = 0 := by decide
  have hdigits : n * scale / (1 * Nat.pow 2 (n.log2 + 1021 + 1)) < 2 * hiddenBit := by
    rw [scale_eq (k := 1021) (b := 53) rfl]
    exact mul_pow_div_pow_lt n 1021 53
  rw [unitExponent, hone, Nat.sub_zero]
  split
  · next h => exact ⟨Nat.le_succ _, h⟩
  · exact ⟨Nat.le_refl _, hdigits⟩

theorem nearestMagnitude_one_le (n : Nat) :
    nearestMagnitude n 1 ≤ (n.log2 + 1024) * hiddenBit := by
  obtain ⟨hunit, hdigits⟩ := unitExponent_one n
  have hround := roundHalfEven_le (n * scale) (1 * Nat.pow 2 (unitExponent n 1))
  calc nearestMagnitude n 1
    _ ≤ unitExponent n 1 * hiddenBit + 2 * hiddenBit := by
      rw [nearestMagnitude]
      omega
    _ = (unitExponent n 1 + 2) * hiddenBit := (Nat.add_mul _ _ _).symm
    _ ≤ (n.log2 + 1024) * hiddenBit := Nat.mul_le_mul_right hiddenBit (by omega)

/-- The double nearest to an integer of 64 bits is finite. -/
theorem isFinite_ofInt {n : Int} (h : n.natAbs < UInt64.size) : (ofInt n).isFinite = true := by
  rw [ofInt, ofRatio]
  split
  · cases decide (n < 0) <;> rfl
  · next hn =>
    have hlog : n.natAbs.log2 < 64 := (Nat.log2_lt hn).2 h
    have hle := nearestMagnitude_one_le n.natAbs
    have hlt : (n.natAbs.log2 + 1024) * hiddenBit < 2047 * hiddenBit :=
      Nat.mul_lt_mul_of_pos_right (by omega) (by decide)
    exact isFinite_ofMagnitude (Nat.lt_of_le_of_lt hle hlt)

end Binary64

end ChartQuery
