import ChartQuery.Pivot.HeaderValue
import Mathlib.Algebra.Order.Group.Int
import Mathlib.Order.Monotone.Odd

namespace ChartQuery.Binary64

/-- What the bits below the sign stand for, in units of the least positive double. -/
def units (m : Nat) : Nat :=
  (if m / hiddenBit = 0 then m % hiddenBit else hiddenBit + m % hiddenBit) *
    Nat.pow 2 (m / hiddenBit - 1)

/-- The next word has the next significand, or the least one of the next exponent. -/
theorem units_lt_units_succ (m : Nat) : units m < units (m + 1) := by
  have hfraction : m % hiddenBit < hiddenBit := Nat.mod_lt m (by decide)
  by_cases hlast : m % hiddenBit + 1 = hiddenBit
  · have hexponent : (m + 1) / hiddenBit = m / hiddenBit + 1 := by
      simp only [hiddenBit] at *
      omega
    have hzero : (m + 1) % hiddenBit = 0 := by
      simp only [hiddenBit] at *
      omega
    rw [units, units, hexponent, hzero, if_neg (Nat.succ_ne_zero _), Nat.add_sub_cancel]
    cases m / hiddenBit with
    | zero => simpa using hfraction
    | succ e =>
      have hpos : 0 < Nat.pow 2 e := Nat.two_pow_pos e
      calc (if e + 1 = 0 then m % hiddenBit else hiddenBit + m % hiddenBit) * Nat.pow 2 (e + 1 - 1)
        _ = (hiddenBit + m % hiddenBit) * Nat.pow 2 e := by
          rw [if_neg (Nat.succ_ne_zero e), Nat.add_sub_cancel]
        _ < (hiddenBit + hiddenBit) * Nat.pow 2 e :=
          Nat.mul_lt_mul_of_pos_right (Nat.add_lt_add_left hfraction hiddenBit) hpos
        _ = (hiddenBit + 0) * Nat.pow 2 (e + 1) := by
          rw [← Nat.two_mul, Nat.mul_comm 2, Nat.mul_assoc, Nat.add_zero, Nat.pow_eq, Nat.pow_eq,
            Nat.pow_succ']
  · have hexponent : (m + 1) / hiddenBit = m / hiddenBit := by
      simp only [hiddenBit] at *
      omega
    have hnext : (m + 1) % hiddenBit = m % hiddenBit + 1 := by
      simp only [hiddenBit] at *
      omega
    rw [units, units, hexponent, hnext]
    apply Nat.mul_lt_mul_of_pos_right _ (Nat.two_pow_pos _)
    split
    · exact Nat.lt_succ_self _
    · exact Nat.lt_succ_self _

theorem units_zero : units 0 = 0 := by
  rw [units, Nat.zero_mod]
  exact Nat.zero_mul _

/-- Below zero ranks stand for the same as above it. -/
def unitsAt (r : Int) : Int := r.sign * units r.natAbs

theorem unitsAt_natCast (m : Nat) : unitsAt m = units m := by
  rw [unitsAt, Int.natAbs_natCast]
  cases m with
  | zero => simp [units_zero]
  | succ m => rw [Int.sign_eq_one_of_pos (Int.natCast_pos.mpr (Nat.succ_pos m)), Int.one_mul]

theorem unitsAt_neg (r : Int) : unitsAt (-r) = -unitsAt r := by
  rw [unitsAt, unitsAt, Int.sign_neg, Int.natAbs_neg, Int.neg_mul]

/-- Zero stands between what is below it and what is above, so it takes no case of its own. -/
theorem unitsAt_lt_unitsAt_iff {r s : Int} : unitsAt r < unitsAt s ↔ r < s := by
  have hunits : StrictMono units := strictMono_nat_of_lt_succ units_lt_units_succ
  have hmono : StrictMono unitsAt := by
    apply strictMono_of_odd_strictMonoOn_nonneg unitsAt_neg
    intro r hr s hs hlt
    obtain ⟨m, rfl⟩ := Int.eq_ofNat_of_zero_le hr
    obtain ⟨n, rfl⟩ := Int.eq_ofNat_of_zero_le hs
    rw [unitsAt_natCast, unitsAt_natCast]
    exact Int.ofNat_lt.mpr (hunits (Int.ofNat_lt.mp hlt))
  exact hmono.lt_iff_lt

theorem compare_unitsAt (r s : Int) : compare (unitsAt r) (unitsAt s) = compare r s := by
  rw [← cmp_eq_compare, ← cmp_eq_compare]
  simp only [cmp, cmpUsing, unitsAt_lt_unitsAt_iff]

/-- A finite number is as many units as its rank stands for. -/
theorem scaled_eq_unitsAt (x : Binary64) : x.scaled = unitsAt x.rank := by
  have hunits : x.significand * Nat.pow 2 (x.exponent - 1) = units x.magnitude := rfl
  rw [scaled, hunits, rank]
  cases x.negative with
  | false => exact (unitsAt_natCast _).symm
  | true => exact ((unitsAt_neg _).trans (congrArg Neg.neg (unitsAt_natCast _))).symm

/-- What a number that is no NaN stands for. -/
inductive Value where
  | negInfinity
  /-- A multiple of the least positive double. -/
  | finite (units : Int)
  | infinity

def Value.cmp : Value → Value → Ordering
  | negInfinity, negInfinity => .eq
  | negInfinity, _ => .lt
  | _, negInfinity => .gt
  | infinity, infinity => .eq
  | infinity, _ => .gt
  | _, infinity => .lt
  | finite m, finite n => compare m n

def value (x : Binary64) : Value :=
  if x.isFinite then .finite x.scaled else if x.negative then .negInfinity else .infinity

/-- Comparison by value, as floating point has it: a NaN compares with nothing. -/
def numCmp? (x y : Binary64) : Option Ordering :=
  if x.isNaN || y.isNaN then none else some (x.value.cmp y.value)

/-- The rank of an infinity, which no finite number reaches. -/
def infiniteRank : Int := 2047 * hiddenBit

theorem rank_of_isFinite {x : Binary64} (h : x.isFinite = true) :
    -infiniteRank < x.rank ∧ x.rank < infiniteRank := by
  have hmagnitude : x.magnitude < 2047 * hiddenBit := by
    have hlt := x.magnitude_lt
    have hne : x.exponent ≠ 2047 := bne_iff_ne.mp h
    simp only [exponent, hiddenBit, signBit] at *
    omega
  rw [rank, infiniteRank]
  split <;> omega

theorem magnitude_of_isFinite_eq_false {x : Binary64} (hn : x.isNaN = false)
    (h : x.isFinite = false) : x.magnitude = 2047 * hiddenBit := by
  have hexponent : x.exponent = 2047 := by simpa [isFinite] using h
  have hfraction : x.fraction = 0 := by simpa [isNaN, hexponent] using hn
  rw [exponent] at hexponent
  rw [fraction] at hfraction
  rw [← Nat.div_add_mod x.magnitude hiddenBit, hexponent, hfraction, Nat.mul_comm, Nat.add_zero]

/-- The value of a number that is no NaN, told by its rank. -/
theorem value_cases {x : Binary64} (hn : x.isNaN = false) :
    x.value = .negInfinity ∧ x.rank = -infiniteRank ∨
      x.value = .finite (unitsAt x.rank) ∧ -infiniteRank < x.rank ∧ x.rank < infiniteRank ∨
      x.value = .infinity ∧ x.rank = infiniteRank := by
  cases hf : x.isFinite with
  | true => exact .inr (.inl ⟨by rw [value, hf, ← scaled_eq_unitsAt]; rfl, rank_of_isFinite hf⟩)
  | false =>
    rw [value, rank, hf, magnitude_of_isFinite_eq_false hn hf, infiniteRank]
    cases x.negative with
    | true => exact .inl ⟨rfl, rfl⟩
    | false => exact .inr (.inr ⟨rfl, rfl⟩)

theorem cmp_value {x y : Binary64} (hx : x.isNaN = false) (hy : y.isNaN = false) :
    x.value.cmp y.value = compare x.rank y.rank := by
  have hpos : -infiniteRank < infiniteRank := by decide
  rcases value_cases hx with ⟨hvx, hrx⟩ | ⟨hvx, hlx, hgx⟩ | ⟨hvx, hrx⟩
  · rcases value_cases hy with ⟨hvy, hry⟩ | ⟨hvy, hly, -⟩ | ⟨hvy, hry⟩
    · rw [hvx, hvy, hrx, hry]
      exact (compare_eq_iff_eq.mpr rfl).symm
    · rw [hvx, hvy, hrx]
      exact (compare_lt_iff_lt.mpr hly).symm
    · rw [hvx, hvy, hrx, hry]
      exact (compare_lt_iff_lt.mpr hpos).symm
  · rcases value_cases hy with ⟨hvy, hry⟩ | ⟨hvy, -, -⟩ | ⟨hvy, hry⟩
    · rw [hvx, hvy, hry]
      exact (compare_gt_iff_gt.mpr hlx).symm
    · rw [hvx, hvy]
      exact compare_unitsAt x.rank y.rank
    · rw [hvx, hvy, hry]
      exact (compare_lt_iff_lt.mpr hgx).symm
  · rcases value_cases hy with ⟨hvy, hry⟩ | ⟨hvy, -, hgy⟩ | ⟨hvy, hry⟩
    · rw [hvx, hvy, hrx, hry]
      exact (compare_gt_iff_gt.mpr hpos).symm
    · rw [hvx, hvy, hrx]
      exact (compare_gt_iff_gt.mpr hgy).symm
    · rw [hvx, hvy, hrx, hry]
      exact (compare_eq_iff_eq.mpr rfl).symm

theorem numCmp?_eq_some {x y : Binary64} (hx : x.isNaN = false) (hy : y.isNaN = false) :
    x.numCmp? y = some (compare x.rank y.rank) := by
  rw [numCmp?, hx, hy, cmp_value hx hy]
  rfl

/-- Places are compared by value, and a NaN comes after what is none. -/
theorem compare_place (x y : Binary64) :
    compare x.place y.place = (x.numCmp? y).getD (compare x.isNaN y.isNaN) := by
  rw [place, place]
  cases hx : x.isNaN with
  | false =>
    cases hy : y.isNaN with
    | false => simp [numCmp?_eq_some hx hy]
    | true =>
      rw [numCmp?, hx, hy]
      exact compare_lt_iff_lt.mpr x.rank_lt
  | true =>
    cases hy : y.isNaN with
    | false =>
      rw [numCmp?, hx, hy]
      exact compare_gt_iff_gt.mpr y.rank_lt
    | true => simp [numCmp?, hx, hy]

theorem same_eq (x y : Binary64) :
    x.same y = (x.isNaN && y.isNaN || x.numCmp? y == some .eq) := by
  cases hx : x.isNaN with
  | false =>
    cases hy : y.isNaN with
    | false =>
      have heq : (x.rank == y.rank) = (compare x.rank y.rank == .eq) := by
        rw [Bool.eq_iff_iff, beq_iff_eq, beq_iff_eq, Std.LawfulEqCmp.compare_eq_iff_eq]
      simp [same, numEq, numCmp?_eq_some hx hy, hx, hy, heq]
    | true => simp [same, numEq, hx, hy, numCmp?]
  | true => cases hy : y.isNaN <;> simp [same, numEq, hx, hy, numCmp?]

end ChartQuery.Binary64
