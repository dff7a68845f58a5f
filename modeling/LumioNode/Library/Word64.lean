import Mathlib.Data.Nat.Size
import Mathlib.Data.Nat.Bitwise
import Mathlib.Data.Nat.Factorization.Basic
import Mathlib.Tactic.Ring

/-! # Words of 64 bits

Complement, shifts that lose bits, and counting bits. -/

namespace LumioNode.Library

open Nat

namespace Word64

def max : Nat := 2 ^ 64 - 1

def not (value : Nat) : Nat := max - value

def shiftLeft (value shift : Nat) : Nat := (value <<< shift) % 2 ^ 64

/-- The zeros below the lowest one among the given number of bits. -/
def trailingZerosOf : Nat → Nat → Nat
  | 0, _ => 0
  | width + 1, value =>
    if value % 2 = 1 then 0 else trailingZerosOf width (value / 2) + 1

def trailingZeros (value : Nat) : Nat := trailingZerosOf 64 value

def leadingZeros (value : Nat) : Nat := 64 - value.size

def countOnes (value : Nat) : Nat := value.bits.count true

/-- Set all bits below the highest one. -/
def smearOnes (value : Nat) : Nat :=
  [1, 2, 4, 8, 16, 32].foldl (fun word shift => word ||| (word >>> shift)) value

variable {value low width : Nat}

theorem exists_shifted_odd (positive : 0 < value) :
    ∃ shift half, value = (2 * half + 1) * 2 ^ shift := by
  obtain ⟨shift, odd, ⟨half, isHalf⟩, product⟩ :=
    exists_eq_two_pow_mul_odd (Nat.ne_of_gt positive)
  exact ⟨shift, half, by rw [product, isHalf, Nat.mul_comm]⟩

theorem shift_lt {half shift : Nat} (few : (2 * half + 1) * 2 ^ shift ≤ 2 ^ 63) : shift < 64 := by
  have atMost : 2 ^ shift ≤ (2 * half + 1) * 2 ^ shift := Nat.le_mul_of_pos_left _ (by omega)
  have less : 2 ^ shift < 2 ^ 64 := by omega
  exact (Nat.pow_lt_pow_iff_right (by omega)).mp less

theorem size_half (positive : 0 < value) : value.size = (value / 2).size + 1 := by
  have recomposed := bit_bodd_div2 value
  rw [div2_val] at recomposed
  have notZero : Nat.bit value.bodd (value / 2) ≠ 0 := by
    rw [recomposed]
    omega
  have sized := size_bit notZero
  rwa [recomposed] at sized

theorem size_two_pow_add {bit rest : Nat} (small : rest < 2 ^ bit) :
    (2 ^ bit + rest).size = bit + 1 := by
  apply le_antisymm
  · exact size_le.mpr (by omega)
  · exact lt_size.mpr (by omega)

theorem trailingZerosOf_eq (inside : low < width) (quotient : Nat) :
    trailingZerosOf width ((2 * quotient + 1) * 2 ^ low) = low := by
  induction low generalizing width with
  | zero =>
    cases width with
    | zero => omega
    | succ width =>
      rw [trailingZerosOf, if_pos (by omega)]
  | succ low inductionHypothesis =>
    cases width with
    | zero => omega
    | succ width =>
      have double : (2 * quotient + 1) * 2 ^ (low + 1) =
          2 * ((2 * quotient + 1) * 2 ^ low) := by ring
      rw [trailingZerosOf, double, if_neg (by omega), Nat.mul_div_cancel_left _ (by omega),
        inductionHypothesis (by omega)]

theorem trailingZeros_eq (inside : low < 64) (quotient : Nat) :
    trailingZeros ((2 * quotient + 1) * 2 ^ low) = low :=
  trailingZerosOf_eq inside quotient

theorem testBit_not (fits : value < 2 ^ 64) (position : Nat) : (not value).testBit position =
    (decide (position < 64) && !value.testBit position) := by
  have sub : not value = 2 ^ 64 - (value + 1) := by
    unfold not max
    omega
  rw [sub, testBit_two_pow_sub_succ fits]

theorem testBit_clear {bit : Nat} (fits : value < 2 ^ 64) (inside : bit < 64) (position : Nat) :
    (value &&& not (2 ^ bit)).testBit position =
      (value.testBit position && decide (position ≠ bit)) := by
  have less : 2 ^ bit < 2 ^ 64 := Nat.pow_lt_pow_right (by omega) inside
  rw [testBit_and, testBit_not less, testBit_two_pow]
  by_cases beyond : position < 64
  · simp [beyond, eq_comm]
  · have larger : 2 ^ 64 ≤ 2 ^ position := Nat.pow_le_pow_right (by omega) (by omega)
    rw [testBit_lt_two_pow (by omega)]
    simp

theorem clear_highest {bit : Nat} (inside : bit < 64) (atLeast : 2 ^ bit ≤ value)
    (less : value < 2 ^ (bit + 1)) : value &&& not (2 ^ bit) = value - 2 ^ bit := by
  have fits : value < 2 ^ 64 := lt_of_lt_of_le less (Nat.pow_le_pow_right (by omega) (by omega))
  have rest : value - 2 ^ bit = value % 2 ^ bit := by
    rw [mod_eq_sub_mod atLeast, mod_eq_of_lt (by omega)]
  apply eq_of_testBit_eq
  intro position
  rw [testBit_clear fits inside, rest, testBit_mod_two_pow]
  by_cases below : position < bit
  · simp [below, show position ≠ bit by omega]
  · by_cases same : position = bit
    · simp [same]
    · have larger : 2 ^ (bit + 1) ≤ 2 ^ position := Nat.pow_le_pow_right (by omega) (by omega)
      rw [testBit_lt_two_pow (by omega)]
      simp

/-- A mask of one bit meets the numbers that have it. -/
theorem and_two_pow_ne_zero (number bit : Nat) :
    number &&& 2 ^ bit ≠ 0 ↔ number / 2 ^ bit % 2 = 1 := by
  rw [and_two_pow, testBit_eq_decide_div_mod_eq]
  by_cases isSet : number / 2 ^ bit % 2 = 1
  · simp [isSet]
  · simp [isSet]

/-- One step of smearing doubles the window in which a one is looked for. -/
theorem smearStep_testBit {word shift : Nat} (smeared : ∀ position, word.testBit position = true ↔
      ∃ offset < shift, value.testBit (position + offset) = true)
    (position : Nat) :
    (word ||| (word >>> shift)).testBit position = true ↔
      ∃ offset < 2 * shift, value.testBit (position + offset) = true := by
  rw [testBit_or, testBit_shiftRight, Bool.or_eq_true, smeared, smeared]
  constructor
  · rintro (⟨offset, less, isOne⟩ | ⟨offset, less, isOne⟩)
    · exact ⟨offset, by omega, isOne⟩
    · refine ⟨shift + offset, by omega, ?_⟩
      rwa [← Nat.add_assoc, Nat.add_comm position shift]
  · rintro ⟨offset, less, isOne⟩
    by_cases near : offset < shift
    · exact .inl ⟨offset, near, isOne⟩
    · refine .inr ⟨offset - shift, by omega, ?_⟩
      have same : shift + position + (offset - shift) = position + offset := by omega
      rwa [same]

theorem smearOnes_testBit (position : Nat) : (smearOnes value).testBit position = true ↔
    ∃ offset < 64, value.testBit (position + offset) = true := by
  have start : ∀ position, value.testBit position = true ↔
      ∃ offset < 1, value.testBit (position + offset) = true := by
    intro position
    constructor
    · intro isOne
      exact ⟨0, by omega, isOne⟩
    · rintro ⟨offset, less, isOne⟩
      have isZero : offset = 0 := by omega
      rwa [isZero] at isOne
  exact smearStep_testBit (smearStep_testBit (smearStep_testBit
    (smearStep_testBit (smearStep_testBit (smearStep_testBit start)))))
    position

theorem smearOnes_eq (fits : value < 2 ^ 64) : smearOnes value = 2 ^ value.size - 1 := by
  apply eq_of_testBit_eq
  intro position
  rw [Bool.eq_iff_iff, smearOnes_testBit, testBit_two_pow_sub_one, decide_eq_true_iff]
  have sizeAtMost : value.size ≤ 64 := size_le.mpr fits
  constructor
  · rintro ⟨offset, _, isOne⟩
    by_contra beyond
    have small : value < 2 ^ (position + offset) := lt_of_lt_of_le (lt_size_self value)
        (Nat.pow_le_pow_right (by omega) (by omega))
    rw [testBit_lt_two_pow small] at isOne
    cases isOne
  · intro inside
    refine ⟨value.size - 1 - position, by omega, ?_⟩
    have top : position + (value.size - 1 - position) = value.size - 1 := by omega
    rw [top]
    have atLeast : 2 ^ (value.size - 1) ≤ value := by
      rw [← lt_size]
      omega
    have less : value < 2 ^ (value.size - 1 + 1) := by
      have isSize : value.size - 1 + 1 = value.size := by omega
      rw [isSize]
      exact lt_size_self value
    exact testBit_of_two_pow_le_and_two_pow_add_one_gt atLeast less

theorem countOnes_double (value : Nat) : countOnes (2 * value) = countOnes value := by
  by_cases isZero : value = 0
  · rw [isZero]
  · rw [countOnes, bit0_bits value isZero, countOnes]
    exact List.count_cons_of_ne (by decide)

theorem countOnes_double_add_one (value : Nat) :
    countOnes (2 * value + 1) = countOnes value + 1 := by
  rw [countOnes, bit1_bits value, countOnes]
  exact List.count_cons_self

theorem countOnes_eq (value : Nat) : countOnes value = countOnes (value / 2) + value % 2 := by
  rcases even_or_odd' value with ⟨half, rfl | rfl⟩
  · rw [countOnes_double, Nat.mul_div_cancel_left half (by omega), mul_mod_right, Nat.add_zero]
  · have isHalf : (2 * half + 1) / 2 = half := by omega
    rw [countOnes_double_add_one, isHalf, mul_add_mod]

theorem countOnes_two_pow_mul (shift value : Nat) :
    countOnes (2 ^ shift * value) = countOnes value := by
  induction shift with
  | zero => rw [pow_zero, Nat.one_mul]
  | succ shift inductionHypothesis =>
    rw [pow_succ', Nat.mul_assoc, countOnes_double, inductionHypothesis]

theorem countOnes_pos (positive : 0 < value) : 0 < countOnes value := by
  obtain ⟨shift, half, isShifted⟩ := exists_shifted_odd positive
  rw [isShifted, Nat.mul_comm, countOnes_two_pow_mul, countOnes_double_add_one]
  omega

theorem countOnes_mod_two_pow_succ (value levels : Nat) :
    countOnes (value % 2 ^ (levels + 1)) = countOnes (value / 2 % 2 ^ levels) + value % 2 := by
  rw [countOnes_eq (value % 2 ^ (levels + 1)), mod_mod_of_dvd _ (dvd_pow_self 2 (succ_ne_zero _)),
    pow_succ', mod_mul_right_div_self]

theorem countOnes_mod_two_pow_le (value levels : Nat) :
    countOnes (value % 2 ^ levels) ≤ levels := by
  induction levels generalizing value with
  | zero =>
    rw [pow_zero, mod_one]
    decide
  | succ levels inductionHypothesis =>
    have atMost := inductionHypothesis (value / 2)
    rw [countOnes_mod_two_pow_succ]
    omega

theorem countOnes_le (value : Nat) : countOnes value ≤ value := by
  have atMost : value.size ≤ value := size_le.mpr Nat.lt_two_pow_self
  rw [← size_eq_bits_len] at atMost
  exact List.count_le_length.trans atMost

end Word64

end LumioNode.Library
