import LumioNode.Library.Table
import Mathlib.Data.Nat.ModEq

/-!
# Parts of an amount in proportion to shares

An amount is divided in proportion to shares, each part rounded down.
-/

namespace LumioNode.Library

/-- What some of the shares are worth. -/
def portion (shares whole amount : Nat) : Nat := shares * amount / whole

variable {shares whole amount newWhole newAmount : Nat}

theorem portion_le (atMost : shares ≤ whole) (amount : Nat) :
    portion shares whole amount ≤ amount := by
  unfold portion
  rcases Nat.eq_zero_or_pos whole with rfl | isPos
  · simp
  · exact Nat.div_le_of_le_mul (Nat.mul_le_mul_right amount atMost)

theorem portion_mul_le (shares whole amount : Nat) :
    portion shares whole amount * whole ≤ shares * amount :=
  Nat.div_mul_le_self _ _

/-- Less than all shares leave something. -/
theorem portion_lt (isLess : shares < whole) (isPos : 0 < amount) :
    portion shares whole amount < amount :=
  Nat.div_lt_of_lt_mul (Nat.mul_lt_mul_of_pos_right isLess isPos)

/-- A higher price per share makes no part worth less. -/
theorem portion_mono (isPos : 0 < newWhole) (price : amount * newWhole ≤ newAmount * whole) :
    portion shares whole amount ≤ portion shares newWhole newAmount := by
  rcases Nat.eq_zero_or_pos whole with rfl | wholePos
  · simp [portion]
  unfold portion
  rw [Nat.le_div_iff_mul_le isPos]
  apply Nat.le_of_mul_le_mul_right _ wholePos
  calc shares * amount / whole * newWhole * whole
      = shares * amount / whole * whole * newWhole := by ring
    _ ≤ shares * amount * newWhole := Nat.mul_le_mul_right _ (Nat.div_mul_le_self _ _)
    _ = shares * (amount * newWhole) := by ring
    _ ≤ shares * (newAmount * whole) := Nat.mul_le_mul_left _ price
    _ = shares * newAmount * whole := by ring

/-- The parts of all holders are at most the amount. -/
theorem total_portion_le {κ : Type} (table : Table κ Nat) (amount : Nat) :
    table.total (fun _ shares => portion shares (table.total fun _ shares => shares) amount) ≤
      amount := by
  have parts (entries : List ((_ : κ) × Nat)) (whole : Nat) :
      (entries.map fun entry => portion entry.2 whole amount).sum ≤
        (entries.map fun entry => entry.2).sum * amount / whole := by
    induction entries with
    | nil => simp
    | cons entry rest inductionHypothesis =>
      simp only [List.map_cons, List.sum_cons, Nat.add_mul]
      exact (Nat.add_le_add_left inductionHypothesis _).trans Nat.div_add_div_le_add_div
  exact (parts table.entries _).trans (portion_le le_rfl amount)

end LumioNode.Library
