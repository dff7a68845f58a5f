import LumioNode.Framework.Move
import Mathlib.Data.Nat.Log
import Mathlib.Tactic.Linarith
import Mathlib.Tactic.Positivity

/-! # Integer powers, logarithms and roots

`math64` and `math128`, over the width.  A Newton step from above squares the relative
error, and the last one ends at the root or the next integer. -/

namespace LumioNode.Framework

open Library

namespace Math

variable (width : Nat)

def powLoop (p n e : Nat) : Except Abort Nat :=
  if 1 < e then do
    let p ← if e % 2 = 1 then checked width (p * n) else .ok p
    let n ← checked width (n * n)
    powLoop p n (e / 2)
  else checked width (p * n)
termination_by e

def pow (n e : Nat) : Except Abort Nat := if e = 0 then .ok 1 else powLoop width 1 n e

/-- The loop of `floor_log2`, whose result is a `u8`. -/
def logLoop (n x res : Nat) : Except Abort Nat :=
  if 0 < n then
    if 1 <<< n ≤ x then do
      let res ← checked 8 (res + n)
      logLoop (n >>> 1) (x >>> n) res
    else logLoop (n >>> 1) x res
  else .ok res
termination_by n
decreasing_by all_goals
  rw [Nat.shiftRight_one]
  omega

def floorLog2 (x : Nat) : Except Abort Nat :=
  if x = 0 then .error (.invalidArgument 1) else logLoop (width / 2) x 0

def divide (left right : Nat) : Except Abort Nat :=
  if right = 0 then .error .arithmetic else .ok (left / right)

def newton (x : Nat) : Nat → Nat → Except Abort Nat
  | 0, res => .ok res
  | steps + 1, res => do
    let quotient ← divide x res
    let sum ← checked width (res + quotient)
    newton x steps (sum >>> 1)

def sqrt (steps x : Nat) : Except Abort Nat :=
  if x = 0 then .ok 0
  else do
    let log ← floorLog2 width x
    let res ← newton width x steps (1 <<< ((log + 1) >>> 1))
    let quotient ← divide x res
    return min res quotient

variable {width : Nat}

theorem checked_bind_eq {value total : Nat} {next : Nat → Except Abort Nat}
    (less : value ≤ total) (rest : next value = checked width total) :
    (checked width value >>= next) = checked width total := by
  by_cases fits : value < 2 ^ width
  · rw [checked_of fits, ok_bind, rest]
  · rw [checked, if_neg fits, checked, if_neg (by omega)]
    rfl

theorem powLoop_eq {p n e : Nat} (some : 0 < e) (positive : n ≠ 0 → 0 < p) :
    powLoop width p n e = checked width (p * n ^ e) := by
  induction e using Nat.strong_induction_on generalizing p n with
  | h e inductionHypothesis =>
    rw [powLoop]
    split
    · have split : n ^ e = (n * n) ^ (e / 2) * n ^ (e % 2) := by
        rw [← pow_two, ← pow_mul, ← pow_add, Nat.div_add_mod]
      have square : n * n ≤ p * n ^ e := by
        by_cases isZero : n = 0
        · simp [isZero]
        · rw [← pow_two]
          exact le_trans (Nat.pow_le_pow_right (Nat.pos_of_ne_zero isZero) (by omega))
            (Nat.le_mul_of_pos_left _ (positive isZero))
      split
      · rename_i odd
        apply checked_bind_eq (Nat.mul_le_mul_left p (Nat.le_self_pow (by omega) n))
        apply checked_bind_eq square
        rw [inductionHypothesis (e / 2) (by omega) (by omega) (by simp_all [Nat.pos_iff_ne_zero]),
          split, odd]
        congr 1
        ring
      · apply checked_bind_eq square
        rw [inductionHypothesis (e / 2) (by omega) (by omega) (by simp_all), split,
          show e % 2 = 0 by omega, pow_zero, Nat.mul_one]
    · rw [show e = 1 by omega, pow_one]

theorem pow_eq (wide : 0 < width) (n e : Nat) : pow width n e = checked width (n ^ e) := by
  unfold pow
  split
  · rename_i isZero
    rw [isZero, pow_zero, checked_of (Nat.one_lt_two_pow (by omega))]
  · rw [powLoop_eq (by omega) (by simp), Nat.one_mul]

theorem logLoop_eq {bits x res : Nat} (positive : 0 < x) (small : x < 2 ^ 2 ^ bits)
    (fits : res + 2 ^ bits ≤ 2 ^ 8) : ∃ log, logLoop (2 ^ bits >>> 1) x res = .ok (res + log) ∧
      2 ^ log ≤ x ∧ x < 2 ^ (log + 1) := by
  induction bits generalizing x res with
  | zero =>
    rw [logLoop]
    exact ⟨0, rfl, positive, small⟩
  | succ bits inductionHypothesis =>
    have power : 0 < 2 ^ bits := Nat.two_pow_pos bits
    have half : 2 ^ (bits + 1) >>> 1 = 2 ^ bits := by
      rw [Nat.shiftRight_one, pow_succ]
      omega
    rw [logLoop, half, if_pos power, Nat.shiftLeft_eq, Nat.one_mul]
    rw [pow_succ, Nat.mul_two] at small fits
    split
    · rename_i large
      have some := Nat.div_pos large (Nat.two_pow_pos _)
      have less : x / 2 ^ 2 ^ bits < 2 ^ 2 ^ bits :=
        Nat.div_lt_of_lt_mul (by rwa [← pow_add])
      obtain ⟨log, isLog, atLeast, below⟩ := inductionHypothesis some less
        (show res + 2 ^ bits + 2 ^ bits ≤ 2 ^ 8 by omega)
      rw [Nat.le_div_iff_mul_le (Nat.two_pow_pos _), ← pow_add] at atLeast
      rw [Nat.div_lt_iff_lt_mul (Nat.two_pow_pos _), ← pow_add] at below
      refine ⟨log + 2 ^ bits, ?_, atLeast, by rwa [Nat.add_right_comm] at below⟩
      rw [checked_of (by omega), ok_bind, Nat.shiftRight_eq_div_pow x, isLog]
      congr 1
      omega
    · exact inductionHypothesis positive (by omega) (by omega)

theorem floorLog2_eq (bits : Nat) (isWidth : width = 2 ^ bits) (narrow : bits ≤ 8) {x : Nat}
    (positive : 0 < x) (fits : x < 2 ^ width) : floorLog2 width x = .ok (Nat.log 2 x) := by
  have few : 2 ^ bits ≤ 2 ^ 8 := Nat.pow_le_pow_right (by omega) narrow
  subst isWidth
  obtain ⟨log, isLog, atLeast, below⟩ := logLoop_eq positive fits
    (show 0 + 2 ^ bits ≤ 2 ^ 8 by omega)
  rw [floorLog2, if_neg (by omega), ← Nat.shiftRight_one, isLog, Nat.zero_add,
    Nat.log_eq_of_pow_le_of_lt_pow atLeast below]

/-! ## Newton steps -/

def step (x res : Nat) : Nat := (res + x / res) / 2

variable {x r q : Nat}

theorem step_le (x r : Nat) : 2 * r * step x r ≤ r * r + x := by
  have half : 2 * step x r ≤ r + x / r := by
    unfold step
    omega
  have quotient := Nat.mul_div_le x r
  nlinarith

theorem sqrt_le_step (positive : 0 < r) : x.sqrt ≤ step x r := by
  have square := Nat.sqrt_le x
  have quotient : 2 * x.sqrt - r ≤ x / r := by
    rw [Nat.le_div_iff_mul_le positive]
    rcases le_total (2 * x.sqrt) r with less | more
    · simp [Nat.sub_eq_zero_of_le less]
    · obtain ⟨rest, isRest⟩ := Nat.exists_eq_add_of_le more
      rw [isRest, Nat.add_sub_cancel_left]
      zify at *
      nlinarith [sq_nonneg ((rest : ℤ) - r)]
  unfold step
  omega

/-- Not below the root, and above the next integer by at most a `q`-th of it. -/
def Close (x q r : Nat) : Prop := x.sqrt ≤ r ∧ q * (r - (x.sqrt + 1)) ≤ x.sqrt + 1

/-- A step squares the distance to the integer after the root. -/
theorem excess_step (root : 0 < x.sqrt) (atLeast : x.sqrt ≤ r) :
    2 * (x.sqrt + 1) * (step x r - (x.sqrt + 1)) ≤ (r - (x.sqrt + 1)) ^ 2 := by
  have bound := step_le x r
  have below := Nat.lt_succ_sqrt x
  generalize step x r = next at *
  rcases le_total next (x.sqrt + 1) with within | beyond
  · simp [Nat.sub_eq_zero_of_le within]
  · obtain ⟨excess, rfl⟩ := Nat.exists_eq_add_of_le beyond
    rcases eq_or_lt_of_le atLeast with rfl | above
    · have none : excess = 0 := by nlinarith
      simp [none]
    · obtain ⟨gap, rfl⟩ := Nat.exists_eq_add_of_le above
      simp only [Nat.succ_eq_add_one, Nat.add_sub_cancel_left] at *
      nlinarith

theorem Close.step (root : 0 < x.sqrt) (close : Close x q r) : Close x (q ^ 2) (step x r) := by
  obtain ⟨atLeast, near⟩ := close
  refine ⟨sqrt_le_step (by omega), Nat.le_of_mul_le_mul_left ?_ (Nat.succ_pos x.sqrt)⟩
  have excess := excess_step root atLeast
  generalize Math.step x r - (x.sqrt + 1) = after at *
  calc (x.sqrt + 1) * (q ^ 2 * after)
      ≤ q ^ 2 * (2 * (x.sqrt + 1) * after) := by
        nlinarith [Nat.zero_le (q ^ 2 * ((x.sqrt + 1) * after))]
    _ ≤ q ^ 2 * (r - (x.sqrt + 1)) ^ 2 := Nat.mul_le_mul_left _ excess
    _ ≤ (x.sqrt + 1) * (x.sqrt + 1) := by
      rw [← mul_pow, ← pow_two]
      exact Nat.pow_le_pow_left near 2

/-- After this step only the root and the next integer are left. -/
theorem Close.last (root : 0 < x.sqrt) (close : Close x q r) (precise : x.sqrt < q ^ 2) :
    Math.step x r = x.sqrt ∨ Math.step x r = x.sqrt + 1 ∧ x.sqrt * (x.sqrt + 1) ≤ x := by
  obtain ⟨atLeast, near⟩ := close
  have bound := step_le x r
  have lower := @sqrt_le_step x r (by omega)
  have excess := excess_step root atLeast
  have small : (r - (x.sqrt + 1)) ^ 2 ≤ x.sqrt + 1 := by
    have square := Nat.pow_le_pow_left near 2
    rw [mul_pow] at square
    by_contra more
    nlinarith [Nat.mul_le_mul precise (not_le.mp more)]
  generalize Math.step x r = last at *
  have within : last ≤ x.sqrt + 1 := by
    by_contra beyond
    nlinarith [Nat.mul_le_mul_left (2 * (x.sqrt + 1)) (show 1 ≤ last - (x.sqrt + 1) by omega)]
  rcases eq_or_lt_of_le within with rfl | isRoot
  · refine .inr ⟨rfl, ?_⟩
    rcases eq_or_lt_of_le atLeast with rfl | above
    · nlinarith
    · obtain ⟨gap, rfl⟩ := Nat.exists_eq_add_of_le above
      simp only [Nat.succ_eq_add_one, Nat.add_sub_cancel_left] at *
      nlinarith
  · exact .inl (by omega)

theorem newton_succ {steps : Nat} (positive : 0 < r) (fits : 2 * step x r + 1 < 2 ^ width) :
    newton width x (steps + 1) r = newton width x steps (step x r) := by
  have sum : r + x / r < 2 ^ width := by
    unfold step at fits
    omega
  rw [newton, divide, if_neg (by omega), ok_bind, checked_of sum, ok_bind, Nat.shiftRight_one]
  rfl

theorem Close.le (close : Close x q r) (some : 0 < q) : r ≤ 2 * (x.sqrt + 1) := by
  have excess := le_trans (Nat.le_mul_of_pos_left _ some) close.2
  omega

theorem Close.newton_eq {steps : Nat} (root : 0 < x.sqrt) (close : Close x q r) (some : 0 < q)
    (wide : 5 * (x.sqrt + 1) < 2 ^ width) (precise : x.sqrt < q ^ 2 ^ (steps + 1)) :
    ∃ last, newton width x (steps + 1) r = .ok last ∧
      (last = x.sqrt ∨ last = x.sqrt + 1 ∧ x.sqrt * (x.sqrt + 1) ≤ x) := by
  induction steps generalizing q r with
  | zero =>
    have small := (close.step root).le (by positivity)
    rw [newton_succ (root.trans_le close.1) (by omega)]
    exact ⟨_, rfl, close.last root precise⟩
  | succ steps inductionHypothesis =>
    have small := (close.step root).le (by positivity)
    rw [newton_succ (root.trans_le close.1) (by omega)]
    exact inductionHypothesis (close.step root) (by positivity) (by rwa [← pow_mul, ← pow_succ'])

/-- The power of two from which the steps start. -/
theorem close_start {log : Nat} (atLeast : 2 ^ log ≤ x) (below : x < 2 ^ (log + 1)) :
    Close x 16 (step x (2 ^ ((log + 1) / 2))) := by
  have positive := Nat.two_pow_pos ((log + 1) / 2)
  have lower : 2 ^ ((log + 1) / 2) * 2 ^ ((log + 1) / 2) ≤ 2 ^ (log + 1) := by
    rw [← pow_add]
    exact Nat.pow_le_pow_right (by omega) (by omega)
  have upper : 2 ^ (log + 1) ≤ 2 * (2 ^ ((log + 1) / 2) * 2 ^ ((log + 1) / 2)) := by
    rw [← pow_add, ← pow_succ']
    exact Nat.pow_le_pow_right (by omega) (by omega)
  rw [pow_succ] at below lower upper
  generalize 2 ^ ((log + 1) / 2) = start at *
  have bound := step_le x start
  have root := Nat.lt_succ_sqrt x
  have first : 8 * (step x start * step x start) ≤ 9 * x := by
    apply Nat.le_of_mul_le_mul_left _ (Nat.mul_pos positive positive)
    nlinarith [Nat.pow_le_pow_left bound 2]
  refine ⟨sqrt_le_step positive, ?_⟩
  have near : 16 * step x start < 17 * (x.sqrt + 1) := by
    by_contra more
    nlinarith
  omega

theorem sqrt_eq (bits steps : Nat) (isWidth : width = 2 ^ bits) (narrow : bits ≤ 8)
    (fits : x < 2 ^ width) (wide : 5 * (x.sqrt + 1) < 2 ^ width)
    (precise : x.sqrt < 16 ^ 2 ^ (steps + 1)) : sqrt width (steps + 2) x = .ok x.sqrt := by
  unfold sqrt
  split
  · rename_i isZero
    simp [isZero]
  · rename_i notZero
    have positive : 0 < x := by omega
    have close := close_start (Nat.pow_log_le_self 2 notZero)
      (Nat.lt_pow_succ_log_self (by omega) x)
    have root : 0 < x.sqrt := Nat.sqrt_pos.mpr positive
    obtain ⟨last, stepped, isLast⟩ := close.newton_eq root (by omega) wide precise
    have small := close.le (by omega)
    rw [floorLog2_eq bits isWidth narrow positive fits, ok_bind, Nat.shiftRight_one,
      Nat.shiftLeft_eq, Nat.one_mul, newton_succ (Nat.two_pow_pos _) (by omega), stepped, ok_bind,
      divide, if_neg (by omega), ok_bind]
    apply congrArg Except.ok
    rcases isLast with rfl | ⟨rfl, enough⟩
    · exact min_eq_left ((Nat.le_div_iff_mul_le root).mpr (Nat.sqrt_le x))
    · rw [Nat.div_eq_of_lt_le enough (Nat.lt_succ_sqrt x), min_eq_right (by omega)]

end Math

namespace Math64

def pow (n e : Nat) : Except Abort Nat := Math.pow 64 n e

def floorLog2 (x : Nat) : Except Abort Nat := Math.floorLog2 64 x

def sqrt (x : Nat) : Except Abort Nat := Math.sqrt 64 4 x

end Math64

namespace Math128

def pow (n e : Nat) : Except Abort Nat := Math.pow 128 n e

def floorLog2 (x : Nat) : Except Abort Nat := Math.floorLog2 128 x

def sqrt (x : Nat) : Except Abort Nat := Math.sqrt 128 5 x

end Math128

theorem roots_logs_and_powers_exact :
    (∀ x < 2 ^ 64, Math64.sqrt x = .ok x.sqrt) ∧ (∀ x < 2 ^ 128, Math128.sqrt x = .ok x.sqrt) ∧
    (∀ x < 2 ^ 64, 0 < x → Math64.floorLog2 x = .ok (Nat.log 2 x)) ∧
    (∀ x < 2 ^ 128, 0 < x → Math128.floorLog2 x = .ok (Nat.log 2 x)) ∧
    ∀ n e, Math64.pow n e = checked 64 (n ^ e) ∧ Math128.pow n e = checked 128 (n ^ e) := by
  refine ⟨fun x fits => ?_, fun x fits => ?_, fun x fits positive => ?_, fun x fits positive => ?_,
    fun n e => ⟨Math.pow_eq (by omega) n e, Math.pow_eq (by omega) n e⟩⟩
  · have small : x.sqrt < 2 ^ 32 := Nat.sqrt_lt.mpr fits
    exact Math.sqrt_eq 6 2 rfl (by omega) fits (by omega)
      (small.trans_le (by decide))
  · have small : x.sqrt < 2 ^ 64 := Nat.sqrt_lt.mpr fits
    exact Math.sqrt_eq 7 3 rfl (by omega) fits (by omega)
      (small.trans_le (by decide))
  · exact Math.floorLog2_eq 6 rfl (by omega) positive fits
  · exact Math.floorLog2_eq 7 rfl (by omega) positive fits

end LumioNode.Framework
