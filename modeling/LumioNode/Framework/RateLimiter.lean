import LumioNode.Framework.Move
import Mathlib.Algebra.Order.Floor.Div

/-! # The token bucket

The bucket grows at a constant rate up to the capacity, so grants are bounded by a full
bucket and the refill. -/

namespace LumioNode.Framework

open Library Nat

structure RateLimiter where
  capacity : Nat
  currentAmount : Nat
  refillInterval : Nat
  lastRefillTimestamp : Nat
  fractionalAccumulated : Nat

namespace RateLimiter

variable (limiter : RateLimiter) (currentTime : Nat)

def refill : Except Abort RateLimiter := do
  let timePassed ← minus currentTime limiter.lastRefillTimestamp
  let product ← checked 64 (timePassed * limiter.capacity)
  let accumulatedAmount ← checked 64 (product + limiter.fractionalAccumulated)
  ensure (limiter.refillInterval ≠ 0) .arithmetic
  let amount ← checked 64 (limiter.currentAmount + accumulatedAmount / limiter.refillInterval)
  if limiter.capacity ≤ amount then
    return ⟨limiter.capacity, limiter.capacity, limiter.refillInterval, currentTime, 0⟩
  else
    return ⟨limiter.capacity, amount, limiter.refillInterval, currentTime,
      accumulatedAmount % limiter.refillInterval⟩

def request (numTokenRequested : Nat) : Except Abort (Bool × RateLimiter) := do
  let limiter ← limiter.refill currentTime
  if numTokenRequested ≤ limiter.currentAmount then
    return (true, { limiter with currentAmount := limiter.currentAmount - numTokenRequested })
  else return (false, limiter)

/-- The tokens granted and the state after it; an aborted request changes nothing. -/
def perform (call : Nat × Nat) : Nat × RateLimiter :=
  match limiter.request call.1 call.2 with
  | .ok (granted, after) => (if granted then call.2 else 0, after)
  | .error _ => (0, limiter)

/-- The tokens that requests are granted, which are times and amounts. -/
def granted (limiter : RateLimiter) : List (Nat × Nat) → Nat
  | [] => 0
  | call :: rest => (limiter.perform call).1 + granted (limiter.perform call).2 rest

/-- What is in the bucket, in parts of a token. -/
def level : Nat :=
  limiter.currentAmount * limiter.refillInterval + limiter.fractionalAccumulated

def levelAt : Nat :=
  min (limiter.level + (currentTime - limiter.lastRefillTimestamp) * limiter.capacity)
    (limiter.capacity * limiter.refillInterval)

def filled : RateLimiter :=
  ⟨limiter.capacity, limiter.levelAt currentTime / limiter.refillInterval, limiter.refillInterval,
    currentTime, limiter.levelAt currentTime % limiter.refillInterval⟩

variable {limiter currentTime} {last : Nat}

theorem level_filled : (limiter.filled currentTime).level = limiter.levelAt currentTime := by
  rw [level, filled, Nat.mul_comm]
  exact div_add_mod _ _

theorem refill_spec {refilled : RateLimiter}
    (isRefilled : limiter.refill currentTime = .ok refilled) :
    limiter.lastRefillTimestamp ≤ currentTime ∧ refilled = limiter.filled currentTime := by
  obtain ⟨_, isPassed, isRefilled⟩ := of_bind isRefilled
  obtain ⟨notEarlier, rfl⟩ := minus_eq_ok.mp isPassed
  obtain ⟨_, isProduct, isRefilled⟩ := of_bind isRefilled
  obtain ⟨_, rfl⟩ := checked_eq_ok.mp isProduct
  obtain ⟨accumulated, isAccumulated, isRefilled⟩ := of_bind isRefilled
  obtain ⟨_, isAccumulated⟩ := checked_eq_ok.mp isAccumulated
  obtain ⟨notZero, isRefilled⟩ := of_ensure_bind isRefilled
  obtain ⟨amount, isAmount, isRefilled⟩ := of_bind isRefilled
  obtain ⟨_, isAmount⟩ := checked_eq_ok.mp isAmount
  have positive := Nat.pos_of_ne_zero notZero
  have total : limiter.level + (currentTime - limiter.lastRefillTimestamp) * limiter.capacity =
      accumulated + limiter.currentAmount * limiter.refillInterval := by
    unfold level
    omega
  have whole : (accumulated + limiter.currentAmount * limiter.refillInterval) /
      limiter.refillInterval = amount := by
    rw [add_mul_div_right _ _ positive, Nat.add_comm, isAmount]
  refine ⟨notEarlier, ?_⟩
  rw [filled, levelAt, total]
  split at isRefilled
  · rename_i isFull
    cases isRefilled
    rw [← whole, Nat.le_div_iff_mul_le positive] at isFull
    rw [min_eq_right isFull, Nat.mul_div_cancel _ positive, mul_mod_left]
  · rename_i notFull
    cases isRefilled
    rw [← whole, Nat.le_div_iff_mul_le positive, Nat.not_le] at notFull
    rw [min_eq_left notFull.le, whole, add_mul_mod_self_right]

theorem perform_spec (call : Nat × Nat) : limiter.perform call = (0, limiter) ∨
    limiter.lastRefillTimestamp ≤ call.1 ∧ ∃ paid left,
      paid + left = (limiter.filled call.1).currentAmount ∧
        limiter.perform call = (paid, { limiter.filled call.1 with currentAmount := left }) := by
  cases requested : limiter.request call.1 call.2 with
  | error => exact .inl (by rw [perform, requested])
  | ok result =>
    rw [perform, requested]
    obtain ⟨refilled, isRefilled, requested⟩ := of_bind requested
    obtain ⟨notEarlier, rfl⟩ := refill_spec isRefilled
    refine .inr ⟨notEarlier, ?_⟩
    split at requested
    · rename_i enough
      cases requested
      exact ⟨_, _, add_sub_of_le enough, rfl⟩
    · cases requested
      exact ⟨0, _, Nat.zero_add _, rfl⟩

theorem inflow_split {start middle : Nat} (first : start ≤ middle) (second : middle ≤ last) :
    (last - start) * limiter.capacity =
      (last - middle) * limiter.capacity + (middle - start) * limiter.capacity := by
  rw [← Nat.add_mul, Nat.sub_add_sub_cancel second first]

theorem levelAt_le {start : Nat} (refilled : limiter.lastRefillTimestamp ≤ start)
    (inOrder : start ≤ currentTime) : limiter.levelAt currentTime ≤
      limiter.levelAt start + (currentTime - start) * limiter.capacity := by
  rw [levelAt, levelAt, inflow_split refilled inOrder]
  omega

/-- What is granted was in the bucket at the start or has come in since. -/
theorem granted_le {start : Nat} (calls : List (Nat × Nat))
    (refilled : limiter.lastRefillTimestamp ≤ start) (inTime : ∀ call ∈ calls,
      call.1 ≤ last ∧ (limiter.lastRefillTimestamp ≤ call.1 → start ≤ call.1)) :
    limiter.granted calls * limiter.refillInterval ≤
      limiter.levelAt start + (last - start) * limiter.capacity := by
  induction calls generalizing limiter start with
  | nil => simp [granted]
  | cons call rest inductionHypothesis =>
    obtain ⟨⟨isInTime, isLate⟩, restInTime⟩ := List.forall_mem_cons.mp inTime
    rcases perform_spec call with aborted | ⟨notEarlier, paid, left, isPaid, performed⟩
    · rw [granted, aborted, Nat.zero_add]
      exact inductionHypothesis refilled restInTime
    · have restGranted := @inductionHypothesis
        { limiter.filled call.1 with currentAmount := left } call.1 le_rfl
        fun later isLater => ⟨(restInTime later isLater).1, id⟩
      have isLevel := @level_filled limiter call.1
      have accrued := levelAt_le refilled (isLate notEarlier)
      rw [level, ← isPaid, Nat.add_mul] at isLevel
      rw [granted, performed, Nat.add_mul, inflow_split (isLate notEarlier) isInTime]
      simp only [levelAt, level, filled, Nat.sub_self,
        Nat.zero_mul] at restGranted isLevel accrued ⊢
      omega

theorem filled_filled {earlier : Nat} (notEarlier : limiter.lastRefillTimestamp ≤ earlier)
    (inOrder : earlier ≤ currentTime) :
    (limiter.filled earlier).filled currentTime = limiter.filled currentTime := by
  have isLevel : (limiter.filled earlier).levelAt currentTime = limiter.levelAt currentTime := by
    rw [levelAt, level_filled, levelAt, levelAt, inflow_split notEarlier inOrder]
    simp only [filled]
    omega
  rw [filled, isLevel]
  rfl

theorem eq_filled_of_refills {middle later : RateLimiter} (times : List Nat)
    (areRefilled : times.foldlM refill limiter = .ok middle)
    (isRefilled : middle.refill currentTime = .ok later) :
    limiter.lastRefillTimestamp ≤ currentTime ∧ later = limiter.filled currentTime := by
  induction times generalizing limiter with
  | nil =>
    cases areRefilled
    exact refill_spec isRefilled
  | cons time times inductionHypothesis =>
    obtain ⟨next, isNext, areRefilled⟩ := of_bind areRefilled
    obtain ⟨notEarlier, rfl⟩ := refill_spec isNext
    obtain ⟨inOrder, rfl⟩ := inductionHypothesis areRefilled
    exact ⟨notEarlier.trans inOrder, filled_filled notEarlier inOrder⟩

/-- Within a span at most a full bucket and the refill are granted, and refills in between make
no difference. -/
theorem bucket_limits_and_keeps : (∀ (limiter : RateLimiter) first last calls,
      limiter.refillInterval ≠ 0 → (∀ call ∈ calls, first ≤ call.1 ∧ call.1 ≤ last) →
        limiter.granted calls ≤
          limiter.capacity + ((last - first) * limiter.capacity) ⌈/⌉ limiter.refillInterval) ∧
    ∀ (limiter direct middle later : RateLimiter) time times,
      limiter.refill time = .ok direct → List.foldlM refill limiter times = .ok middle →
        middle.refill time = .ok later → later = direct := by
  constructor
  · intro limiter first last calls notZero within
    have isGranted := @granted_le limiter last (max first limiter.lastRefillTimestamp) calls
      (Nat.le_max_right _ _) fun call isCall =>
        ⟨(within call isCall).2, Nat.max_le_of_le_of_le (within call isCall).1⟩
    have atMostFull : limiter.levelAt (max first limiter.lastRefillTimestamp) ≤
        limiter.capacity * limiter.refillInterval := Nat.min_le_right _ _
    have shorter := Nat.mul_le_mul_right limiter.capacity
      (Nat.sub_le_sub_left (Nat.le_max_left first limiter.lastRefillTimestamp) last)
    have positive := Nat.pos_of_ne_zero notZero
    rw [ceilDiv_eq_add_pred_div, ← mul_add_div positive, Nat.le_div_iff_mul_le positive,
      Nat.mul_comm limiter.refillInterval]
    omega
  · intro limiter direct middle later time times isDirect areRefilled isRefilled
    rw [(eq_filled_of_refills times areRefilled isRefilled).2, (refill_spec isDirect).2]

theorem ten_tokens_a_minute :
    granted ⟨10, 3, 60, 20, 0⟩ [(30, 5), (60, 8)] ≤ 10 + ((60 - 30) * 10) ⌈/⌉ 60 ∧
      ∀ later, refill ⟨10, 7, 60, 47, 30⟩ 60 = .ok later → later = ⟨10, 9, 60, 60, 40⟩ :=
  ⟨bucket_limits_and_keeps.1 ⟨10, 3, 60, 20, 0⟩ 30 60 _ (by decide) (by decide),
    fun later => bucket_limits_and_keeps.2 ⟨10, 3, 60, 20, 0⟩ _ _ later 60 [25, 31, 47] rfl rfl⟩

end RateLimiter

end LumioNode.Framework
