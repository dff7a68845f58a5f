import LumioNode.Dkg.Rounding
import Mathlib.Order.Lattice.Nat

/-! # Thresholds of the returned configuration

Too little stake never reaches the threshold.  The check of the search leaves out that
the threshold is rounded up and raised by one, so enough stake need not. -/

namespace LumioNode.Dkg

open Library Library.U64F64 DKGRounding DKGRoundingProfile Nat

section Paths

variable {stakes : List Nat} {secrecy reconstruct : Nat}
  {fastSecrecy : Option Nat} {profile best : DKGRoundingProfile} {fuel low high : Nat}
  {profileOf : Nat → Except Fault DKGRoundingProfile}

/-! ## The search -/

variable {weight perWeight : Nat}

theorem stakePerWeightOf_eq_ok {total : Nat}
    (isOk : stakePerWeightOf total weight = .ok perWeight) :
    0 < weight ∧ perWeight = max scale (total * scale / weight) := by
  replace isOk := of_checked_bind isOk
  replace isOk := of_checked_bind isOk
  obtain ⟨quotient, isQuotient, isOk⟩ := of_bind isOk
  obtain ⟨positive, rfl⟩ := div_eq_ok isQuotient
  cases isOk
  rw [Nat.mul_div_mul_right _ _ (by decide)]
  exact ⟨Nat.pos_of_mul_pos_right positive, rfl⟩

theorem enough_of_stakePerWeightOf (areStaked : ∀ stake ∈ stakes, 0 < stake)
    (isOk : stakePerWeightOf stakes.sum weight = .ok perWeight)
    (isEnough : stakes.length ≤ weight) : stakes.length * perWeight ≤ stakes.sum * scale := by
  obtain ⟨_, rfl⟩ := stakePerWeightOf_eq_ok isOk
  rw [← Nat.mul_max_mul_left]
  exact max_le (Nat.mul_le_mul_right _ (List.length_le_sum_of_one_le _ areStaked))
    ((Nat.mul_le_mul_right _ isEnough).trans (mul_div_le _ _))

theorem searchProfile_eq_ok
    (isOk : searchProfile profileOf reconstruct fuel low high best = .ok profile) :
    profile = best ∨ ∃ weight, low ≤ weight ∧ weight ≤ high ∧ profileOf weight = .ok profile := by
  induction fuel generalizing low high best with
  | zero =>
    obtain ⟨_, _, isOk⟩ := of_bind isOk
    cases isOk
    exact .inl rfl
  | succ fuel inductionHypothesis =>
    unfold searchProfile at isOk
    split at isOk
    case isFalse =>
        cases isOk
        exact .inl rfl
    case isTrue inRange =>
        obtain ⟨found, isFound, isOk⟩ := of_bind isOk
        split at isOk
        · obtain ⟨nextHigh, isNext, isOk⟩ := of_bind isOk
          obtain ⟨_, rfl⟩ := sub_eq_ok isNext
          rcases inductionHypothesis isOk with
            rfl | ⟨weight, isLow, isHigh, isProfile⟩
          · exact .inr ⟨_, by omega, by omega, isFound⟩
          · exact .inr ⟨weight, isLow, by omega, isProfile⟩
        · rcases inductionHypothesis isOk with
            isBest | ⟨weight, isLow, isHigh, isProfile⟩
          · exact .inl isBest
          · exact .inr ⟨weight, by omega, isHigh, isProfile⟩

/-- The fuel of the search suffices: more of it changes nothing. -/
theorem searchProfile_fuel {more : Nat} (enough : high + 1 - low ≤ fuel) :
    searchProfile profileOf reconstruct (fuel + more) low high best =
      searchProfile profileOf reconstruct fuel low high best := by
  induction fuel generalizing low high best with
  | zero =>
    have isEmpty : high < low := by omega
    cases more with
    | zero => rfl
    | succ more =>
      rw [searchProfile, ensure_of isEmpty, ok_bind, Nat.zero_add, searchProfile,
        if_neg (by omega)]
  | succ fuel inductionHypothesis =>
    rw [Nat.succ_add, searchProfile, searchProfile]
    split
    case isFalse => rfl
    case isTrue inRange =>
      refine congrArg (_ >>= ·) (funext fun profile => ?_)
      split
      · rw [checkedSub]
        split
        · exact inductionHypothesis (by omega)
        · rfl
      · exact inductionHypothesis (by omega)

/-- The search returns an accepted profile for a weight of its range. -/
theorem DKGRoundingProfile.new_eq_ok {totalWeightMin totalWeightMax : Nat}
    (isOk : new stakes totalWeightMin totalWeightMax secrecy
      reconstruct fastSecrecy = .ok profile) :
    isValidProfile profile reconstruct = true ∧
      ∃ weight, totalWeightMin ≤ weight ∧ weight ≤ totalWeightMax ∧
        profileFor stakes stakes.sum secrecy fastSecrecy weight = .ok profile := by
  obtain ⟨_, _, isOk⟩ := of_bind isOk
  obtain ⟨range, isOk⟩ := of_ensure_bind isOk
  obtain ⟨three, _, isOk⟩ := of_bind isOk
  obtain ⟨tripleSecrecy, _, isOk⟩ := of_bind isOk
  obtain ⟨_, _, isOk⟩ := of_bind isOk
  obtain ⟨_, _, isOk⟩ := of_bind isOk
  obtain ⟨tripleReconstruct, _, isOk⟩ := of_bind isOk
  obtain ⟨_, _, isOk⟩ := of_bind isOk
  obtain ⟨total, isTotal, isOk⟩ := of_bind isOk
  cases sumU64_eq_ok isTotal
  obtain ⟨first, isFirst, isOk⟩ := of_bind isOk
  split at isOk
  case isTrue isValid =>
      cases isOk
      exact ⟨isValid, totalWeightMin, le_rfl, range, isFirst⟩
  case isFalse =>
      obtain ⟨best, isBest, isOk⟩ := of_bind isOk
      obtain ⟨isValid, isOk⟩ := of_ensure_bind isOk
      cases isOk
      refine ⟨isValid, ?_⟩
      rcases searchProfile_eq_ok isBest with rfl | found
      · exact ⟨totalWeightMin, le_rfl, range, isFirst⟩
      · exact found

theorem fair_of_isValidProfile (hasStake : 0 < stakes.sum)
    (rounded : Rounded stakes perWeight secrecy fastSecrecy profile)
    (isEnough : stakes.length * perWeight ≤ stakes.sum * scale)
    (isValid : isValidProfile profile reconstruct = true) :
    Fair stakes perWeight secrecy reconstruct := by
  refine ⟨isEnough, ?_⟩
  unfold isValidProfile at isValid
  rw [Bool.and_eq_true, decide_eq_true_eq, rounded.ratio] at isValid
  have isSmall := lt_succ_of_le (Nat.le_sub_of_add_le' isValid.1)
  rw [Nat.div_lt_iff_lt_mul hasStake, Nat.div_lt_iff_lt_mul (by decide)] at isSmall
  exact isSmall

/-! ## The infallible profile -/

/-- Rounding up makes up for what the division cut off. -/
theorem le_mul_roundedUp (numerator : Nat) {gap : Nat} (positive : 0 < gap)
    (isSmall : gap ≤ scale) :
    numerator ≤ gap * ((numerator * scale / gap + (scale - 1)) / scale) := by
  have cutOff := lt_mul_div_succ (numerator * scale) positive
  have rises : gap * (numerator * scale / gap) ≤
      gap * ((numerator * scale / gap + (scale - 1)) / scale) * scale := by
    rw [Nat.mul_assoc]
    refine Nat.mul_le_mul_left _ ?_
    unfold scale
    omega
  rw [Nat.mul_add gap, Nat.mul_one] at cutOff
  have isMore : numerator * scale < (gap * ((numerator * scale / gap + (scale - 1)) / scale) + 1) *
      scale := by
    rw [Nat.add_mul, Nat.one_mul]
    omega
  exact le_of_lt_succ (Nat.lt_of_mul_lt_mul_right isMore)

theorem totalWeightUpperBound_eq_ok
    (ordered : secrecy < reconstruct) (isSmall : reconstruct ≤ scale)
    (isOk : totalWeightUpperBound stakes reconstruct secrecy = .ok weight) :
    stakes.length < scale ∧ stakes.length * (scale / 2) + 2 * scale ≤
        (reconstruct - secrecy) * weight := by
  replace isOk := of_checked_bind isOk
  replace isOk := of_checked_bind isOk
  obtain ⟨n, isN, isOk⟩ := of_bind isOk
  have fits : stakes.length * scale < 2 ^ 128 := (of_ensure_bind isN).1
  cases checked_eq_ok isN
  obtain ⟨half, isHalf, isOk⟩ := of_bind isOk
  obtain ⟨_, rfl⟩ := div_eq_ok isHalf
  rw [Nat.mul_div_mul_right _ _ (by decide)] at isOk
  replace isOk := of_checked_bind isOk
  obtain ⟨gap, isGap, isOk⟩ := of_bind isOk
  obtain ⟨_, rfl⟩ := sub_eq_ok isGap
  rw [max_eq_left ordered] at isOk
  obtain ⟨quotient, isQuotient, isOk⟩ := of_bind isOk
  obtain ⟨positive, rfl⟩ := div_eq_ok isQuotient
  replace isOk := of_checked_bind isOk
  cases isOk
  rw [toNum, Nat.mul_div_cancel _ (by decide)]
  refine ⟨by unfold scale at fits ⊢; omega, ?_⟩
  rw [← Nat.mul_div_assoc _ (by decide)]
  exact le_mul_roundedUp _ positive ((sub_le _ _).trans isSmall)

/-- With the estimated total weight the gap is large enough for any rounding. -/
theorem leavesRoom_of_upperBound (ordered : secrecy < reconstruct) (isSmall : reconstruct ≤ scale)
    (isWeight : totalWeightUpperBound stakes reconstruct secrecy = .ok weight)
    (isPerWeight : perWeight * weight ≤ stakes.sum * scale) :
    LeavesRoom stakes perWeight secrecy reconstruct := by
  obtain ⟨few, bound⟩ := totalWeightUpperBound_eq_ok ordered isSmall isWeight
  have rounding := delta_le stakes perWeight
  calc _ ≤ perWeight * ((reconstruct - secrecy) * weight) :=
        Nat.mul_le_mul_left _ (by omega)
    _ = (reconstruct - secrecy) * (perWeight * weight) := by ring
    _ ≤ (reconstruct - secrecy) * (stakes.sum * scale) := Nat.mul_le_mul_left _ isPerWeight
    _ = _ := by ring

theorem fair_of_leavesRoom (hasStake : 0 < stakes.sum)
    (isEnough : stakes.length * perWeight ≤ stakes.sum * scale)
    (room : LeavesRoom stakes perWeight secrecy reconstruct) :
    Fair stakes perWeight secrecy reconstruct := by
  refine ⟨isEnough, ?_⟩
  refine ((Nat.mul_le_mul_left perWeight ?_).trans room).trans_lt ?_
  · omega
  · exact Nat.mul_lt_mul_of_pos_right
      (Nat.mul_lt_mul_of_pos_right (lt_succ_self _) hasStake) (by decide)

theorem DKGRoundingProfile.infallible_eq_ok (ordered : secrecy < reconstruct)
    (isSmall : reconstruct ≤ scale) (isNear : 2 * (reconstruct - secrecy) ≤ scale)
    (isOk : infallible stakes secrecy reconstruct fastSecrecy = .ok profile) :
    ∃ perWeight, Rounded stakes perWeight secrecy fastSecrecy profile ∧
      stakes.length * perWeight ≤ stakes.sum * scale ∧
      LeavesRoom stakes perWeight secrecy reconstruct := by
  unfold infallible at isOk
  simp only [min_eq_right (ordered.le.trans isSmall), min_eq_right isSmall,
    max_eq_right ordered.le] at isOk
  obtain ⟨total, isTotal, isOk⟩ := of_bind isOk
  cases sumU64_eq_ok isTotal
  replace isOk := of_checked_bind isOk
  obtain ⟨estimated, isEstimated, isOk⟩ := of_bind isOk
  replace isOk := of_checked_bind isOk
  obtain ⟨perWeight, isPerWeight, isOk⟩ := of_bind isOk
  obtain ⟨_, rfl⟩ := div_eq_ok isPerWeight
  rw [Nat.mul_div_mul_right _ _ (by decide)] at isOk
  have isPer := div_mul_le_self (stakes.sum * scale) estimated
  obtain ⟨_, bound⟩ := totalWeightUpperBound_eq_ok ordered isSmall isEstimated
  have isEnough : stakes.length ≤ estimated := by
    have half := Nat.mul_le_mul_right estimated isNear
    rw [Nat.mul_assoc] at half
    refine Nat.le_of_mul_le_mul_left (c := scale) ?_ (by decide)
    unfold scale at *
    omega
  refine ⟨_, computeProfileFixedPoint_eq_ok isOk, ?_,
    leavesRoom_of_upperBound ordered isSmall isEstimated isPer⟩
  rw [Nat.mul_comm]
  exact (Nat.mul_le_mul_left _ isEnough).trans isPer

/-! ## The configuration -/

theorem DKGRounding.new_eq_ok {rounding : DKGRounding} (ordered : secrecy < reconstruct)
    (isOk : new stakes secrecy reconstruct fastSecrecy = .ok rounding) :
    rounding.wconfig = ⟨rounding.profile.reconstructThresholdInWeights,
        rounding.profile.validatorWeights⟩ ∧
      ∃ totalWeightMax, totalWeightUpperBound stakes reconstruct secrecy = .ok totalWeightMax ∧
        profileOrInfallible stakes secrecy reconstruct fastSecrecy
          totalWeightMax = .ok rounding.profile := by
  replace isOk := of_checked_bind isOk
  simp only [max_eq_left (succ_le_of_lt ordered)] at isOk
  obtain ⟨totalWeightMax, isMax, isOk⟩ := of_bind isOk
  obtain ⟨profile, isProfile, isOk⟩ := of_bind isOk
  obtain ⟨wconfig, isConfig, isOk⟩ := of_bind isOk
  have isWconfig : wconfig = ⟨profile.reconstructThresholdInWeights, profile.validatorWeights⟩ := by
    obtain ⟨_, _, isConfig⟩ := of_bind isConfig
    obtain ⟨_, _, isConfig⟩ := of_bind isConfig
    obtain ⟨_, _, isConfig⟩ := of_bind isConfig
    cases isConfig
    rfl
  split at isOk
  · obtain ⟨fastWconfig, _, isOk⟩ := of_bind isOk
    cases isOk
    exact ⟨isWconfig, totalWeightMax, isMax, isProfile⟩
  · cases isOk
    exact ⟨isWconfig, totalWeightMax, isMax, isProfile⟩

/-- More than a third, and at most two thirds. -/
structure AreThresholds (secrecy reconstruct : Nat) : Prop where
  above : scale < 3 * secrecy
  ordered : secrecy < reconstruct
  below : 3 * reconstruct ≤ 2 * scale

/-- Every profile that the search may accept leaves room for one weight. -/
def SearchLeavesRoom (stakes : List Nat) (secrecy reconstruct : Nat)
    (fastSecrecy : Option Nat) : Prop :=
  ∀ totalWeightMax, totalWeightUpperBound stakes reconstruct secrecy = .ok totalWeightMax →
    ∀ weight, totalWeightLowerBound stakes ≤ weight → weight ≤ totalWeightMax →
      ∀ perWeight profile, stakePerWeightOf stakes.sum weight = .ok perWeight →
        computeProfileFixedPoint stakes perWeight secrecy fastSecrecy = .ok profile →
        isValidProfile profile reconstruct = true →
        LeavesRoom stakes perWeight secrecy reconstruct

theorem exists_rounded {totalWeightMax : Nat} (notEmpty : stakes ≠ [])
    (areStaked : ∀ stake ∈ stakes, 0 < stake)
    (areThresholds : AreThresholds secrecy reconstruct)
    (isMax : totalWeightUpperBound stakes reconstruct secrecy = .ok totalWeightMax)
    (isOk : profileOrInfallible stakes secrecy reconstruct
      fastSecrecy totalWeightMax = .ok profile) :
    ∃ perWeight, Rounded stakes perWeight secrecy fastSecrecy profile ∧
      Fair stakes perWeight secrecy reconstruct ∧
      (SearchLeavesRoom stakes secrecy reconstruct fastSecrecy →
        LeavesRoom stakes perWeight secrecy reconstruct) := by
  have hasStake : 0 < stakes.sum := (List.length_pos_of_ne_nil notEmpty).trans_le
      (List.length_le_sum_of_one_le _ areStaked)
  unfold profileOrInfallible at isOk
  split at isOk
  case h_1 isNew =>
      cases isOk
      obtain ⟨isValid, weight, isLow, isHigh, isProfile⟩ := new_eq_ok isNew
      obtain ⟨perWeight, isPerWeight, isProfile⟩ := of_bind isProfile
      have rounded := computeProfileFixedPoint_eq_ok isProfile
      refine ⟨perWeight, rounded, fair_of_isValidProfile hasStake rounded
        (enough_of_stakePerWeightOf areStaked isPerWeight isLow) isValid, ?_⟩
      intro leavesRoom
      exact leavesRoom totalWeightMax isMax weight isLow isHigh perWeight _
        isPerWeight isProfile isValid
  case h_2 => cases isOk
  case h_3 =>
      have ⟨above, ordered, below⟩ := areThresholds
      obtain ⟨perWeight, rounded, isEnough, room⟩ := infallible_eq_ok ordered
        (by unfold scale at *; omega) (by unfold scale at *; omega) isOk
      exact ⟨perWeight, rounded, fair_of_leavesRoom hasStake isEnough room, fun _ => room⟩

end Paths

namespace DKGRounding

/-- No set with at most the secrecy threshold of the stake can reconstruct, on either path. -/
theorem secret_below_thresholds {stakes : List Nat} {secrecy reconstruct : Nat}
    {fastSecrecy : Option Nat} {rounding : DKGRounding} (notEmpty : stakes ≠ [])
    (areStaked : ∀ stake ∈ stakes, 0 < stake) (areThresholds : AreThresholds secrecy reconstruct)
    (fastBelow : ∀ fast ∈ fastSecrecy, 3 * fast ≤ 2 * scale)
    (isOk : new stakes secrecy reconstruct fastSecrecy = .ok rounding) :
    (∀ validators ⊆ Finset.range stakes.length,
      sumOver stakes validators * scale ≤ secrecy * stakes.sum →
      sumOver rounding.profile.validatorWeights validators <
        rounding.profile.reconstructThresholdInWeights) ∧
    ∀ fast ∈ fastSecrecy, ∃ fastWeight ∈ rounding.profile.fastReconstructThresholdInWeights,
        ∀ validators ⊆ Finset.range stakes.length,
          sumOver stakes validators * scale ≤ fast * stakes.sum →
          sumOver rounding.profile.validatorWeights validators <
            fastWeight := by
  obtain ⟨_, totalWeightMax, isMax, isProfile⟩ := new_eq_ok areThresholds.ordered isOk
  obtain ⟨perWeight, rounded, fair, _⟩ :=
    exists_rounded notEmpty areStaked areThresholds isMax isProfile
  have ⟨above, ordered, below⟩ := areThresholds
  have isBelow (threshold : Nat) (apart : 3 * threshold ≤ 2 * scale) (validators : Finset Nat)
      (areValidators : validators ⊆ Finset.range stakes.length)
      (little : sumOver stakes validators * scale ≤ threshold * stakes.sum) :
      sumOver rounding.profile.validatorWeights validators <
        min rounding.profile.validatorWeights.sum (aboveShare stakes perWeight threshold) := by
    rw [rounded.weights]
    exact lt_min (lt_totalWeight rounded.positive areValidators fair
        (by unfold scale at *; omega) little)
      (lt_aboveShare rounded.positive areValidators little)
  refine ⟨?_, ?_⟩
  · rw [rounded.threshold]
    exact isBelow secrecy (by omega)
  · intro fast isFast
    refine ⟨_, ?_, isBelow fast (fastBelow fast isFast)⟩
    rw [rounded.fast, Option.mem_def.mp isFast]
    rfl

end DKGRounding

/-! ## Toy committees -/

namespace Toy

/-- One half and two thirds, the default thresholds. -/
def secrecy : Nat := 2 ^ 63

def reconstruct : Nat := 2 ^ 65 / 3

theorem areThresholds : AreThresholds secrecy reconstruct := by
  constructor <;> decide

theorem small_shares_below_thresholds : ∃ rounding, new [4, 1] secrecy reconstruct
      (some reconstruct) = .ok rounding ∧
    sumOver rounding.profile.validatorWeights {1} <
      rounding.profile.reconstructThresholdInWeights ∧
    ∃ fastWeight ∈ rounding.profile.fastReconstructThresholdInWeights,
      sumOver rounding.profile.validatorWeights {1} < fastWeight := by
  obtain ⟨rounding, isOk⟩ : ∃ rounding, new [4, 1] secrecy
    reconstruct (some reconstruct) = .ok rounding := ⟨_, rfl⟩
  obtain ⟨slow, fast⟩ := secret_below_thresholds (by decide)
    (by decide) areThresholds (by rintro _ ⟨⟩; decide) isOk
  obtain ⟨fastWeight, isFast, below⟩ := fast reconstruct rfl
  exact ⟨rounding, isOk, slow {1} (by decide) (by decide), fastWeight, isFast,
    below {1} (by decide) (by decide)⟩

end Toy

end LumioNode.Dkg
