import LumioNode.Library.FixedPoint
import Mathlib.Algebra.BigOperators.Fin
import Mathlib.Algebra.Order.BigOperators.Group.Finset
import Mathlib.Data.List.GetD

/-! # Rounding stakes to weights

A binary search looks for a small total weight, else one is taken that always is enough.
The weight of a set differs from its share by rounding errors. -/

namespace LumioNode.Dkg

open Library Library.U64F64

/-- The sum of `u64` numbers, which panics when it does not fit. -/
def sumU64 (numbers : List Nat) : Except Fault Nat := do
  ensure (numbers.sum < 2 ^ 64) .panic
  return numbers.sum

variable (validatorStakes : List Nat)

def totalWeightLowerBound : Nat := validatorStakes.length

def totalWeightUpperBound
    (reconstructThreshold secrecyThreshold : U64F64) : Except Fault Nat := do
  let aboveSecrecy ← add secrecyThreshold 1
  let two ← fromNum 2
  let n ← fromNum validatorStakes.length
  let half ← div n two
  let numerator ← add half two
  let gap ← sub (max reconstructThreshold aboveSecrecy) secrecyThreshold
  let quotient ← div numerator gap
  let weight ← ceil quotient
  return toNum weight

structure DKGRoundingProfile where
  validatorWeights : List Nat
  secrecyThresholdInStakeRatio : U64F64
  reconstructThresholdInStakeRatio : U64F64
  reconstructThresholdInWeights : Nat
  fastReconstructThresholdInStakeRatio : Option U64F64
  fastReconstructThresholdInWeights : Option Nat

/-- The weights so far, and what was lost and gained by rounding. -/
structure RoundingState where
  validatorWeights : List Nat
  deltaDown : U64F64
  deltaUp : U64F64

/-- The loop body: the ideal weight is rounded to the nearest integer. -/
def roundStake (stakePerWeight : U64F64) (state : RoundingState)
    (stake : Nat) : Except Fault RoundingState := do
  let stakeFixed ← fromNum stake
  let idealWeight ← div stakeFixed stakePerWeight
  let shifted ← add idealWeight (scale / 2)
  let roundedWeight := floor shifted
  let weights := state.validatorWeights ++ [toNum roundedWeight]
  if roundedWeight < idealWeight then do
    let deltaDown ← add state.deltaDown (idealWeight - roundedWeight)
    return ⟨weights, deltaDown, state.deltaUp⟩
  else do
    let deltaUp ← add state.deltaUp (roundedWeight - idealWeight)
    return ⟨weights, state.deltaDown, deltaUp⟩

/-- The weight above what a part of the stake can have, at most the total. -/
def thresholdInWeights (threshold stakeSum stakePerWeight deltaUp : U64F64)
    (weightTotal : Nat) : Except Fault Nat := do
  let stake ← mul threshold stakeSum
  let weight ← div stake stakePerWeight
  let raised ← add weight deltaUp
  let rounded ← ceil raised
  let above ← add rounded scale
  return min weightTotal (toNum above)

def computeProfileFixedPoint (stakePerWeight secrecyThreshold : U64F64)
    (maybeFastSecrecyThreshold : Option U64F64) : Except Fault DKGRoundingProfile := do
  let stakeSum ← sumU64 validatorStakes
  let stakeSumFixed ← fromNum stakeSum
  let state ← validatorStakes.foldlM (roundStake stakePerWeight) ⟨[], 0, 0⟩
  let weightTotal ← sumU64 state.validatorWeights
  let deltaTotal ← add state.deltaDown state.deltaUp
  let reconstructWeight ← thresholdInWeights secrecyThreshold stakeSumFixed
    stakePerWeight state.deltaUp weightTotal
  let stakeOfDelta ← mul stakePerWeight deltaTotal
  let stakeGap ← div stakeOfDelta stakeSumFixed
  let reconstructRatio ← add secrecyThreshold stakeGap
  match maybeFastSecrecyThreshold with
  | some fastSecrecyThreshold => do
      let fastRatio ← add fastSecrecyThreshold stakeGap
      let fastWeight ← thresholdInWeights fastSecrecyThreshold stakeSumFixed
        stakePerWeight state.deltaUp weightTotal
      return ⟨state.validatorWeights, secrecyThreshold, reconstructRatio,
        reconstructWeight, some fastRatio, some fastWeight⟩
  | none =>
    return ⟨state.validatorWeights, secrecyThreshold, reconstructRatio,
      reconstructWeight, none, none⟩

def isValidProfile (profile : DKGRoundingProfile) (reconstructThreshold : U64F64) : Bool :=
  decide (profile.reconstructThresholdInStakeRatio ≤ reconstructThreshold) &&
    (profile.fastReconstructThresholdInStakeRatio.all fun ratio =>
      decide (ratio ≤ scale))

def stakePerWeightOf (stakeTotal totalWeight : Nat) : Except Fault U64F64 := do
  let stake ← fromNum stakeTotal
  let weight ← fromNum totalWeight
  let perWeight ← div stake weight
  return max scale perWeight

def profileFor (stakeTotal : Nat)
    (secrecyThreshold : U64F64) (fastSecrecyThreshold : Option U64F64)
    (totalWeight : Nat) : Except Fault DKGRoundingProfile := do
  let stakePerWeight ← stakePerWeightOf stakeTotal totalWeight
  computeProfileFixedPoint validatorStakes stakePerWeight secrecyThreshold fastSecrecyThreshold

/-- The binary search; every round shortens the range. -/
def searchProfile (profileOf : Nat → Except Fault DKGRoundingProfile)
    (reconstructThreshold : U64F64) :
    (fuel weightLow weightHigh : Nat) → DKGRoundingProfile → Except Fault DKGRoundingProfile
  | 0, weightLow, weightHigh, best => do
      ensure (weightHigh < weightLow) .panic
      return best
  | fuel + 1, weightLow, weightHigh, best =>
    if weightLow ≤ weightHigh then do
      let weightMid := weightLow + (weightHigh - weightLow) / 2
      let profile ← profileOf weightMid
      if isValidProfile profile reconstructThreshold then do
        let weightHigh ← checkedSub weightMid 1
        searchProfile profileOf reconstructThreshold fuel weightLow weightHigh profile
      else
        searchProfile profileOf reconstructThreshold fuel (weightMid + 1) weightHigh best
    else return best

namespace DKGRoundingProfile

def new (totalWeightMin totalWeightMax : Nat)
    (secrecyThreshold reconstructThreshold : U64F64) (fastSecrecyThreshold : Option U64F64) :
    Except Fault DKGRoundingProfile := do
  ensure (validatorStakes.length ≤ totalWeightMin) (.error "ensure")
  ensure (totalWeightMin ≤ totalWeightMax) (.error "ensure")
  let three ← fromNum 3
  let tripleSecrecy ← mul secrecyThreshold three
  ensure (scale < tripleSecrecy) (.error "ensure")
  ensure (secrecyThreshold < reconstructThreshold) (.error "ensure")
  let tripleReconstruct ← mul reconstructThreshold three
  ensure (tripleReconstruct ≤ 2 * scale) (.error "ensure")
  let stakeTotal ← sumU64 validatorStakes
  let profileOf := profileFor validatorStakes stakeTotal secrecyThreshold fastSecrecyThreshold
  let first ← profileOf totalWeightMin
  if isValidProfile first reconstructThreshold then return first
  else do
    let best ← searchProfile profileOf reconstructThreshold
      (totalWeightMax + 1 - totalWeightMin) totalWeightMin totalWeightMax first
    ensure (isValidProfile best reconstructThreshold = true)
      (.error "could not find a valid weight in the given weight range")
    return best

def infallible (secrecyThreshold reconstructThreshold : U64F64)
    (fastSecrecyThreshold : Option U64F64) : Except Fault DKGRoundingProfile := do
  let secrecyThreshold := min scale secrecyThreshold
  let reconstructThreshold := max secrecyThreshold (min scale reconstructThreshold)
  let stakeTotal ← sumU64 validatorStakes
  let stakeTotalFixed ← fromNum stakeTotal
  let estimatedWeightTotal ← totalWeightUpperBound validatorStakes
    reconstructThreshold secrecyThreshold
  let weight ← fromNum estimatedWeightTotal
  let stakePerWeight ← div stakeTotalFixed weight
  computeProfileFixedPoint validatorStakes stakePerWeight secrecyThreshold fastSecrecyThreshold

end DKGRoundingProfile

structure WeightedConfig where
  threshold : Nat
  weights : List Nat
deriving DecidableEq

/-- `WeightedConfig::new` with the check of `ThresholdConfig::new`. -/
def WeightedConfig.new (threshold : Nat) (weights : List Nat) : Except Fault WeightedConfig := do
  ensure (threshold ≠ 0) .panic
  ensure (weights ≠ []) .panic
  ensure (threshold ≤ weights.sum) .panic
  return ⟨threshold, weights⟩

structure DKGRounding where
  profile : DKGRoundingProfile
  wconfig : WeightedConfig
  fastWconfig : Option WeightedConfig

namespace DKGRounding

/-- The searched profile, or the infallible one if there is an error. -/
def profileOrInfallible
    (secrecyThreshold reconstructThreshold : U64F64) (fastSecrecyThreshold : Option U64F64)
    (totalWeightMax : Nat) : Except Fault DKGRoundingProfile :=
  match DKGRoundingProfile.new validatorStakes
      (totalWeightLowerBound validatorStakes) totalWeightMax secrecyThreshold
      reconstructThreshold fastSecrecyThreshold with
  | .ok profile => .ok profile
  | .error .panic => .error .panic
  | .error (.error _) => DKGRoundingProfile.infallible validatorStakes
      secrecyThreshold reconstructThreshold fastSecrecyThreshold

def new (secrecyThreshold reconstructThreshold : U64F64)
    (fastSecrecyThreshold : Option U64F64) : Except Fault DKGRounding := do
  let aboveSecrecy ← add secrecyThreshold 1
  let reconstructThreshold := max reconstructThreshold aboveSecrecy
  let totalWeightMax ← totalWeightUpperBound validatorStakes reconstructThreshold secrecyThreshold
  let profile ← profileOrInfallible validatorStakes secrecyThreshold
    reconstructThreshold fastSecrecyThreshold totalWeightMax
  let wconfig ← WeightedConfig.new profile.reconstructThresholdInWeights profile.validatorWeights
  match profile.fastReconstructThresholdInWeights with
  | some fastWeight => do
      let fastWconfig ← WeightedConfig.new fastWeight profile.validatorWeights
      return ⟨profile, wconfig, some fastWconfig⟩
  | none => return ⟨profile, wconfig, none⟩

end DKGRounding

open List Finset

open Library Library.U64F64

/-! ## One validator -/

variable (stakePerWeight stake : Nat)

def idealWeight : Nat := stake * scale * scale / stakePerWeight

def weightOf : Nat :=
  (idealWeight stakePerWeight stake + scale / 2) / scale

/-- What the rounding takes from the ideal weight. -/
def lostOf : Nat :=
  idealWeight stakePerWeight stake - weightOf stakePerWeight stake * scale

/-- What the rounding adds to the ideal weight. -/
def gainedOf : Nat :=
  weightOf stakePerWeight stake * scale - idealWeight stakePerWeight stake

section Validator

variable (perWeight stake : Nat)

theorem weightOf_zero : weightOf perWeight 0 = 0 := by
  simp [weightOf, idealWeight, scale]

theorem weightOf_le : weightOf perWeight stake * scale ≤
    idealWeight perWeight stake + gainedOf perWeight stake := by
  unfold gainedOf
  omega

theorem idealWeight_le : idealWeight perWeight stake ≤
    weightOf perWeight stake * scale + lostOf perWeight stake := by
  unfold lostOf
  omega

end Validator

/-! ## Sets of validators -/

def sumOver (values : List Nat) (validators : Finset Nat) : Nat :=
  ∑ index ∈ validators, values.getD index 0

/-- What the rounding takes from all ideal weights, and what it adds. -/
def deltaDown (stakes : List Nat) (perWeight : Nat) : Nat := (stakes.map (lostOf perWeight)).sum

def deltaUp (stakes : List Nat) (perWeight : Nat) : Nat := (stakes.map (gainedOf perWeight)).sum

section Sets

variable {stakes : List Nat} {perWeight : Nat} {validators : Finset Nat}

theorem sum_map_eq_sum_range (values : List Nat) (transform : Nat → Nat) :
    (values.map transform).sum = ∑ index ∈ Finset.range values.length,
        transform (values.getD index 0) := by
  induction values with
  | nil => rfl
  | cons value rest inductionHypothesis =>
    rw [List.map_cons, List.sum_cons, length_cons, Finset.sum_range_succ',
      inductionHypothesis, Nat.add_comm]
    rfl

theorem sum_eq_sumOver (values : List Nat) :
    values.sum = sumOver values (Finset.range values.length) := by
  have asMap := sum_map_eq_sum_range values id
  rw [map_id] at asMap
  exact asMap

theorem sumOver_weights : sumOver (stakes.map (weightOf perWeight)) validators =
    ∑ index ∈ validators, weightOf perWeight (stakes.getD index 0) := by
  refine sum_congr rfl ?_
  intro index _
  have atIndex := getD_map stakes 0 (n := index) (weightOf perWeight)
  rw [weightOf_zero] at atIndex
  exact atIndex

theorem sum_idealWeight_bounds (positive : 0 < perWeight) : perWeight * ∑ index ∈ validators,
      idealWeight perWeight (stakes.getD index 0) ≤ sumOver stakes validators * scale * scale ∧
    sumOver stakes validators * scale * scale ≤ perWeight * (∑ index ∈ validators,
        idealWeight perWeight (stakes.getD index 0) + validators.card) := by
  unfold sumOver
  rw [card_eq_sum_ones, ← sum_add_distrib, mul_sum, mul_sum, sum_mul, sum_mul]
  exact ⟨sum_le_sum fun index _ => Nat.mul_div_le _ _,
    sum_le_sum fun index _ => (Nat.lt_mul_div_succ _ positive).le⟩

theorem sum_weightOf_bounds (perWeight : Nat)
    (areValidators : validators ⊆ Finset.range stakes.length) :
    sumOver (stakes.map (weightOf perWeight)) validators * scale ≤
        ∑ index ∈ validators, idealWeight perWeight (stakes.getD index 0) +
          deltaUp stakes perWeight ∧
      ∑ index ∈ validators, idealWeight perWeight (stakes.getD index 0) ≤
        sumOver (stakes.map (weightOf perWeight)) validators * scale +
          deltaDown stakes perWeight := by
  rw [sumOver_weights, deltaUp, deltaDown, sum_map_eq_sum_range, sum_map_eq_sum_range, sum_mul]
  refine ⟨?_, ?_⟩
  · calc ∑ index ∈ validators, weightOf perWeight (stakes.getD index 0) * scale
      ≤ ∑ index ∈ validators, (idealWeight perWeight (stakes.getD index 0) +
          gainedOf perWeight (stakes.getD index 0)) :=
          sum_le_sum fun index _ => weightOf_le _ _
      _ ≤ _ := by
          rw [sum_add_distrib]
          exact Nat.add_le_add_left (sum_le_sum_of_subset areValidators) _
  · calc ∑ index ∈ validators, idealWeight perWeight (stakes.getD index 0) ≤ ∑ index ∈ validators,
      (weightOf perWeight (stakes.getD index 0) * scale +
        lostOf perWeight (stakes.getD index 0)) :=
          sum_le_sum fun index _ => idealWeight_le _ _
      _ ≤ _ := by
          rw [sum_add_distrib]
          exact Nat.add_le_add_left (sum_le_sum_of_subset areValidators) _

theorem delta_le (stakes : List Nat) (perWeight : Nat) :
    deltaDown stakes perWeight + deltaUp stakes perWeight ≤ stakes.length * (scale / 2) := by
  rw [deltaDown, deltaUp, sum_map_eq_sum_range, sum_map_eq_sum_range, ← sum_add_distrib]
  refine (sum_le_card_nsmul _ _ (scale / 2) ?_).trans ?_
  · intro index _
    unfold lostOf gainedOf weightOf scale
    omega
  · simp

end Sets

/-! ## The computed profile -/

theorem sumU64_eq_ok {numbers : List Nat} {total : Nat}
    (isOk : sumU64 numbers = .ok total) : total = numbers.sum := by
  obtain ⟨_, _, isTotal⟩ := of_bind isOk
  cases isTotal
  rfl

theorem roundStake_eq_ok {perWeight stake : Nat} {state after : RoundingState}
    (isOk : roundStake perWeight state stake = .ok after) :
    0 < perWeight ∧ after = ⟨state.validatorWeights ++ [weightOf perWeight stake],
        state.deltaDown + lostOf perWeight stake,
        state.deltaUp + gainedOf perWeight stake⟩ := by
  replace isOk := of_checked_bind isOk
  obtain ⟨ideal, isIdeal, isOk⟩ := of_bind isOk
  obtain ⟨positive, rfl⟩ := div_eq_ok isIdeal
  replace isOk := of_checked_bind isOk
  refine ⟨positive, ?_⟩
  change (if weightOf perWeight stake * scale < idealWeight perWeight stake
    then _ else _) = _ at isOk
  have isWeight : toNum (floor (stake * scale * scale / perWeight + scale / 2)) =
      weightOf perWeight stake :=
    Nat.mul_div_cancel _ (by decide)
  split at isOk
  case isTrue isLess =>
      replace isOk := of_checked_bind isOk
      cases isOk
      have noGain : gainedOf perWeight stake = 0 := by
        unfold gainedOf
        omega
      rw [noGain, isWeight]
      rfl
  case isFalse isMore =>
      replace isOk := of_checked_bind isOk
      cases isOk
      have noLoss : lostOf perWeight stake = 0 := by
        unfold lostOf
        omega
      rw [noLoss, isWeight]
      rfl

theorem foldlM_roundStake {perWeight : Nat} {stakes : List Nat} {state after : RoundingState}
    (isOk : stakes.foldlM (roundStake perWeight) state = .ok after) :
    after = ⟨state.validatorWeights ++ stakes.map (weightOf perWeight),
      state.deltaDown + deltaDown stakes perWeight,
      state.deltaUp + deltaUp stakes perWeight⟩ := by
  induction stakes generalizing state with
  | nil =>
    cases isOk
    simp [deltaDown, deltaUp]
  | cons stake rest inductionHypothesis =>
    rw [foldlM_cons] at isOk
    obtain ⟨middle, isMiddle, isOk⟩ := of_bind isOk
    obtain ⟨_, rfl⟩ := roundStake_eq_ok isMiddle
    rw [inductionHypothesis isOk]
    simp [deltaDown, deltaUp, Nat.add_assoc]

/-- The threshold in weights before it is cut at the total weight. -/
def aboveShare (stakes : List Nat) (perWeight threshold : Nat) : Nat :=
  (threshold * stakes.sum * scale / perWeight + deltaUp stakes perWeight + (scale - 1)) / scale + 1

theorem thresholdInWeights_eq_ok {stakes : List Nat} {perWeight threshold weightTotal weight : Nat}
    (isOk : thresholdInWeights threshold (stakes.sum * scale) perWeight
      (deltaUp stakes perWeight) weightTotal = .ok weight) :
    0 < perWeight ∧ weight = min weightTotal (aboveShare stakes perWeight threshold) := by
  replace isOk := of_checked_bind isOk
  obtain ⟨share, isShare, isOk⟩ := of_bind isOk
  obtain ⟨positive, rfl⟩ := div_eq_ok isShare
  replace isOk := of_checked_bind isOk
  replace isOk := of_checked_bind isOk
  replace isOk := of_checked_bind isOk
  cases isOk
  refine ⟨positive, ?_⟩
  rw [← Nat.mul_assoc, Nat.mul_div_cancel _ (by decide), toNum, ← Nat.succ_mul,
    Nat.mul_div_cancel _ (by decide)]
  rfl

/-- What a profile is for a stake per weight. -/
structure Rounded (stakes : List Nat) (perWeight secrecy : Nat)
    (fastSecrecy : Option Nat) (profile : DKGRoundingProfile) : Prop where
  positive : 0 < perWeight
  weights : profile.validatorWeights = stakes.map (weightOf perWeight)
  threshold : profile.reconstructThresholdInWeights =
    min profile.validatorWeights.sum (aboveShare stakes perWeight secrecy)
  ratio : profile.reconstructThresholdInStakeRatio =
    secrecy + perWeight * (deltaDown stakes perWeight +
      deltaUp stakes perWeight) / scale / stakes.sum
  fast : profile.fastReconstructThresholdInWeights = fastSecrecy.map fun fastThreshold =>
      min profile.validatorWeights.sum (aboveShare stakes perWeight fastThreshold)

theorem computeProfileFixedPoint_eq_ok {stakes : List Nat} {perWeight secrecy : Nat}
    {fastSecrecy : Option Nat} {profile : DKGRoundingProfile}
    (isOk : computeProfileFixedPoint stakes perWeight secrecy fastSecrecy = .ok profile) :
    Rounded stakes perWeight secrecy fastSecrecy profile := by
  obtain ⟨stakeSum, isSum, isOk⟩ := of_bind isOk
  cases sumU64_eq_ok isSum
  replace isOk := of_checked_bind isOk
  obtain ⟨state, isState, isOk⟩ := of_bind isOk
  cases foldlM_roundStake isState
  obtain ⟨weightTotal, isTotal, isOk⟩ := of_bind isOk
  cases sumU64_eq_ok isTotal
  replace isOk := of_checked_bind isOk
  simp only [nil_append, Nat.zero_add] at isOk
  obtain ⟨weight, isWeight, isOk⟩ := of_bind isOk
  obtain ⟨positive, rfl⟩ := thresholdInWeights_eq_ok isWeight
  replace isOk := of_checked_bind isOk
  obtain ⟨stakeGap, isGap, isOk⟩ := of_bind isOk
  obtain ⟨_, rfl⟩ := div_eq_ok isGap
  rw [Nat.mul_div_mul_right _ _ (by decide)] at isOk
  replace isOk := of_checked_bind isOk
  cases fastSecrecy with
  | none =>
    cases isOk
    exact ⟨positive, rfl, rfl, rfl, rfl⟩
  | some =>
    obtain ⟨fastRatio, _, isOk⟩ := of_bind isOk
    obtain ⟨fastWeight, isFastWeight, isOk⟩ := of_bind isOk
    obtain ⟨_, rfl⟩ := thresholdInWeights_eq_ok isFastWeight
    cases isOk
    exact ⟨positive, rfl, rfl, rfl, rfl⟩

/-! ## What the weights of a set are -/

/-- The stake per weight is small for the validators, and the rounding errors for the gap. -/
structure Fair (stakes : List Nat) (perWeight secrecy reconstruct : Nat) : Prop where
  enough : stakes.length * perWeight ≤ stakes.sum * scale
  small : perWeight * (deltaDown stakes perWeight + deltaUp stakes perWeight) <
    (reconstruct - secrecy + 1) * stakes.sum * scale

/-- The gap also has room for one weight and for what divisions cut off. -/
def LeavesRoom (stakes : List Nat) (perWeight secrecy reconstruct : Nat) : Prop :=
  perWeight * (deltaDown stakes perWeight + deltaUp stakes perWeight + scale +
    stakes.length) ≤ (reconstruct - secrecy) * stakes.sum * scale

section Weights

variable {stakes : List Nat} {perWeight threshold secrecy reconstruct : Nat}
  {validators : Finset Nat}

variable (positive : 0 < perWeight) (areValidators : validators ⊆ Finset.range stakes.length)

include positive areValidators

theorem lt_aboveShare
    (little : sumOver stakes validators * scale ≤ threshold * stakes.sum) :
    sumOver (stakes.map (weightOf perWeight)) validators <
      aboveShare stakes perWeight threshold := by
  have weighs := (sum_weightOf_bounds perWeight areValidators).1
  have ideal : ∑ index ∈ validators, idealWeight perWeight (stakes.getD index 0) ≤
      threshold * stakes.sum * scale / perWeight := by
    rw [Nat.le_div_iff_mul_le positive, Nat.mul_comm]
    exact (sum_idealWeight_bounds positive).1.trans (Nat.mul_le_mul_right _ little)
  unfold aboveShare scale at *
  omega

theorem stake_of_weightless (fair : Fair stakes perWeight secrecy reconstruct)
    (weightless : sumOver (stakes.map (weightOf perWeight)) validators = 0) :
    sumOver stakes validators * scale < (reconstruct - secrecy + 2) * stakes.sum := by
  have few : validators.card ≤ stakes.length := by simpa using card_le_card areValidators
  have ideal := (sum_weightOf_bounds perWeight areValidators).2
  rw [weightless, Nat.zero_mul, Nat.zero_add] at ideal
  refine Nat.lt_of_mul_lt_mul_right (a := scale) ?_
  calc sumOver stakes validators * scale * scale
    ≤ perWeight * (∑ index ∈ validators,
        idealWeight perWeight (stakes.getD index 0) + validators.card) :=
        (sum_idealWeight_bounds positive).2
    _ ≤ perWeight * (deltaDown stakes perWeight + deltaUp stakes perWeight +
          stakes.length) := Nat.mul_le_mul_left _ (by omega)
    _ = perWeight * (deltaDown stakes perWeight + deltaUp stakes perWeight) +
          stakes.length * perWeight := by ring
    _ < (reconstruct - secrecy + 1) * stakes.sum * scale +
          stakes.sum * scale := Nat.add_lt_add_of_lt_of_le fair.small fair.enough
    _ = (reconstruct - secrecy + 2) * stakes.sum * scale := by ring

theorem lt_totalWeight (fair : Fair stakes perWeight secrecy reconstruct)
    (apart : threshold + (reconstruct - secrecy) + 2 ≤ scale)
    (little : sumOver stakes validators * scale ≤ threshold * stakes.sum) :
    sumOver (stakes.map (weightOf perWeight)) validators <
      (stakes.map (weightOf perWeight)).sum := by
  have split (values : List Nat) (sameLength : values.length = stakes.length) :
      sumOver values (Finset.range stakes.length \ validators) +
        sumOver values validators = values.sum := by
    rw [sum_eq_sumOver values, sameLength]
    exact sum_sdiff areValidators
  have weights := split (stakes.map (weightOf perWeight)) (by simp)
  by_contra notLess
  have rest := stake_of_weightless positive sdiff_subset fair
    (show sumOver _ (Finset.range stakes.length \ validators) = 0 by omega)
  have total := congrArg (· * scale) (split stakes rfl)
  have bound := Nat.mul_le_mul_right stakes.sum apart
  simp only [Nat.add_mul] at total rest bound
  rw [Nat.mul_comm scale] at bound
  omega

end Weights

end LumioNode.Dkg
