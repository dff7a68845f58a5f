import LumioNode.Library.Fallible
import Mathlib.Tactic.Linarith

/-! # Deltas of aggregators, and changes of delayed fields

Bounded additions and subtractions, and the history of those that succeeded and failed. -/

namespace LumioNode

open Library

inductive BoundedMathError where
  | overflow
  | underflow
deriving DecidableEq, Repr

inductive SignedU128 where
  | positive (value : Nat)
  | negative (value : Nat)
deriving Repr

namespace SignedU128

def minus : SignedU128 → SignedU128
  | positive value => negative value
  | negative value => positive value

def abs : SignedU128 → Nat
  | positive value => value
  | negative value => value

def isZero (delta : SignedU128) : Bool := delta.abs == 0

end SignedU128

inductive DeltaApplicationFailureReason where
  | overflow
  | underflow
  | expectedOverflow
  | expectedUnderflow
deriving DecidableEq, Repr

inductive DeltaHistoryMergeOffsetFailureReason where
  | achievedExceedsBounds
  | failureNotExceedingBoundsAnyMore
deriving DecidableEq, Repr

inductive DelayedFieldsSpeculativeError where
  | deltaApplication (baseValue maxValue : Nat) (delta : SignedU128)
      (reason : DeltaApplicationFailureReason)
  | deltaMerge (baseDelta delta : SignedU128) (maxValue : Nat)
  | deltaHistoryMergeOffset (target : Nat) (delta : SignedU128)
      (maxValue : Nat) (reason : DeltaHistoryMergeOffsetFailureReason)
  | deltaHistoryMergeAchievedAndFailureOverlap
      (achieved overflow : SignedU128)
deriving Repr

/-- `PanicOr`, with the panics of unchecked code beside it. -/
inductive PanicOr (ε : Type) where
  | panic
  | codeInvariantError (message : String)
  | or (error : ε)
deriving Repr

abbrev DeltaResult := Except (PanicOr DelayedFieldsSpeculativeError)

def expectOk {α ε : Type} : Except BoundedMathError α → Except (PanicOr ε) α
  | .ok value => .ok value
  | .error .overflow =>
    .error (.codeInvariantError "Expected Ok, got Err(Overflow)")
  | .error .underflow =>
    .error (.codeInvariantError "Expected Ok, got Err(Underflow)")

/-- Unsigned results are in `[0, maxValue]`, signed ones in `[-maxValue, maxValue]`. -/
structure BoundedMath where
  maxValue : Nat

namespace BoundedMath

variable (math : BoundedMath)

def unsignedAdd (base value : Nat) : Except BoundedMathError Nat :=
  if math.maxValue < base ∨ math.maxValue - base < value then
    .error .overflow
  else
    .ok (base + value)

def unsignedSubtract (base value : Nat) : Except BoundedMathError Nat :=
  if base < value then .error .underflow else .ok (base - value)

def unsignedAddDelta (base : Nat) : SignedU128 → Except BoundedMathError Nat
  | .positive value => math.unsignedAdd base value
  | .negative value => unsignedSubtract base value

def updateDifferentSign (plus minus : Nat) : Except BoundedMathError SignedU128 :=
  if minus ≤ plus then
    (unsignedSubtract plus minus).map .positive
  else
    (unsignedSubtract minus plus).map .negative

def negateError {α : Type} : Except BoundedMathError α → Except BoundedMathError α
  | .ok value => .ok value
  | .error .overflow => .error .underflow
  | .error .underflow => .error .overflow

def signedAdd : SignedU128 → SignedU128 → Except BoundedMathError SignedU128
  | .positive left, .positive right =>
    (math.unsignedAdd left right).map .positive
  | .positive left, .negative right => updateDifferentSign left right
  | .negative left, .positive right => updateDifferentSign right left
  | .negative left, .negative right =>
    (negateError (math.unsignedAdd left right)).map .negative

end BoundedMath

/-- `ok_overflow`: an overflow is no value, an underflow stays an error. -/
def okOverflow {α : Type} : Except BoundedMathError α → Except BoundedMathError (Option α)
  | .ok value => .ok (some value)
  | .error .overflow => .ok none
  | .error .underflow => .error .underflow

/-- The check `if let Some(value) = found`. -/
def whenSome {α ε : Type} (found : Option α) (check : α → Except ε Unit) : Except ε Unit :=
  match found with
  | none => .ok ()
  | some value => check value

/-- The deltas at which additions succeeded and failed, by their absolute values. -/
structure DeltaHistory where
  maxAchievedPositiveDelta : Nat := 0
  minAchievedNegativeDelta : Nat := 0
  minOverflowPositiveDelta : Option Nat := none
  maxUnderflowNegativeDelta : Option Nat := none
deriving DecidableEq, Repr

namespace DeltaHistory

variable (history : DeltaHistory)

def recordSuccess : SignedU128 → DeltaHistory
  | .positive value => { history with
      maxAchievedPositiveDelta := max history.maxAchievedPositiveDelta value }
  | .negative value => { history with
      minAchievedNegativeDelta := max history.minAchievedNegativeDelta value }

def recordFailure (field : Option Nat) (delta : Nat) : Option Nat := match field with
  | none => some delta
  | some recorded => some (min recorded delta)

def recordOverflow (delta : Nat) : DeltaHistory :=
  { history with minOverflowPositiveDelta := recordFailure history.minOverflowPositiveDelta delta }

def recordUnderflow (delta : Nat) : DeltaHistory :=
  { history with maxUnderflowNegativeDelta :=
      recordFailure history.maxUnderflowNegativeDelta delta }

def validateAgainstBaseValue
    (baseValue maxValue : Nat) : DeltaResult Unit := do
  let math : BoundedMath := ⟨maxValue⟩
  let fails (delta : SignedU128) (reason : DeltaApplicationFailureReason) :
      PanicOr DelayedFieldsSpeculativeError :=
    .or (.deltaApplication baseValue maxValue delta reason)
  let _ ← (math.unsignedAdd baseValue history.maxAchievedPositiveDelta).mapError fun _ =>
      fails (.positive history.maxAchievedPositiveDelta) .overflow
  let _ ← (BoundedMath.unsignedSubtract baseValue
    history.minAchievedNegativeDelta).mapError fun _ =>
      fails (.negative history.minAchievedNegativeDelta) .underflow
  whenSome history.minOverflowPositiveDelta fun overflow => do
    let bound ← (checkedSub maxValue overflow).mapError fun _ => .panic
    ensure (bound < baseValue) (fails (.positive overflow) .expectedOverflow)
  whenSome history.maxUnderflowNegativeDelta fun underflow =>
    ensure (baseValue < underflow) (fails (.negative underflow) .expectedUnderflow)

end DeltaHistory

/-- A delta as the change set of a transaction has it. -/
structure DeltaWithMax where
  update : SignedU128
  maxValue : Nat
deriving Repr

namespace DeltaWithMax

def applyTo (delta : DeltaWithMax) (base : Nat) : DeltaResult Nat := match delta.update with
  | .positive value =>
    ((⟨delta.maxValue⟩ : BoundedMath).unsignedAdd base value).mapError
      fun _ => .or (.deltaApplication base delta.maxValue delta.update .overflow)
  | .negative value =>
    (BoundedMath.unsignedSubtract base value).mapError fun _ =>
      .or (.deltaApplication base delta.maxValue delta.update .underflow)

end DeltaWithMax

abbrev Bytes := List UInt8

inductive DelayedFieldValue where
  | aggregator (value : Nat)
  | snapshot (value : Nat)
  | derived (bytes : Bytes)
deriving DecidableEq, Repr

namespace DelayedFieldValue

def intoAggregatorValue : DelayedFieldValue → DeltaResult Nat
  | aggregator value => .ok value
  | snapshot _ => .error (.codeInvariantError
      "Tried calling into_aggregator_value on Snapshot value")
  | derived _ => .error (.codeInvariantError
      "Tried calling into_aggregator_value on String SnapshotValue")

def intoSnapshotValue : DelayedFieldValue → DeltaResult Nat
  | snapshot value => .ok value
  | aggregator _ => .error (.codeInvariantError
      "Tried calling into_snapshot_value on Aggregator value")
  | derived _ => .error (.codeInvariantError
      "Tried calling into_snapshot_value on String SnapshotValue")

end DelayedFieldValue

/-- The formula `Concat` around the decimal digits of a snapshot. -/
structure SnapshotToStringFormula where
  prefixBytes : Bytes
  suffixBytes : Bytes
deriving DecidableEq, Repr

def SnapshotToStringFormula.applyTo (formula : SnapshotToStringFormula) (base : Nat) : Bytes :=
  let middle := (Nat.toDigits 10 base).map fun digit => digit.toNat.toUInt8
  formula.prefixBytes ++ middle ++ formula.suffixBytes

/-- A change of a delayed field, with deltas of type `δ` and ids of type `ι`. -/
inductive DelayedApply (δ ι : Type) where
  | aggregatorDelta (delta : δ)
  | snapshotDelta (baseAggregator : ι) (delta : δ)
  | snapshotDerived (baseSnapshot : ι) (formula : SnapshotToStringFormula)
deriving Repr

inductive ApplyBase (ι : Type) where
  | previous (id : ι)
  | current (id : ι)
deriving DecidableEq, Repr

namespace DelayedApply

variable {δ ι : Type}

def getApplyBaseIdOption : DelayedApply δ ι → Option (ApplyBase ι)
  | aggregatorDelta _ => none
  | snapshotDelta baseAggregator _ => some (.previous baseAggregator)
  | snapshotDerived baseSnapshot _ => some (.current baseSnapshot)

def getApplyBaseId (apply : DelayedApply δ ι) (selfId : ι) : ApplyBase ι :=
  apply.getApplyBaseIdOption.getD (.previous selfId)

def applyToBaseBy (applyDelta : δ → Nat → DeltaResult Nat) (apply : DelayedApply δ ι)
    (baseValue : DelayedFieldValue) : DeltaResult DelayedFieldValue :=
  match apply with
  | aggregatorDelta delta => do
      let base ← baseValue.intoAggregatorValue
      return .aggregator (← applyDelta delta base)
  | snapshotDelta _ delta => do
      let base ← baseValue.intoAggregatorValue
      return .snapshot (← applyDelta delta base)
  | snapshotDerived _ formula => do
      let base ← baseValue.intoSnapshotValue
      return .derived (formula.applyTo base)

end DelayedApply

abbrev DelayedApplyChange := DelayedApply DeltaWithMax

def DelayedApplyChange.applyToBase {ι : Type} : DelayedApplyChange ι → DelayedFieldValue →
      DeltaResult DelayedFieldValue :=
  DelayedApply.applyToBaseBy DeltaWithMax.applyTo

inductive DelayedChangeOf (δ ι : Type) where
  | create (value : DelayedFieldValue)
  | apply (change : DelayedApply δ ι)
deriving Repr

abbrev DelayedChange := DelayedChangeOf DeltaWithMax

end LumioNode
