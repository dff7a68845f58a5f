import LumioNode.Aggregator.DeltaMath

/-! # Aggregators that do not know their value

A delta and the largest deltas on the way are compared with the stored value when it is
read. -/

namespace LumioNode

open Library BoundedMath

inductive AggregatorState where
  | data
  | positiveDelta
  | negativeDelta
deriving DecidableEq

structure Aggregator where
  value : Nat
  state : AggregatorState
  maxValue : Nat
  history : Option DeltaHistory

inductive PartialVMError where
  | aborted (message : String) (subStatus : Nat)
  | vmExtensionError (message : String)
  | speculativeExecutionAbortError (error : DelayedFieldsSpeculativeError)

abbrev PartialVMResult := Except (PanicOr PartialVMError)

def additionV1Error : PanicOr PartialVMError := .or (.aborted "overflow" 0x020001)

def subtractionV1Error : PanicOr PartialVMError := .or (.aborted "underflow" 0x020002)

namespace Aggregator

/-- What `get_aggregator` enters for an aggregator that was not used yet. -/
def new (maxValue : Nat) : Aggregator := ⟨0, .positiveDelta, maxValue, some {}⟩

variable (aggregator : Aggregator)

def record : PartialVMResult Aggregator := match aggregator.history with
  | none => .ok aggregator
  | some history =>
    match aggregator.state with
    | .positiveDelta => .ok { aggregator with
        history := some (history.recordSuccess (.positive aggregator.value)) }
    | .negativeDelta => .ok { aggregator with
        history := some (history.recordSuccess (.negative aggregator.value)) }
    | .data => .error .panic

def validateHistory (baseValue : Nat) : PartialVMResult Unit := do
  let history ← expect .panic aggregator.history
  (history.validateAgainstBaseValue baseValue aggregator.maxValue).mapError fun
    | .panic => .panic
    | .codeInvariantError message => .codeInvariantError message
    | .or (.deltaApplication _ _ _ .overflow) => additionV1Error
    | .or (.deltaApplication _ _ _ .underflow) => subtractionV1Error
    | .or error => .or (.speculativeExecutionAbortError error)

def add (value : Nat) : PartialVMResult Aggregator := do
  let math : BoundedMath := ⟨aggregator.maxValue⟩
  match aggregator.state with
  | .data =>
    let sum ← (math.unsignedAdd aggregator.value value).mapError fun _ => additionV1Error
    return { aggregator with value := sum }
  | .positiveDelta =>
    let sum ← (math.unsignedAdd aggregator.value value).mapError fun _ => additionV1Error
    record { aggregator with value := sum }
  | .negativeDelta =>
    if aggregator.value ≤ value then
      let difference ← expectOk (unsignedSubtract value aggregator.value)
      record { aggregator with value := difference, state := .positiveDelta }
    else
      let difference ← expectOk (unsignedSubtract aggregator.value value)
      record { aggregator with value := difference }

def sub (value : Nat) : PartialVMResult Aggregator := do
  let math : BoundedMath := ⟨aggregator.maxValue⟩
  let checked (outcome : Except BoundedMathError Nat) : PartialVMResult Nat :=
    outcome.mapError fun _ => subtractionV1Error
  match aggregator.state with
  | .data =>
    let difference ← checked (unsignedSubtract aggregator.value value)
    return { aggregator with value := difference }
  | .positiveDelta =>
    if value ≤ aggregator.value then
      let difference ← checked (unsignedSubtract aggregator.value value)
      record { aggregator with value := difference }
    else
      let _ ← checked (unsignedSubtract aggregator.maxValue value)
      let difference ← checked (unsignedSubtract value aggregator.value)
      record { aggregator with value := difference, state := .negativeDelta }
  | .negativeDelta =>
    let sum ← checked (math.unsignedAdd aggregator.value value)
    record { aggregator with value := sum }

/-- What the resolver returns for the aggregator's id is an argument. -/
def readAndMaterialize (id : String) (resolved : Except String (Option Nat)) :
    PartialVMResult (Nat × Aggregator) := do
  if aggregator.state = .data then return (aggregator.value, aggregator)
  let found ← resolved.mapError fun error => .or (.vmExtensionError
    ("Could not find the value of the aggregator: " ++ error))
  let valueFromStorage ← expect (.or (.vmExtensionError
    ("Could not read from deleted aggregator at " ++ id))) found
  aggregator.validateHistory valueFromStorage
  let math : BoundedMath := ⟨aggregator.maxValue⟩
  let value ← match aggregator.state with
    | .positiveDelta =>
      (math.unsignedAdd valueFromStorage aggregator.value).mapError fun _ => .panic
    | .negativeDelta =>
      (unsignedSubtract valueFromStorage aggregator.value).mapError fun _ => .panic
    | .data => .error .panic
  return (value, ⟨value, .data, aggregator.maxValue, none⟩)

end Aggregator

inductive AggregatorOperation where
  | add (value : Nat)
  | sub (value : Nat)

def AggregatorOperation.change : AggregatorOperation → Int
  | .add value => value
  | .sub value => -value

namespace Aggregator

def perform (aggregator : Aggregator) : AggregatorOperation → PartialVMResult Aggregator
  | .add value => aggregator.add value
  | .sub value => aggregator.sub value

/-- The operation on a known value, whose result must stay in bounds. -/
def eagerly (maxValue value : Nat) (operation : AggregatorOperation) : Option Nat :=
  let next := value + operation.change
  if 0 ≤ next ∧ next ≤ maxValue then some next.toNat else none

/-- The aggregator has a delta between the largest ones on the way. -/
structure Collects (aggregator : Aggregator) (maxValue : Nat) (delta : Int)
    (highest lowest : Nat) : Prop where
  maxValue : aggregator.maxValue = maxValue
  history : aggregator.history = some ⟨highest, lowest, none, none⟩
  isDelta : aggregator.state = .positiveDelta ∧ delta = aggregator.value ∨
    aggregator.state = .negativeDelta ∧ delta = -aggregator.value
  atMost : delta ≤ highest
  atLeast : -lowest ≤ delta

/-- All deltas on the way are in bounds from the base value. -/
structure Reaches (maxValue highest lowest base : Nat) (delta : Int) (value : Nat) : Prop where
  above : base + highest ≤ maxValue
  below : lowest ≤ base
  isValue : (value : Int) = base + delta

variable {aggregator : Aggregator} {maxValue highest lowest base value : Nat} {delta : Int}

theorem unsignedAdd_eq {math : BoundedMath} : math.unsignedAdd base value =
    if base + value ≤ math.maxValue then .ok (base + value) else .error .overflow := by
  unfold unsignedAdd
  split_ifs <;> first | rfl | omega

theorem record_collects {held : Nat} {state : AggregatorState}
    (isDelta : state = .positiveDelta ∧ delta = held ∨ state = .negativeDelta ∧ delta = -held) :
    ∃ after, record ⟨held, state, maxValue, some ⟨highest, lowest, none, none⟩⟩ = .ok after ∧
      after.Collects maxValue delta (max highest delta.toNat) (max lowest (-delta).toNat) := by
  rcases isDelta with ⟨rfl, rfl⟩ | ⟨rfl, rfl⟩
  · exact ⟨_, rfl, rfl, by simp [DeltaHistory.recordSuccess], .inl ⟨rfl, rfl⟩, by omega, by omega⟩
  · exact ⟨_, rfl, rfl, by simp [DeltaHistory.recordSuccess], .inr ⟨rfl, rfl⟩, by omega, by omega⟩

theorem Collects.perform (collects : aggregator.Collects maxValue delta highest lowest)
    (operation : AggregatorOperation) {next : Int} (isNext : next = delta + operation.change) :
    (∃ after, aggregator.perform operation = .ok after ∧
      after.Collects maxValue next (max highest next.toNat) (max lowest (-next).toNat)) ∨
    (∃ error, aggregator.perform operation = .error error) ∧
      (maxValue < next ∨ maxValue + next < highest) := by
  obtain ⟨held, state, _, _⟩ := aggregator
  obtain ⟨rfl, rfl, isDelta, atMost, atLeast⟩ := collects
  cases operation with
  | add operand =>
    rcases isDelta with ⟨rfl, rfl⟩ | ⟨rfl, rfl⟩ <;>
      simp only [Aggregator.perform, add, unsignedAdd_eq, unsignedSubtract,
        AggregatorOperation.change] at *
    · split
      · exact .inl (record_collects (.inl ⟨rfl, isNext⟩))
      · exact .inr ⟨⟨_, rfl⟩, by omega⟩
    · split
      · rw [if_neg (by omega)]
        exact .inl (record_collects (.inl ⟨rfl, by omega⟩))
      · rw [if_neg (by omega)]
        exact .inl (record_collects (.inr ⟨rfl, by omega⟩))
  | sub operand =>
    rcases isDelta with ⟨rfl, rfl⟩ | ⟨rfl, rfl⟩ <;>
      simp only [Aggregator.perform, sub, unsignedAdd_eq, unsignedSubtract,
        AggregatorOperation.change] at *
    · split
      · rw [if_neg (by omega)]
        exact .inl (record_collects (.inl ⟨rfl, by omega⟩))
      · split
        · exact .inr ⟨⟨_, rfl⟩, by omega⟩
        · rw [if_neg (by omega)]
          exact .inl (record_collects (.inr ⟨rfl, by omega⟩))
    · split
      · exact .inl (record_collects (.inr ⟨rfl, by omega⟩))
      · exact .inr ⟨⟨_, rfl⟩, by omega⟩

theorem validateHistory_eq {held : Nat} {state : AggregatorState} :
    validateHistory ⟨held, state, maxValue, some ⟨highest, lowest, none, none⟩⟩ base =
      if base + highest ≤ maxValue then
        if base < lowest then .error subtractionV1Error else .ok ()
      else .error additionV1Error := by
  simp only [validateHistory, expect, ok_bind, DeltaHistory.validateAgainstBaseValue,
    unsignedAdd_eq, unsignedSubtract]
  split_ifs <;> rfl

section

variable (collects : aggregator.Collects maxValue delta highest lowest)

include collects

theorem Collects.readAndMaterialize (id : String) (base : Nat) :
    (∀ value, Reaches maxValue highest lowest base delta value ↔
      ∃ after, aggregator.readAndMaterialize id (.ok (some base)) = .ok (value, after)) ∧
    aggregator.readAndMaterialize id (.ok (some base)) ≠ .error .panic := by
  obtain ⟨held, state, limit, _⟩ := aggregator
  obtain ⟨rfl, rfl, isDelta, atMost, atLeast⟩ := collects
  dsimp only at isDelta
  have notData : state ≠ .data := by rcases isDelta with ⟨rfl, _⟩ | ⟨rfl, _⟩ <;> simp
  simp only [Aggregator.readAndMaterialize, notData, if_false, Except.mapError, expect, ok_bind,
    validateHistory_eq]
  split_ifs with above below
  · exact ⟨fun _ => ⟨fun reaches => absurd reaches.below below.not_ge, by simp⟩, by rintro ⟨⟩⟩
  · have isRead (value : Nat) : Reaches limit highest lowest base delta value ↔
        value = (base + delta).toNat :=
      ⟨fun reaches => by have := reaches.isValue; omega, fun _ => ⟨above, by omega, by omega⟩⟩
    simp only [isRead]
    rcases isDelta with ⟨rfl, rfl⟩ | ⟨rfl, rfl⟩
    · simp only [ok_bind, unsignedAdd_eq, if_pos (show base + held ≤ limit by omega)]
      refine ⟨fun value => ⟨?_, ?_⟩, by rintro ⟨⟩⟩
      · rintro rfl
        exact ⟨_, rfl⟩
      · rintro ⟨_, ⟨⟩⟩
        omega
    · simp only [ok_bind, unsignedSubtract, if_neg (show ¬ base < held by omega)]
      refine ⟨fun value => ⟨?_, ?_⟩, by rintro ⟨⟩⟩
      · rintro rfl
        exact ⟨_, by rw [← sub_eq_add_neg, Int.toNat_sub]; rfl⟩
      · rintro ⟨_, ⟨⟩⟩
        omega
  · exact ⟨fun _ => ⟨fun reaches => absurd reaches.above above, by simp⟩, by rintro ⟨⟩⟩

/-- From any state of the aggregator, the rest does what the eager run does from the value
reached so far. -/
theorem Collects.agrees (id : String) (base value : Nat) (operations : List AggregatorOperation) :
    ((∃ start, Reaches maxValue highest lowest base delta start ∧
        operations.foldlM (eagerly maxValue) start = some value) ↔
      ∃ reached after, runAll Aggregator.perform aggregator operations = .ok reached ∧
        reached.readAndMaterialize id (.ok (some base)) = .ok (value, after)) ∧
    ∀ reached, runAll Aggregator.perform aggregator operations = .ok reached →
      reached.readAndMaterialize id (.ok (some base)) ≠ .error .panic := by
  induction operations generalizing aggregator delta highest lowest with
  | nil =>
    obtain ⟨reads, notPanic⟩ := collects.readAndMaterialize id base
    simpa [runAll, reads] using notPanic
  | cons operation rest inductionHypothesis =>
    simp only [List.foldlM_cons, Option.bind_eq_bind, Option.bind_eq_some_iff, eagerly,
      Option.ite_none_right_eq_some, Option.some.injEq]
    rcases collects.perform operation rfl with ⟨after, isOk, next⟩ | ⟨⟨error, isError⟩, leaves⟩
    · rw [runAll, isOk]
      refine ⟨Iff.trans ?_ (inductionHypothesis next).1, (inductionHypothesis next).2⟩
      constructor
      · rintro ⟨start, ⟨above, below, isStart⟩, moved, ⟨inBounds, rfl⟩, isRest⟩
        exact ⟨_, ⟨by omega, by omega, by omega⟩, isRest⟩
      · rintro ⟨moved, ⟨above, below, isMoved⟩, isRest⟩
        obtain ⟨_, _, _, atMost, atLeast⟩ := collects
        exact ⟨(base + delta).toNat, ⟨by omega, by omega, by omega⟩, moved,
          ⟨by omega, by omega⟩, isRest⟩
    · rw [runAll, isError]
      refine ⟨⟨?_, by simp⟩, by simp⟩
      rintro ⟨start, ⟨above, below, isStart⟩, moved, ⟨inBounds, rfl⟩, isRest⟩
      omega

end

/-- Lazy and eager arithmetic agree, and a read does not panic. -/
theorem lazy_agrees_with_eager {maxValue base : Nat} (inBounds : base ≤ maxValue) (id : String)
    (operations : List AggregatorOperation) (value : Nat) :
    (operations.foldlM (eagerly maxValue) base = some value ↔
      ∃ reached after, runAll perform (new maxValue) operations = .ok reached ∧
        reached.readAndMaterialize id (.ok (some base)) = .ok (value, after)) ∧
    ∀ reached, runAll perform (new maxValue) operations = .ok reached →
      reached.readAndMaterialize id (.ok (some base)) ≠ .error .panic := by
  have starts : (new maxValue).Collects maxValue 0 0 0 :=
    ⟨rfl, rfl, .inl ⟨rfl, rfl⟩, le_refl _, le_refl _⟩
  have ⟨agrees, notPanic⟩ := starts.agrees id base value operations
  refine ⟨Iff.trans ?_ agrees, notPanic⟩
  constructor
  · exact fun isValue => ⟨base, ⟨inBounds, Nat.zero_le _, by simp⟩, isValue⟩
  · rintro ⟨start, ⟨_, _, isStart⟩, isValue⟩
    obtain rfl : start = base := by omega
    exact isValue

/-- The delta goes below zero and back on its way to three. -/
theorem read_after_sub_and_add :
    ∃ reached after, runAll perform (new 10) [.sub 2, .add 5] = .ok reached ∧
      reached.readAndMaterialize "" (.ok (some 4)) = .ok (7, after) :=
  (lazy_agrees_with_eager (by decide : 4 ≤ 10) "" [.sub 2, .add 5] 7).1.mp rfl

end Aggregator

end LumioNode
