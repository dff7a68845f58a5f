import LumioNode.BlockExecutor.CapturedReads

/-! # The reads of a transaction

In parallel execution the map is shared, so a read is given the map's answers and keeps
what it finds in `CapturedReads`. -/

namespace LumioNode

open Library

inductive ReadResult (Metadata Layout : Type) where
  | value (stateValue : Option (Bytes × Metadata)) (layout : Option Layout)
  | metadata (metadata : Option Metadata)
  | resourceSize (size : Option Nat)
  | existence (isThere : Bool)
deriving Repr

inductive ReadRequest (Key Tag Layout Id Module : Type) where
  /-- Unknown, or known to be without delayed fields, or one with delayed fields. -/
  | resource (key : Key) (kind : ReadKind) (layout : Option (Option Layout))
  | groupMember (groupKey : Key) (tag : Tag) (kind : ReadKind)
      (layout : Option (Option Layout))
  | groupSize (groupKey : Key)
  | delayedFieldValue (id : Id)
  | tryAddDelta (id : Id) (baseDelta delta : SignedU128) (maxValue : Nat)
  | module (id : Module)

/-- What the views of a block share: storage, the exchange of ids, and serialization. -/
structure ViewEnv (Key Tag Metadata Layout Id : Type) where
  getStateValue : Key → Except Fault (Option (Bytes × Metadata))
  deserializeGroup : Bytes → Except Fault (List (Tag × Bytes))
  groupTaggedResourceSize : Tag → Nat → Except Fault Nat
  /-- The exchanged value and the base values of its delayed fields, with the next ids. -/
  patchBaseValue : WriteOp Metadata → Option Layout →
    Except Fault (Nat → WriteOp Metadata × List (Id × DelayedFieldValue))

section FromStorage

variable {Metadata : Type} [Inhabited Metadata]

def WriteOp.fromStateValue : Option (Bytes × Metadata) → WriteOp Metadata
  | none => .deletion default
  | some (bytes, metadata) => .modification bytes metadata

def WriteOp.asStateValue : WriteOp Metadata → Option (Bytes × Metadata)
  | .creation bytes metadata => some (bytes, metadata)
  | .modification bytes metadata => some (bytes, metadata)
  | .deletion _ => none

variable {Key Tag Layout Id : Type}

/-- The members of a group in storage and the write of its metadata. -/
def ViewEnv.baseGroup (env : ViewEnv Key Tag Metadata Layout Id) (groupKey : Key) :
    Except Fault (List (Tag × WriteOp Metadata) × WriteOp Metadata) := do
  let stored ← env.getStateValue groupKey
  let members ← match stored with
    | none => .ok []
    | some (bytes, _) => env.deserializeGroup bytes
  return (members.map fun (tag, bytes) =>
    (tag, WriteOp.fromStateValue (some (bytes, default))),
    WriteOp.fromStateValue stored)

variable {Layout : Type}

def serializeU128 (value : Nat) : Bytes := (List.range serializedU128Len).map fun position =>
    UInt8.ofNat (value / 256 ^ position)

def ReadResult.fromDataRead : DataRead Metadata Layout → Except Fault (ReadResult Metadata Layout)
  | .versioned _ write layout => .ok (.value write.asStateValue layout)
  | .resolved sum => .ok (.value (some (serializeU128 sum, default)) none)
  | .metadataAndResourceSize _ _ => .error .panic
  | .metadata found => .ok (.metadata found)
  | .resourceSize size => .ok (.resourceSize size)
  | .existence isThere => .ok (.existence isThere)

/-- `GroupReadResult::from_data_read`: no aggregators v1 and no metadata. -/
def ReadResult.fromGroupDataRead :
    DataRead Metadata Layout → Except Fault (ReadResult Metadata Layout)
  | .versioned _ write layout => .ok (.value write.asStateValue layout)
  | .resolved _ => .error .panic
  | .metadataAndResourceSize _ _ => .error .panic
  | .metadata _ => .error .panic
  | .resourceSize size => .ok (.resourceSize size)
  | .existence isThere => .ok (.existence isThere)

end FromStorage

/-- How the wait for another transaction ends. -/
inductive DependencyOutcome where
  | resolved
  | halted
  | failed
deriving DecidableEq, Repr

/-- The answer of the multi-version map to one call. -/
inductive MVAnswer (α : Type) where
  | found (output : α)
  /-- Also the answer for a delta without a base value. -/
  | uninitialized
  | tagNotFound
  | dependency (outcome : DependencyOutcome)
  /-- A delta that does not apply, or another speculative failure. -/
  | failure

inductive MVDataAnswer (Metadata Layout : Type) where
  | versioned (version : MVVersion)
      (value : ValueWithLayout (WriteOp Metadata) Layout)
  /-- An aggregator v1 value resolved through deltas. -/
  | resolved (value : Nat)

/-- The answers to the calls that one read makes. -/
inductive MVAnswers (Metadata Layout : Type) where
  | data (answers : List (MVAnswer (MVDataAnswer Metadata Layout)))
  | group (answers : List (MVAnswer
      (MVVersion × ValueWithLayout (WriteOp Metadata) Layout)))
  | groupSize (answers : List (MVAnswer ResourceGroupSize))
  | delayedField (answers : List (MVAnswer DelayedFieldValue))
  | none

section Parallel

variable {Key Tag Metadata Layout Id Module : Type} [DecidableEq Key] [DecidableEq Tag]
  [DecidableEq Id] [DecidableEq Metadata] [Inhabited Metadata]

/-- The layout with which a value from storage must be exchanged. -/
def needsPatch (layout : Option (Option Layout)) : ValueWithLayout (WriteOp Metadata) Layout →
      Option (WriteOp Metadata × Option Layout)
  | .rawFromStorage raw => layout.map fun known => (raw, known)
  | .exchanged _ _ => none

/-- A wait that goes on only if the dependency is resolved. -/
def waitForDependency (outcome : DependencyOutcome) : Except Fault Unit := match outcome with
  | .resolved => .ok ()
  | .halted => .error (.error "Interrupted as block execution was halted")
  | .failed => .error (.error "Error in wait for dependency")

variable (env : ViewEnv Key Tag Metadata Layout Id) (isV2 : Bool)

/-- The loop of `read_cached_data_by_kind`: the result, if there is one, and the answers left. -/
def readDataLoop (key : Key) (kind : ReadKind) (layout : Option (Option Layout))
    (captured : CapturedReads Key Tag Metadata Layout Id Module) :
    List (MVAnswer (MVDataAnswer Metadata Layout)) →
      Except Fault (Option (ReadResult Metadata Layout) ×
        CapturedReads Key Tag Metadata Layout Id Module ×
        List (MVAnswer (MVDataAnswer Metadata Layout)))
  | [] => .error (.error "the read has not returned")
  | .found (.versioned version value) :: rest =>
    match needsPatch layout value with
    | some (raw, known) => do
        ensure (version = none) .panic
        let _ ← env.patchBaseValue raw known
        readDataLoop key kind layout captured rest
    | none => do
        let (read, captured) ← captured.captureDataRead isV2 key
          (.fromValueWithLayout version value) kind
        let result ← ReadResult.fromDataRead read
        return (some result, captured, rest)
  | .found (.resolved value) :: rest => do
      let (read, captured) ← captured.captureDataRead isV2 key (.resolved value) kind
      let result ← ReadResult.fromDataRead read
      return (some result, captured, rest)
  | .uninitialized :: rest => .ok (none, captured, rest)
  | .tagNotFound :: _ => .error .panic
  | .dependency outcome :: rest => do
      waitForDependency outcome
      readDataLoop key kind layout captured rest
  | .failure :: _ =>
    .error (.error "Delta application failure (must be speculative)")

def readCachedData (key : Key) (kind : ReadKind) (layout : Option (Option Layout))
    (captured : CapturedReads Key Tag Metadata Layout Id Module)
    (answers : List (MVAnswer (MVDataAnswer Metadata Layout))) :
    Except Fault (Option (ReadResult Metadata Layout) ×
      CapturedReads Key Tag Metadata Layout Id Module ×
      List (MVAnswer (MVDataAnswer Metadata Layout))) :=
  match captured.getByKind key kind with
  | some read => do
      let result ← ReadResult.fromDataRead read
      return (some result, captured, answers)
  | none => readDataLoop env isV2 key kind layout captured answers

def getResourceStateValue (key : Key) (kind : ReadKind) (layout : Option (Option Layout))
    (captured : CapturedReads Key Tag Metadata Layout Id Module)
    (answers : List (MVAnswer (MVDataAnswer Metadata Layout))) :
    Except Fault (CapturedReads Key Tag Metadata Layout Id Module) := do
  let (result, captured, answers) ← readCachedData env isV2 key kind layout captured answers
  match result with
  | some _ => return captured
  | none =>
    let _ ← env.getStateValue key
    let (result, captured, _) ← readCachedData env isV2 key kind layout captured answers
    ensure (result.isSome) (.error "base value must already be recorded in the MV data structure")
    return captured

/-- The loop of `read_cached_group_tagged_data_by_kind`. -/
def readGroupLoop (groupKey : Key) (tag : Tag) (kind : ReadKind) (layout : Option (Option Layout))
    (captured : CapturedReads Key Tag Metadata Layout Id Module) :
    List (MVAnswer (MVVersion × ValueWithLayout (WriteOp Metadata) Layout)) →
      Except Fault (Option (ReadResult Metadata Layout) ×
        CapturedReads Key Tag Metadata Layout Id Module ×
        List (MVAnswer (MVVersion × ValueWithLayout (WriteOp Metadata) Layout)))
  | [] => .error (.error "the read has not returned")
  | .found (version, value) :: rest =>
    match needsPatch layout value with
    | some (raw, known) => do
        ensure (version = none) .panic
        let _ ← env.patchBaseValue raw known
        readGroupLoop groupKey tag kind layout captured rest
    | none => do
        let (read, captured) ← captured.captureGroupRead isV2 groupKey tag
          (.fromValueWithLayout version value) kind
        let result ← ReadResult.fromGroupDataRead read
        return (some result, captured, rest)
  | .uninitialized :: rest => .ok (none, captured, rest)
  | .tagNotFound :: rest =>
    readGroupLoop groupKey tag kind layout captured rest
  | .dependency outcome :: rest => do
      waitForDependency outcome
      readGroupLoop groupKey tag kind layout captured rest
  | .failure :: _ => .error .panic

def readCachedGroupTaggedData (groupKey : Key) (tag : Tag) (kind : ReadKind)
    (layout : Option (Option Layout)) (captured : CapturedReads Key Tag Metadata Layout Id Module)
    (answers : List (MVAnswer (MVVersion × ValueWithLayout (WriteOp Metadata) Layout))) :
    Except Fault (Option (ReadResult Metadata Layout) ×
      CapturedReads Key Tag Metadata Layout Id Module ×
      List (MVAnswer (MVVersion × ValueWithLayout (WriteOp Metadata) Layout))) := do
  let stored ← captured.getGroupByKind groupKey tag kind
  match stored with
  | some read =>
    let result ← ReadResult.fromGroupDataRead read
    return (some result, captured, answers)
  | none => readGroupLoop env isV2 groupKey tag kind layout captured answers

def getResourceFromGroup (groupKey : Key) (tag : Tag) (kind : ReadKind)
    (layout : Option (Option Layout)) (captured : CapturedReads Key Tag Metadata Layout Id Module)
    (answers : List (MVAnswer (MVVersion × ValueWithLayout (WriteOp Metadata) Layout))) :
    Except Fault (CapturedReads Key Tag Metadata Layout Id Module) := do
  let (result, captured, answers) ← readCachedGroupTaggedData env isV2
    groupKey tag kind layout captured answers
  match result with
  | some _ => return captured
  | none =>
    let _ ← env.baseGroup groupKey
    let (result, captured, _) ← readCachedGroupTaggedData env isV2
      groupKey tag kind layout captured answers
    ensure (result.isSome) .panic
    return captured

def readGroupSizeLoop (groupKey : Key)
    (captured : CapturedReads Key Tag Metadata Layout Id Module) :
    List (MVAnswer ResourceGroupSize) → Except Fault (Option ResourceGroupSize ×
        CapturedReads Key Tag Metadata Layout Id Module ×
        List (MVAnswer ResourceGroupSize))
  | [] => .error (.error "the read has not returned")
  | .found size :: rest => do
      let captured ← captured.captureGroupSize groupKey size
      return (some size, captured, rest)
  | .uninitialized :: rest => .ok (none, captured, rest)
  | .tagNotFound :: _ => .error .panic
  | .dependency outcome :: rest => do
      waitForDependency outcome
      readGroupSizeLoop groupKey captured rest
  | .failure :: _ => .error .panic

def readGroupSize (groupKey : Key) (captured : CapturedReads Key Tag Metadata Layout Id Module)
    (answers : List (MVAnswer ResourceGroupSize)) :
    Except Fault (Option ResourceGroupSize × CapturedReads Key Tag Metadata Layout Id Module ×
      List (MVAnswer ResourceGroupSize)) :=
  match (captured.groupRead groupKey).collectedSize with
  | some size => .ok (some size, captured, answers)
  | none => readGroupSizeLoop groupKey captured answers

def resourceGroupSize (groupKey : Key) (captured : CapturedReads Key Tag Metadata Layout Id Module)
    (answers : List (MVAnswer ResourceGroupSize)) :
    Except Fault (CapturedReads Key Tag Metadata Layout Id Module) := do
  let (size, captured, answers) ← readGroupSize groupKey captured answers
  match size with
  | some _ => return captured
  | none =>
    let _ ← env.baseGroup groupKey
    let (size, captured, _) ← readGroupSize groupKey captured answers
    ensure (size.isSome) (.error "Group size not found for the group read")
    return captured

def readDelayedFieldLoop : List (MVAnswer DelayedFieldValue) → Except Fault DelayedFieldValue
  | [] => .error (.error "the read has not returned")
  | .found value :: _ => .ok value
  | .uninitialized :: _ => .error (.error "InconsistentRead")
  | .tagNotFound :: _ => .error (.error "InconsistentRead")
  | .dependency outcome :: rest => do
      waitForDependency outcome
      readDelayedFieldLoop rest
  | .failure :: _ => .error (.error "InconsistentRead")

def getDelayedFieldValue (id : Id) (captured : CapturedReads Key Tag Metadata Layout Id Module)
    (answers : List (MVAnswer DelayedFieldValue)) :
    Except Fault (CapturedReads Key Tag Metadata Layout Id Module) :=
  if (captured.delayedFieldReads.lookup id).any DelayedFieldRead.isValue then
    .ok captured
  else do
    let value ← readDelayedFieldLoop answers
    captured.captureDelayedFieldRead id false (.value value)

def outcomeOf {α : Type} : DeltaResult α → Except Fault α := Except.mapError fun failure =>
    match failure with
    | .panic => .panic
    | .codeInvariantError message => .error message
    | .or _ => .error "InconsistentRead"

/-- The history after another addition that succeeds or fails. -/
def historyAfterAddDelta (baseDelta delta : SignedU128) (maxValue : Nat)
    (history : DeltaHistory) (beforeValue : Nat) : DeltaResult DeltaHistory :=
  let math : BoundedMath := ⟨maxValue⟩
  match math.unsignedAddDelta beforeValue delta, delta with
  | .error _, .positive value => do
      let overflowDelta ← expectOk (okOverflow (math.unsignedAddDelta value baseDelta))
      return (overflowDelta.map history.recordOverflow).getD history
  | .error _, .negative value => do
      let underflowDelta ← expectOk (okOverflow (math.unsignedAddDelta value baseDelta.minus))
      return (underflowDelta.map history.recordUnderflow).getD history
  | .ok _, _ => do
      let newDelta ← expectOk (math.signedAdd baseDelta delta)
      return history.recordSuccess newDelta

def tryAddDeltaFromHistory (baseDelta delta : SignedU128) (maxValue : Nat) (history : DeltaHistory)
    (baseAggregatorValue : Nat) : DeltaResult DelayedFieldRead := do
  let beforeValue ← expectOk
    ((⟨maxValue⟩ : BoundedMath).unsignedAddDelta baseAggregatorValue baseDelta)
  let history ← historyAfterAddDelta baseDelta delta maxValue history beforeValue
  return .historyBounded history maxValue baseAggregatorValue

/-- `compute_delayed_field_try_add_delta_outcome_first_time`. -/
def tryAddDeltaFirstTime (delta : SignedU128) (maxValue : Nat)
    (baseAggregatorValue : Nat) : DelayedFieldRead :=
  let math : BoundedMath := ⟨maxValue⟩
  let history : DeltaHistory := match math.unsignedAddDelta baseAggregatorValue delta, delta with
    | .error _, .positive value => ({} : DeltaHistory).recordOverflow value
    | .error _, .negative value => ({} : DeltaHistory).recordUnderflow value
    | .ok _, _ => ({} : DeltaHistory).recordSuccess delta
  .historyBounded history maxValue baseAggregatorValue

def delayedFieldTryAddDelta (id : Id) (baseDelta delta : SignedU128) (maxValue : Nat)
    (captured : CapturedReads Key Tag Metadata Layout Id Module)
    (answers : List (MVAnswer DelayedFieldValue)) :
    Except Fault (CapturedReads Key Tag Metadata Layout Id Module) :=
  if maxValue < delta.abs then
    .ok captured
  else
    match captured.delayedFieldReads.lookup id with
    | some (.value value) => do
        let base ← outcomeOf value.intoAggregatorValue
        let _ ← outcomeOf (expectOk ((⟨maxValue⟩ : BoundedMath).unsignedAddDelta base baseDelta))
        return captured
    | some (.historyBounded history beforeMaxValue innerValue) => do
        ensure (beforeMaxValue = maxValue) (.error "Cannot merge deltas with different limits")
        let read ← outcomeOf (tryAddDeltaFromHistory baseDelta delta maxValue history innerValue)
        captured.captureDelayedFieldRead id true read
    | none => do
        ensure (baseDelta.isZero) (.error
          "Passed-in delta is not zero, but CapturedReads has no record")
        let predicted ← readDelayedFieldLoop answers
        let base ← outcomeOf predicted.intoAggregatorValue
        captured.captureDelayedFieldRead id false (tryAddDeltaFirstTime delta maxValue base)

def parallelRead (captured : CapturedReads Key Tag Metadata Layout Id Module) :
    ReadRequest Key Tag Layout Id Module → MVAnswers Metadata Layout →
      Except Fault (CapturedReads Key Tag Metadata Layout Id Module)
  | .resource key kind layout, .data answers =>
    getResourceStateValue env isV2 key kind layout captured answers
  | .groupMember groupKey tag kind layout, .group answers =>
    getResourceFromGroup env isV2 groupKey tag kind layout captured answers
  | .groupSize groupKey, .groupSize answers =>
    resourceGroupSize env groupKey captured answers
  | .delayedFieldValue id, .delayedField answers =>
    getDelayedFieldValue id captured answers
  | .tryAddDelta id baseDelta delta maxValue, .delayedField answers =>
    delayedFieldTryAddDelta id baseDelta delta maxValue captured answers
  | .module id, .none =>
    .ok { captured with moduleReads := id :: captured.moduleReads }
  | _, _ => .error (.error "the answers are to another read")

def parallelReads
    (reads : List (ReadRequest Key Tag Layout Id Module × MVAnswers Metadata Layout)) :
    Except Fault (CapturedReads Key Tag Metadata Layout Id Module) :=
  reads.foldlM (fun captured read =>
    parallelRead env isV2 captured read.1 read.2) {}

end Parallel

end LumioNode
