import LumioNode.BlockExecutor.CapturedReads

/-! # Sequential execution of a block

Each output is applied and the touched groups are serialized; in the fallback a check
discards transactions first.  The virtual machine, delayed field ids and gas limits are
parameters. -/

namespace LumioNode

open Library

abbrev GroupWrite (Key Tag Metadata Layout : Type) :=
  (_ : Key) × (WriteOp Metadata × ResourceGroupSize × Table Tag (WriteOp Metadata × Option Layout))

/-- What sequential execution reads of an output before it is materialized. -/
structure TxnOutput (Key Tag Metadata Layout Id : Type) where
  resourceWriteSet : List (Key × WriteOp Metadata × Option Layout)
  resourceGroupWriteSet : Table Key (WriteOp Metadata × ResourceGroupSize ×
    Table Tag (WriteOp Metadata × Option Layout))
  aggregatorV1WriteSet : Table Key (WriteOp Metadata)
  delayedFieldChangeSet : Table Id (DelayedChange Id)
  groupReadsNeedingDelayedFieldExchange : List (Key × Metadata)
  hasNewEpochEvent : Bool

section DelayedFields

variable {Id : Type} [DecidableEq Id]

def applyToBaseUnwrap (apply : DelayedApplyChange Id)
    (base : DelayedFieldValue) : Except Fault DelayedFieldValue :=
  (DelayedApplyChange.applyToBase apply base).mapError fun _ => .panic

/-- What the two phases pass on. -/
structure DelayedUpdates (Id : Type) where
  updates : Table Id DelayedFieldValue
  secondPhase : List (Id × Id × DelayedApplyChange Id)

def firstPhase (fields : Table Id DelayedFieldValue) (done : DelayedUpdates Id)
    (change : Id × DelayedChange Id) : Except Fault (DelayedUpdates Id) :=
  match change with
  | (id, .create value) => do
      ensure (fields.lookup id = none) .panic
      return { done with updates := done.updates.insert id value }
  | (id, .apply apply) =>
    match apply.getApplyBaseId id with
    | .previous baseId => do
        let base ← expect .panic (fields.lookup baseId)
        let value ← applyToBaseUnwrap apply base
        return { done with updates := done.updates.insert id value }
    | .current baseId =>
      .ok { done with
        secondPhase := done.secondPhase ++ [(id, baseId, apply)] }

def secondPhase (fields updates : Table Id DelayedFieldValue)
    (change : Id × Id × DelayedApplyChange Id) : Except Fault (Table Id DelayedFieldValue) := do
  let base ← expect .panic ((updates.lookup change.2.1).or (fields.lookup change.2.1))
  let value ← applyToBaseUnwrap change.2.2 base
  return updates.insert change.1 value

def applyDelayedFieldChanges (fields : Table Id DelayedFieldValue)
    (changes : List (Id × DelayedChange Id)) : Except Fault (Table Id DelayedFieldValue) := do
  let first ← changes.foldlM (firstPhase fields) ⟨∅, []⟩
  let updates ← first.secondPhase.foldlM (secondPhase fields) first.updates
  return updates.entries.foldl (fun fields entry => fields.insert entry.1 entry.2) fields

end DelayedFields

section Apply

variable {Key Tag Metadata Layout Id : Type} [DecidableEq Key] [DecidableEq Tag] [DecidableEq Id]

def applyGroupWrite (map : UnsyncMap Key Tag Metadata Layout Id)
    (write : GroupWrite Key Tag Metadata Layout) :
    Except Fault (UnsyncMap Key Tag Metadata Layout Id) := do
  let map ← map.insertGroupOps write.1
    (write.2.2.2.entries.map fun op => (op.1, op.2.1, op.2.2)) write.2.2.1
  return map.write write.1 write.2.1 none

/-- `apply_output_sequential`; the module cache may refuse a module. -/
def applyOutputSequential (map : UnsyncMap Key Tag Metadata Layout Id)
    (addModuleWrites : Except Fault Unit) (output : TxnOutput Key Tag Metadata Layout Id) :
    Except Fault (UnsyncMap Key Tag Metadata Layout Id) := do
  let map := output.resourceWriteSet.foldl
    (fun map write => map.write write.1 write.2.1 write.2.2) map
  let map ← output.resourceGroupWriteSet.entries.foldlM applyGroupWrite map
  let map := output.aggregatorV1WriteSet.entries.foldl
    (fun map write => map.write write.1 write.2 none) map
  addModuleWrites
  let fields ← applyDelayedFieldChanges map.delayedFieldMap
    (output.delayedFieldChangeSet.entries.map fun change =>
      (change.1, change.2))
  return { map with delayedFieldMap := fields }

end Apply

inductive BlockExecutionError where
  | fatalBlockExecutorError (message : String)
  | fatalVMError
deriving DecidableEq, Repr

inductive SequentialBlockExecutionError where
  | panic
  | resourceGroupSerializationError
  | errorToReturn (error : BlockExecutionError)
deriving DecidableEq, Repr

/-- How a code invariant error leaves sequential execution. -/
def toSequentialError : Fault → SequentialBlockExecutionError
  | .panic => .panic
  | .error message => .errorToReturn (.fatalBlockExecutorError message)

inductive ExecutionStatus (Output : Type) where
  | success (output : Output)
  | skipRest (output : Output)
  | abort
  | delayedFieldsCodeInvariantError (message : String)
  | speculativeExecutionAbortError (message : String)

inductive TxnOutcome (Output : Type) where
  | committed (output : Output)
  | discarded
  | skipped
deriving Repr

def maxSequenceLength : Nat := 2 ^ 31 - 1

def serializedLen {Tag : Type} (tagLen : Tag → Option Nat)
    (shape : List (Tag × Nat)) : Option Nat := do
  guard (shape.length ≤ maxSequenceLength)
  let lens ← shape.mapM fun member => do
    guard (member.2 ≤ maxSequenceLength)
    return (← tagLen member.1) + sizeU32AsUleb128 member.2 + member.2
  return sizeU32AsUleb128 shape.length + lens.sum

/-- A group does not serialize to the recorded size. -/
def sizeMismatch {Tag : Type} (tagLen : Tag → Option Nat)
    (shape : List (Tag × Nat)) (size : ResourceGroupSize) : Bool :=
  match serializedLen tagLen shape with
  | some len => (!shape.isEmpty || size.get != 0) && len != size.get
  | none => true

def groupShape {Tag : Type} (group : Table Tag Bytes) : List (Tag × Nat) :=
  group.entries.map fun member => (member.1, member.2.length)

/-- The raw bytes of the members; deletions should already be applied. -/
def rawGroup {Tag Metadata Layout : Type}
    (members : Table Tag (ValueWithLayout (WriteOp Metadata) Layout)) :
    Except Fault (Table Tag Bytes) := do
  ensure (∀ member ∈ members.entries, member.2.value.isDeletion = false) .panic
  return Table.mapValues (fun value => value.value.extractRawBytes.getD []) members

structure SequentialEnv (Key Tag Metadata Layout Id : Type) where
  numTxns : Nat
  /-- The virtual machine; reading puts base values into the map. -/
  executeTransaction : Nat → UnsyncMap Key Tag Metadata Layout Id →
    ExecutionStatus (TxnOutput Key Tag Metadata Layout Id) × UnsyncMap Key Tag Metadata Layout Id
  addModuleWrites : TxnOutput Key Tag Metadata Layout Id → Except Fault Unit
  replaceIdsWithValues : UnsyncMap Key Tag Metadata Layout Id →
    WriteOp Metadata → Layout → Except Fault (WriteOp Metadata)
  /-- Resource writes and events, after the groups. -/
  materializeRest : UnsyncMap Key Tag Metadata Layout Id →
    TxnOutput Key Tag Metadata Layout Id → Except Fault Unit
  shouldEndBlock : List (TxnOutcome (TxnOutput Key Tag Metadata Layout Id)) → Bool
  appendStateCheckpointToBlock : Bool
  genBlockEpilogue : List (TxnOutcome (TxnOutput Key Tag Metadata Layout Id)) → Except Fault Unit
  tagLen : Tag → Option Nat

namespace SequentialEnv

variable {Key Tag Metadata Layout Id : Type} [DecidableEq Key] [DecidableEq Tag] [DecidableEq Id]
  (env : SequentialEnv Key Tag Metadata Layout Id)

variable (map : UnsyncMap Key Tag Metadata Layout Id)

/-- The closure `finalize` of the check. -/
def finalize (groupKey : Key) :
    Except Fault (Table Tag Bytes × ResourceGroupSize) := do
  let group ← map.finalizeGroup groupKey
  return (← rawGroup group.members, group.size)

def readGroupFails
    (read : Key × Metadata) : Except Fault Bool := do
  let (finalizedGroup, groupSize) ← finalize map read.1
  return sizeMismatch env.tagLen (groupShape finalizedGroup) groupSize

def applyRawOp (group : Table Tag Bytes) (op : Tag × WriteOp Metadata × Option Layout) :
    Except Fault (Table Tag Bytes) :=
  if op.2.1.isDeletion then
    .ok (group.erase op.1)
  else do
    let bytes ← expect .panic op.2.1.extractRawBytes
    return group.insert op.1 bytes

def writtenGroupFails
    (write : GroupWrite Key Tag Metadata Layout) : Except Fault Bool := do
  let (finalizedGroup, groupSize) ← finalize map write.1
  if write.2.2.1.get ≠ groupSize.get then
    return false
  let finalizedGroup ← (write.2.2.2.entries.map fun op => (op.1, op.2.1, op.2.2)).foldlM
      applyRawOp finalizedGroup
  return sizeMismatch env.tagLen (groupShape finalizedGroup) groupSize

variable (output : TxnOutput Key Tag Metadata Layout Id)

/-- The check of the fallback, on the map before the writes are applied. -/
def serializationError : Except Fault Bool := do
  if ← output.groupReadsNeedingDelayedFieldExchange.anyM (env.readGroupFails map) then
    return true
  else
    output.resourceGroupWriteSet.entries.anyM (env.writtenGroupFails map)

/-- Written groups with their metadata op, then groups that were read. -/
def groupsToFinalize :
    List (Key × WriteOp Metadata × Bool) :=
  (output.resourceGroupWriteSet.entries.map fun write =>
      (write.1, write.2.1, false)) ++
    output.groupReadsNeedingDelayedFieldExchange.map fun read =>
      (read.1, .modification [] read.2, true)

def mapFinalizedGroup
    (group : Key × WriteOp Metadata × Bool) :
    Except Fault (WriteOp Metadata × CachedGroup Tag Metadata Layout) := do
  let finalized ← map.finalizeGroup group.1
  ensure (¬(group.2.2 = true ∧ group.2.1.isDeletion = true)) (.error
    "Value only read and exchanged, but metadata op is Deletion")
  ensure (finalized.members.entries.isEmpty = group.2.1.isDeletion) (.error
    "Group is empty but op is not deletion, or the other way around")
  return (group.2.1, finalized)

def patchValue :
    ValueWithLayout (WriteOp Metadata) Layout → Except Fault (WriteOp Metadata)
  | .rawFromStorage op => .ok op
  | .exchanged op none => .ok op
  | .exchanged op (some layout) => env.replaceIdsWithValues map op layout

structure MaterializedGroup (Tag Metadata : Type) where
  metadataOp : WriteOp Metadata
  members : List (Tag × WriteOp Metadata)
  size : ResourceGroupSize

def materializeGroup
    (group : WriteOp Metadata × CachedGroup Tag Metadata Layout) :
    Except Fault (MaterializedGroup Tag Metadata) := do
  let members ← group.2.members.entries.mapM fun member => do
    return (member.1, ← env.patchValue map member.2)
  return ⟨group.1, members, group.2.size⟩

/-- `serialize_groups` for one group: the metadata op and the length of its bytes. -/
def serializeGroup (group : MaterializedGroup Tag Metadata) :
    Except SequentialBlockExecutionError (WriteOp Metadata × Nat) := do
  ensure (∀ member ∈ group.members, member.2.isDeletion = false) .panic
  let shape := group.members.map fun member =>
    (member.1, (member.2.extractRawBytes.getD []).length)
  if sizeMismatch env.tagLen shape group.size then
    .error .resourceGroupSerializationError
  else
    return (group.metadataOp, group.size.get)

/-- Applies the output and serializes the groups that it touched. -/
def commitOutput :
    Except SequentialBlockExecutionError (UnsyncMap Key Tag Metadata Layout Id) := do
  let after ← (applyOutputSequential map (env.addModuleWrites output)
    output).mapError toSequentialError
  let finalizedGroups ← ((groupsToFinalize output).mapM
    (mapFinalizedGroup after)).mapError toSequentialError
  let materialized ← (finalizedGroups.mapM (env.materializeGroup after)).mapError toSequentialError
  let _ ← materialized.mapM env.serializeGroup
  (env.materializeRest after output).mapError toSequentialError
  return after

/-- The variables of the loop, which skips what comes after the end of the block. -/
structure Progress (Key Tag Metadata Layout Id : Type) where
  unsyncMap : UnsyncMap Key Tag Metadata Layout Id
  ret : List (TxnOutcome (TxnOutput Key Tag Metadata Layout Id))
  ended : Bool
  hasEpilogue : Bool

/-- What follows the commit of a transaction. -/
def afterCommit (idx : Nat) (mustSkip : Bool) (output : TxnOutput Key Tag Metadata Layout Id)
    (map : UnsyncMap Key Tag Metadata Layout Id)
    (ret : List (TxnOutcome (TxnOutput Key Tag Metadata Layout Id))) :
    Except SequentialBlockExecutionError (Progress Key Tag Metadata Layout Id) := do
  if idx = env.numTxns then
    return ⟨map, ret, true, false⟩
  else if mustSkip ∨ env.shouldEndBlock ret ∨ idx + 1 = env.numTxns then
    let ret := ret ++ List.replicate (env.numTxns - ret.length) .skipped
    if env.appendStateCheckpointToBlock && !output.hasNewEpochEvent then
      (env.genBlockEpilogue ret).mapError toSequentialError
      return ⟨map, ret, true, true⟩
    else
      return ⟨map, ret, true, false⟩
  else
    return ⟨map, ret, false, false⟩

variable (resourceGroupBcsFallback : Bool)

/-- The arm of the match for an output. -/
def processOutput (idx : Nat) (mustSkip : Bool)
    (progress : Progress Key Tag Metadata Layout Id) (map : UnsyncMap Key Tag Metadata Layout Id)
    (output : TxnOutput Key Tag Metadata Layout Id) :
    Except SequentialBlockExecutionError (Progress Key Tag Metadata Layout Id) := do
  let discards ← if resourceGroupBcsFallback then
      (env.serializationError map output).mapError toSequentialError
    else
      .ok false
  if discards then
    return { progress with
      unsyncMap := map
      ret := progress.ret ++ [.discarded] }
  else
    let after ← env.commitOutput map output
    env.afterCommit idx mustSkip output after (progress.ret ++ [.committed output])

def executeNext (progress : Progress Key Tag Metadata Layout Id)
    (idx : Nat) : Except SequentialBlockExecutionError (Progress Key Tag Metadata Layout Id) :=
  match env.executeTransaction idx progress.unsyncMap with
  | (.success output, map) =>
    env.processOutput resourceGroupBcsFallback idx false progress map output
  | (.skipRest output, map) =>
    env.processOutput resourceGroupBcsFallback idx true progress map output
  | (.abort, _) => .error (.errorToReturn .fatalVMError)
  | (.delayedFieldsCodeInvariantError message, _) =>
    .error (.errorToReturn (.fatalBlockExecutorError message))
  | (.speculativeExecutionAbortError message, _) =>
    .error (.errorToReturn (.fatalBlockExecutorError message))

def loopBody (progress : Progress Key Tag Metadata Layout Id)
    (idx : Nat) : Except SequentialBlockExecutionError (Progress Key Tag Metadata Layout Id) :=
  if if idx < env.numTxns then !progress.ended else progress.hasEpilogue then
    env.executeNext resourceGroupBcsFallback progress idx
  else
    .ok progress

def executeTransactionsSequential :
    Except SequentialBlockExecutionError (Progress Key Tag Metadata Layout Id) :=
  runAll (env.loopBody resourceGroupBcsFallback) ⟨.new, [], false, false⟩
    (List.range (env.numTxns + 1))

end SequentialEnv

end LumioNode
