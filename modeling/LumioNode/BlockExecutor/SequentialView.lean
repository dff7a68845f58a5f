import LumioNode.BlockExecutor.LatestView

/-! # The reads of a transaction in sequential execution

A value from storage is exchanged in the map when its layout is known; value reads and
reads of missing tags are recorded. -/

namespace LumioNode

open Library

variable {Key Tag Metadata Layout Id Module : Type}
  [DecidableEq Key] [DecidableEq Tag] [DecidableEq Id] [Inhabited Metadata]

namespace UnsyncMap

variable (map : UnsyncMap Key Tag Metadata Layout Id)

def setBaseValue (key : Key) (value : ValueWithLayout (WriteOp Metadata) Layout) :
    UnsyncMap Key Tag Metadata Layout Id :=
  { map with resourceMap := map.resourceMap.insert key value }

def groupSizeAsSum (groupTaggedResourceSize : Tag → Nat → Except Fault Nat)
    (members : List (Tag × Nat)) : Except Fault ResourceGroupSize := do
  let sizes ← members.mapM fun member =>
    groupTaggedResourceSize member.1 member.2
  return .combined sizes.length sizes.sum

def baseMembers (baseValues : List (Tag × WriteOp Metadata)) :
    Table Tag (ValueWithLayout (WriteOp Metadata) Layout) :=
  baseValues.foldl (fun members value => members.insert value.1 (.rawFromStorage value.2)) ∅

def setGroupBaseValues (groupTaggedResourceSize : Tag → Nat → Except Fault Nat)
    (groupKey : Key) (baseValues : List (Tag × WriteOp Metadata)) :
    Except Fault (UnsyncMap Key Tag Metadata Layout Id) := do
  let members := baseMembers baseValues
  let size ← groupSizeAsSum groupTaggedResourceSize (members.entries.filterMap fun member =>
      member.2.value.extractRawBytes.map fun bytes =>
        (member.1, bytes.length))
  ensure (map.groupCache.lookup groupKey).isNone .panic
  return { map with
    groupCache := map.groupCache.insert groupKey ⟨members, size⟩ }

def updateTaggedBaseValueWithLayout (groupKey : Key) (tag : Tag) (value : WriteOp Metadata)
    (layout : Option Layout) : Except Fault (UnsyncMap Key Tag Metadata Layout Id) := do
  let group ← expect .panic (map.groupCache.lookup groupKey)
  return { map with groupCache := map.groupCache.insert groupKey { group with
    members := group.members.insert tag (.exchanged value layout) } }

def setBaseDelayedFields (fields : List (Id × DelayedFieldValue)) :
    UnsyncMap Key Tag Metadata Layout Id :=
  let insertField (fields : Table Id DelayedFieldValue)
      (field : Id × DelayedFieldValue) := fields.insert field.1 field.2
  { map with
    delayedFieldMap := fields.foldl insertField map.delayedFieldMap }

end UnsyncMap

/-- The map, the next identifier unused and the keys read. -/
structure SequentialState (Key Tag Metadata Layout Id Module : Type) where
  map : UnsyncMap Key Tag Metadata Layout Id
  counter : Nat
  readSet : UnsyncReadSet Key Tag Id Module := {}

namespace SequentialState

variable (env : ViewEnv Key Tag Metadata Layout Id)
  (state : SequentialState Key Tag Metadata Layout Id Module)

/-- The exchange of a value that the map has from storage. -/
def patch (raw : WriteOp Metadata) (layout : Option Layout) : Except Fault (WriteOp Metadata ×
      SequentialState Key Tag Metadata Layout Id Module) := do
  let patched ← env.patchBaseValue raw layout
  let (value, fields) := patched state.counter
  return (value, { state with
    map := state.map.setBaseDelayedFields fields
    counter := state.counter + fields.length })

/-- The resource as it is to be read, exchanged in the map if need be. -/
def upgradeData (key : Key) (layout : Option (Option Layout))
    (value : ValueWithLayout (WriteOp Metadata) Layout) :
    Except Fault (ValueWithLayout (WriteOp Metadata) Layout ×
      SequentialState Key Tag Metadata Layout Id Module) :=
  match needsPatch layout value with
  | none => .ok (value, state)
  | some (raw, known) => do
      let (patched, state) ← state.patch env raw known
      return (.exchanged patched known, { state with
        map := state.map.setBaseValue key (.exchanged patched known) })

variable (groupKey : Key)

def upgradeGroup (tag : Tag) (layout : Option (Option Layout))
    (value : ValueWithLayout (WriteOp Metadata) Layout) :
    Except Fault (ValueWithLayout (WriteOp Metadata) Layout ×
      SequentialState Key Tag Metadata Layout Id Module) :=
  match needsPatch layout value with
  | none => .ok (value, state)
  | some (raw, known) => do
      let (patched, state) ← state.patch env raw known
      let map ← state.map.updateTaggedBaseValueWithLayout groupKey tag patched known
      return (.exchanged patched known, { state with map := map })

def recordResource (key : Key) : SequentialState Key Tag Metadata Layout Id Module :=
  { state with readSet := { state.readSet with
      resourceReads := key :: state.readSet.resourceReads } }

def recordGroup (tag : Tag) : SequentialState Key Tag Metadata Layout Id Module :=
  { state with readSet := { state.readSet with
      groupReads := (groupKey, tag) :: state.readSet.groupReads } }

/-- `read_cached_data_by_kind`; there is no result if the map has no value. -/
def readCachedData (key : Key) (kind : ReadKind) (layout : Option (Option Layout)) :
    Except Fault (Option (ReadResult Metadata Layout) ×
      SequentialState Key Tag Metadata Layout Id Module) :=
  match state.map.fetchData key with
  | none => .ok (none, state)
  | some value => do
      let (value, state) ← state.upgradeData env key layout value
      let read ← expect (.error
        "Unsync map has RawFromStorage value type, while we are requesting value")
        ((DataRead.fromValueWithLayout none value).convertTo kind)
      let result ← ReadResult.fromDataRead read
      return (some result, if kind = .value then state.recordResource key else state)

def getResourceStateValue (key : Key) (kind : ReadKind) (layout : Option (Option Layout)) :
    Except Fault (SequentialState Key Tag Metadata Layout Id Module) := do
  let (result, state) ← state.readCachedData env key kind layout
  match result with
  | some _ => return state
  | none =>
    let stored ← env.getStateValue key
    let (result, state) ← readCachedData env { state with
      map := state.map.setBaseValue key
        (.rawFromStorage (WriteOp.fromStateValue stored)) } key kind layout
    ensure (result.isSome) (.error "base value must already be recorded in the MV data structure")
    return state

def readCachedGroupTaggedData (tag : Tag) (kind : ReadKind)
    (layout : Option (Option Layout)) :
    Except Fault (Option (ReadResult Metadata Layout) ×
      SequentialState Key Tag Metadata Layout Id Module) :=
  match state.map.fetchGroupTaggedData groupKey tag with
  | .ok value => do
      let (value, state) ← state.upgradeGroup env groupKey tag layout value
      let read ← expect (.error "Could not convert value to kind ReadResult")
        ((DataRead.fromValueWithLayout none value).convertTo kind)
      let result ← ReadResult.fromGroupDataRead read
      return (some result, if kind = .value then state.recordGroup groupKey tag else state)
  | .error .uninitialized => .ok (none, state)
  | .error .tagNotFound => do
      let emptyDataRead : DataRead Metadata Layout :=
        .versioned none (WriteOp.fromStateValue none) none
      let read ← expect .panic (emptyDataRead.convertTo kind)
      let result ← ReadResult.fromGroupDataRead read
      return (some result, state.recordGroup groupKey tag)

/-- `initialize_mvhashmap_base_group_contents`. -/
def setBaseGroup :
    Except Fault (SequentialState Key Tag Metadata Layout Id Module) := do
  let (members, metadataOp) ← env.baseGroup groupKey
  let map ← state.map.setGroupBaseValues env.groupTaggedResourceSize groupKey members
  return { state with
    map := map.setBaseValue groupKey (.rawFromStorage metadataOp) }

def getResourceFromGroup (tag : Tag) (kind : ReadKind)
    (layout : Option (Option Layout)) :
    Except Fault (SequentialState Key Tag Metadata Layout Id Module) := do
  let (result, state) ← state.readCachedGroupTaggedData env groupKey tag kind layout
  match result with
  | some _ => return state
  | none =>
    let state ← state.setBaseGroup env groupKey
    let (result, state) ← state.readCachedGroupTaggedData env groupKey tag kind layout
    ensure (result.isSome) .panic
    return state

def resourceGroupSize :
    Except Fault (SequentialState Key Tag Metadata Layout Id Module) :=
  match state.map.getGroupSize groupKey with
  | some _ => .ok state
  | none => do
      let state ← state.setBaseGroup env groupKey
      ensure (state.map.getGroupSize groupKey).isSome
        (.error "Group size not found for the group read")
      return state

def getDelayedFieldValue (id : Id) :
    Except Fault (SequentialState Key Tag Metadata Layout Id Module) := do
  let _ ← expect (.error
    "DelayedField not found in get_delayed_field_value in sequential execution")
    (state.map.fetchDelayedField id)
  return { state with readSet := { state.readSet with
    delayedFieldReads := id :: state.readSet.delayedFieldReads } }

def delayedFieldTryAddDelta (id : Id) (baseDelta : SignedU128) (maxValue : Nat) :
    Except Fault (SequentialState Key Tag Metadata Layout Id Module) := do
  let value ← expect (.error
    "DelayedField not found in delayed_field_try_add_delta_outcome in sequential execution")
    (state.map.fetchDelayedField id)
  let base ← outcomeOf value.intoAggregatorValue
  let _ ← outcomeOf (expectOk ((⟨maxValue⟩ : BoundedMath).unsignedAddDelta base baseDelta))
  return state

def read : ReadRequest Key Tag Layout Id Module →
    Except Fault (SequentialState Key Tag Metadata Layout Id Module)
  | .resource key kind layout =>
    state.getResourceStateValue env key kind layout
  | .groupMember groupKey tag kind layout =>
    state.getResourceFromGroup env groupKey tag kind layout
  | .groupSize groupKey => state.resourceGroupSize env groupKey
  | .delayedFieldValue id => state.getDelayedFieldValue id
  | .tryAddDelta id baseDelta _ maxValue =>
    state.delayedFieldTryAddDelta id baseDelta maxValue
  | .module id => .ok { state with readSet := { state.readSet with
      moduleReads := id :: state.readSet.moduleReads } }

def reads (requests : List (ReadRequest Key Tag Layout Id Module)) :
    Except Fault (SequentialState Key Tag Metadata Layout Id Module) :=
  requests.foldlM (fun state request => state.read env request) state

end SequentialState

end LumioNode
