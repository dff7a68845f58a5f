import LumioNode.Aggregator.DeltaMath
import LumioNode.Library.Table
import LumioNode.MVHashMap.VersionedData
import Mathlib.Data.Finset.Image

/-! # The map of sequential execution and the read sets of transactions

`UnsyncMap` has the latest values and the recorded group sizes.  `CapturedReads` and
`UnsyncReadSet`, the read sets of parallel and sequential execution, are summarized by
the keys that count as read. -/

namespace LumioNode

open Library

inductive WriteOp (Metadata : Type) where
  | creation (bytes : Bytes) (metadata : Metadata)
  | modification (bytes : Bytes) (metadata : Metadata)
  | deletion (metadata : Metadata)
deriving DecidableEq, Repr

inductive WriteOpKind where
  | creation
  | modification
  | deletion
deriving DecidableEq, Repr

namespace WriteOp

variable {Metadata : Type}

def writeOpKind : WriteOp Metadata → WriteOpKind
  | creation _ _ => .creation
  | modification _ _ => .modification
  | deletion _ => .deletion

def extractRawBytes : WriteOp Metadata → Option Bytes
  | creation bytes _ => some bytes
  | modification bytes _ => some bytes
  | deletion _ => none

def isDeletion (op : WriteOp Metadata) : Bool := op.extractRawBytes.isNone

def asStateValueMetadata : WriteOp Metadata → Option Metadata
  | creation _ metadata => some metadata
  | modification _ metadata => some metadata
  | deletion _ => none

instance : TransactionWrite (WriteOp Metadata) Metadata where
  bytes := extractRawBytes
  asStateValueMetadata := asStateValueMetadata

end WriteOp

/-- The loop of `size_u32_as_uleb128`. -/
def ulebLoop : Nat → Nat → Nat → Nat
  | 0, _, len => len
  | rounds + 1, value, len =>
    if 128 ≤ value then ulebLoop rounds (value / 128) (len + 1) else len

/-- Ten rounds are enough for a value of 64 bits. -/
def sizeU32AsUleb128 (value : Nat) : Nat := ulebLoop 10 value 1

inductive ResourceGroupSize where
  | concrete (size : Nat)
  | combined (numTaggedResources allTaggedResourcesSize : Nat)
deriving DecidableEq, Repr

def ResourceGroupSize.get : ResourceGroupSize → Nat
  | concrete size => size
  | combined numTaggedResources allTaggedResourcesSize =>
    if numTaggedResources = 0 then 0
    else sizeU32AsUleb128 numTaggedResources + allTaggedResourcesSize

/-- The latest members of a group and its recorded size. -/
structure CachedGroup (Tag Metadata Layout : Type) where
  members : Table Tag (ValueWithLayout (WriteOp Metadata) Layout)
  size : ResourceGroupSize

structure UnsyncMap (Key Tag Metadata Layout Id : Type) where
  resourceMap : Table Key (ValueWithLayout (WriteOp Metadata) Layout)
  groupCache : Table Key (CachedGroup Tag Metadata Layout)
  delayedFieldMap : Table Id DelayedFieldValue

inductive UnsyncGroupError where
  | uninitialized
  | tagNotFound
deriving DecidableEq, Repr

namespace UnsyncMap

variable {Key Tag Metadata Layout Id : Type} [DecidableEq Key] [DecidableEq Tag] [DecidableEq Id]

def new : UnsyncMap Key Tag Metadata Layout Id := ⟨∅, ∅, ∅⟩

variable (map : UnsyncMap Key Tag Metadata Layout Id)

def getGroupSize (groupKey : Key) : Option ResourceGroupSize :=
  (map.groupCache.lookup groupKey).map CachedGroup.size

def fetchGroupTaggedData (groupKey : Key) (valueTag : Tag) :
    Except UnsyncGroupError (ValueWithLayout (WriteOp Metadata) Layout) := do
  let group ← expect .uninitialized (map.groupCache.lookup groupKey)
  expect .tagNotFound (group.members.lookup valueTag)

/-- The latest members of a group that must be cached. -/
def finalizeGroup (groupKey : Key) : Except Fault (CachedGroup Tag Metadata Layout) :=
  expect .panic (map.groupCache.lookup groupKey)

/-- One write of a member: its kind has to fit what is there. -/
def insertGroupOp (members : Table Tag (ValueWithLayout (WriteOp Metadata) Layout))
    (valueTag : Tag) (op : WriteOp Metadata) (maybeLayout : Option Layout) :
    Except Fault (Table Tag (ValueWithLayout (WriteOp Metadata) Layout)) :=
  match members.lookup valueTag, op.writeOpKind with
  | some _, .deletion => .ok (members.erase valueTag)
  | some _, .modification =>
    .ok (members.insert valueTag (.exchanged op maybeLayout))
  | none, .creation =>
    .ok (members.insert valueTag (.exchanged op maybeLayout))
  | _, _ => .error (.error
      "WriteOp kind not consistent with previous value at tag")

def insertGroupOps (groupKey : Key) (groupOps : List (Tag × WriteOp Metadata × Option Layout))
    (groupSize : ResourceGroupSize) : Except Fault (UnsyncMap Key Tag Metadata Layout Id) := do
  let group ← map.finalizeGroup groupKey
  let members ← groupOps.foldlM (fun members op => insertGroupOp members op.1 op.2.1 op.2.2)
    group.members
  return { map with
    groupCache := map.groupCache.insert groupKey ⟨members, groupSize⟩ }

def fetchData (key : Key) : Option (ValueWithLayout (WriteOp Metadata) Layout) :=
  map.resourceMap.lookup key

def write (key : Key) (op : WriteOp Metadata) (layout : Option Layout) :
    UnsyncMap Key Tag Metadata Layout Id :=
  { map with resourceMap := map.resourceMap.insert key (.exchanged op layout) }

def fetchDelayedField (id : Id) : Option DelayedFieldValue := map.delayedFieldMap.lookup id

end UnsyncMap

inductive InputOutputKey (Key Tag Id : Type) where
  | resource (key : Key)
  | group (key : Key) (tag : Tag)
  | delayedField (id : Id)
deriving DecidableEq, Repr

inductive ReadKind where
  | value
  | metadataAndResourceSize
  | metadata
  | resourceSize
  | existence
deriving DecidableEq, Repr

/-- A read with the information that was asked for. -/
inductive DataRead (Metadata Layout : Type) where
  | versioned (version : MVVersion) (value : WriteOp Metadata)
      (layout : Option Layout)
  | metadataAndResourceSize (metadata : Option Metadata)
      (size : Option Nat)
  | metadata (metadata : Option Metadata)
  | resourceSize (size : Option Nat)
  | existence (isThere : Bool)
  /-- An aggregator v1 value resolved through deltas. -/
  | resolved (value : Nat)
deriving Repr

inductive DataReadComparison where
  | contains
  | inconsistent
  | insufficient
deriving DecidableEq, Repr

def serializedU128Len : Nat := 16

namespace DataRead

variable {Metadata Layout : Type}

def getKind : DataRead Metadata Layout → ReadKind
  | versioned _ _ _ => .value
  | resolved _ => .value
  | metadataAndResourceSize _ _ => .metadataAndResourceSize
  | metadata _ => .metadata
  | resourceSize _ => .resourceSize
  | existence _ => .existence

def isVersioned : DataRead Metadata Layout → Bool
  | versioned _ _ _ => true
  | _ => false

/-- Metadata and size that were read apart are put together. -/
def mergeMetadataAndSize : DataRead Metadata Layout → DataRead Metadata Layout →
      Option (DataRead Metadata Layout)
  | metadata found, resourceSize size =>
    some (metadataAndResourceSize found size)
  | resourceSize size, metadata found =>
    some (metadataAndResourceSize found size)
  | _, _ => none

def valueSize (value : WriteOp Metadata) : Option Nat := value.extractRawBytes.map List.length

section Convert

variable [Inhabited Metadata]

/-- The same read with less information, if there is enough. -/
def convertTo : DataRead Metadata Layout → ReadKind → Option (DataRead Metadata Layout)
  | versioned version value layout, .value =>
    some (versioned version value layout)
  | versioned _ value _, .metadataAndResourceSize =>
    some (metadataAndResourceSize value.asStateValueMetadata (valueSize value))
  | versioned _ value _, .metadata =>
    some (metadata value.asStateValueMetadata)
  | versioned _ value _, .resourceSize => some (resourceSize (valueSize value))
  | versioned _ value _, .existence => some (existence (!value.isDeletion))
  | resolved value, .value => some (resolved value)
  | resolved _, .metadataAndResourceSize =>
    some (metadataAndResourceSize (some default) (some serializedU128Len))
  | resolved _, .metadata => some (metadata (some default))
  | resolved _, .resourceSize => some (resourceSize (some serializedU128Len))
  | resolved _, .existence => some (existence true)
  | metadataAndResourceSize found size, .metadataAndResourceSize =>
    some (metadataAndResourceSize found size)
  | metadataAndResourceSize found _, .metadata => some (metadata found)
  | metadataAndResourceSize _ size, .resourceSize =>
    some (resourceSize size)
  | metadataAndResourceSize found _, .existence =>
    some (existence found.isSome)
  | metadata found, .metadata => some (metadata found)
  | metadata found, .existence => some (existence found.isSome)
  | resourceSize size, .resourceSize => some (resourceSize size)
  | resourceSize size, .existence => some (existence size.isSome)
  | existence isThere, .existence => some (existence isThere)
  | _, _ => none

/-- A value that was never exchanged is not to be used as a value. -/
def fromValueWithLayout (version : MVVersion) :
    ValueWithLayout (WriteOp Metadata) Layout → DataRead Metadata Layout
  | .rawFromStorage value =>
    metadataAndResourceSize value.asStateValueMetadata (valueSize value)
  | .exchanged value layout => versioned version value layout

theorem isVersioned_of_convertTo {read converted : DataRead Metadata Layout}
    {kind : ReadKind} (isConverted : read.convertTo kind = some converted) :
    converted.isVersioned = (read.isVersioned && decide (kind = .value)) := by
  cases read <;> cases kind <;> simp only [convertTo, reduceCtorEq,
    Option.some.injEq] at isConverted <;> subst isConverted <;> rfl

theorem convertTo_value {read : DataRead Metadata Layout}
    (isSome : (read.convertTo .value).isSome) :
    read.isVersioned ∨ ∃ value, read = .resolved value := by
  cases read with
  | versioned => exact .inl rfl
  | resolved value => exact .inr ⟨value, rfl⟩
  | metadataAndResourceSize | metadata | resourceSize | existence => cases isSome

omit [Inhabited Metadata] in
theorem fromValueWithLayout_ne_resolved {version : MVVersion}
    {value : ValueWithLayout (WriteOp Metadata) Layout} (sum : Nat) :
    fromValueWithLayout version value ≠ .resolved sum := by
  cases value <;> simp [fromValueWithLayout]

variable [DecidableEq Metadata]

/-- `data_read_equals`; the flag is that of Block-STM v2. -/
def dataReadEquals (isV2 : Bool) : DataRead Metadata Layout → DataRead Metadata Layout → Bool
  | versioned version value layout, versioned version' value' layout' =>
    version == version' || (isV2 && layout.isNone && layout'.isNone && value == value')
  | metadata found, metadata found' => found == found'
  | existence isThere, existence isThere' => isThere == isThere'
  | resolved value, resolved value' => value == value'
  | metadataAndResourceSize found size, metadataAndResourceSize found' size' =>
    found == found' && size == size'
  | resourceSize size, resourceSize size' => size == size'
  | _, _ => false

def compareDataReads (isV2 : Bool) (self other : DataRead Metadata Layout) : DataReadComparison :=
  if self.getKind = other.getKind then
    if dataReadEquals isV2 self other then .contains else .inconsistent
  else
    match self.convertTo other.getKind with
    | some value =>
      if dataReadEquals isV2 value other then .contains else .inconsistent
    | none => .insufficient

end Convert

end DataRead

def DeltaHistory.stricterThan (history other : DeltaHistory) : Bool :=
  let covers (self other : Option Nat) : Bool := match other with
    | none => true
    | some bound => self.any (· ≤ bound)
  decide (other.maxAchievedPositiveDelta ≤ history.maxAchievedPositiveDelta) &&
    decide (other.minAchievedNegativeDelta ≤ history.minAchievedNegativeDelta) &&
    covers history.minOverflowPositiveDelta other.minOverflowPositiveDelta &&
    covers history.maxUnderflowNegativeDelta other.maxUnderflowNegativeDelta

/-- A read of a delayed field: its value, or the outcomes of additions only. -/
inductive DelayedFieldRead where
  | value (value : DelayedFieldValue)
  | historyBounded (restriction : DeltaHistory) (maxValue : Nat)
      (innerAggregatorValue : Nat)
deriving Repr

namespace DelayedFieldRead

def isValue : DelayedFieldRead → Bool
  | value _ => true
  | historyBounded _ _ _ => false

def contains : DelayedFieldRead → DelayedFieldRead → DataReadComparison
  | value left, value right =>
    if left = right then .contains else .inconsistent
  | historyBounded history maxValue inner,
      historyBounded history' maxValue' inner' =>
      if inner = inner' ∧ maxValue = maxValue' ∧ history.stricterThan history' then
        .contains
      else
        .inconsistent
  | historyBounded _ _ _, value _ => .insufficient
  | value found, historyBounded history maxValue _ =>
    match found with
    | .aggregator base =>
      match history.validateAgainstBaseValue base maxValue with
      | .ok _ => .contains
      | .error _ => .inconsistent
    | _ => .inconsistent

end DelayedFieldRead

structure GroupRead (Tag Metadata Layout : Type) where
  collectedSize : Option ResourceGroupSize := none
  innerReads : Table Tag (DataRead Metadata Layout) := ∅

/-- The read set of parallel execution. Failed reads and modules are not part of it. -/
structure CapturedReads (Key Tag Metadata Layout Id Module : Type) where
  dataReads : Table Key (DataRead Metadata Layout) := ∅
  groupReads : Table Key (GroupRead Tag Metadata Layout) := ∅
  delayedFieldReads : Table Id DelayedFieldRead := ∅
  moduleReads : List Module := []

namespace CapturedReads

variable {Key Tag Metadata Layout Id Module : Type} [DecidableEq Key] [DecidableEq Tag]
  [DecidableEq Id] [DecidableEq Metadata] [Inhabited Metadata]

section Capture

/-- The entry of a key after another read of it. -/
def updateEntry (isV2 : Bool) (entry : Option (DataRead Metadata Layout))
    (read : DataRead Metadata Layout) : Except Fault (DataRead Metadata Layout) :=
  match entry with
  | none => .ok read
  | some existing =>
    match existing.mergeMetadataAndSize read with
    | some merged => .ok merged
    | none =>
      if read.getKind = existing.getKind then
        .error (.error "Read must be resolved from a stored read of same kind")
      else
        match read.compareDataReads isV2 existing with
        | .contains => .ok read
        | .inconsistent => .error (.error
            "Inconsistency in data reads (must be due to speculation)")
        | .insufficient => .error (.error
            "Read must be resolved from stored read of higher kind")

variable (captured : CapturedReads Key Tag Metadata Layout Id Module)

def groupRead (groupKey : Key) : GroupRead Tag Metadata Layout :=
  (captured.groupReads.lookup groupKey).getD {}

def innerRead (groupKey : Key) (tag : Tag) : Option (DataRead Metadata Layout) :=
  (captured.groupRead groupKey).innerReads.lookup tag

def captureDataRead (isV2 : Bool) (key : Key)
    (dataRead : DataRead Metadata Layout) (targetKind : ReadKind) :
    Except Fault (DataRead Metadata Layout × CapturedReads Key Tag Metadata Layout Id Module) := do
  let read ← expect (.error "Couldn't convert a value from versioned data map")
    (dataRead.convertTo targetKind)
  let entry ← updateEntry isV2 (captured.dataReads.lookup key) read
  return (read, { captured with dataReads := captured.dataReads.insert key entry })

def captureGroupRead (isV2 : Bool) (groupKey : Key) (tag : Tag)
    (dataRead : DataRead Metadata Layout) (targetKind : ReadKind) :
    Except Fault (DataRead Metadata Layout × CapturedReads Key Tag Metadata Layout Id Module) := do
  let read ← expect (.error "Couldn't convert a value from versioned group map")
    (dataRead.convertTo targetKind)
  let group := captured.groupRead groupKey
  let entry ← updateEntry isV2 (group.innerReads.lookup tag) read
  return (read, { captured with
    groupReads := captured.groupReads.insert groupKey { group with
      innerReads := group.innerReads.insert tag entry } })

def captureGroupSize (groupKey : Key) (groupSize : ResourceGroupSize) :
    Except Fault (CapturedReads Key Tag Metadata Layout Id Module) := do
  let group := captured.groupRead groupKey
  ensure (∀ recorded, group.collectedSize = some recorded → recorded = groupSize) .panic
  return { captured with
    groupReads := captured.groupReads.insert groupKey { group with
      collectedSize := some groupSize } }

def getByKind (key : Key) (kind : ReadKind) : Option (DataRead Metadata Layout) := do
  (← captured.dataReads.lookup key).convertTo kind

/-- `get_by_kind` of a group member, which has no metadata. -/
def getGroupByKind (groupKey : Key) (tag : Tag) (kind : ReadKind) :
    Except Fault (Option (DataRead Metadata Layout)) := do
  ensure (kind ≠ .metadata) .panic
  return (captured.innerRead groupKey tag).bind (·.convertTo kind)

/-- A read must be able to replace the one that is stored. -/
def replacesDelayedFieldRead (update : Bool) (read : DelayedFieldRead)
    (existing : DelayedFieldRead) : Except Fault Unit :=
  if (!read.isValue && existing.isValue) || (!update && read.isValue == existing.isValue) then
    .error (.error "Incorrect use capture_delayed_field_read")
  else
    match read.contains existing with
    | .contains => .ok ()
    | .inconsistent => .error (.error "InconsistentRead")
    | .insufficient =>
      .error (.error "Incorrect use capture_delayed_field_read")

def captureDelayedFieldRead (id : Id) (update : Bool) (read : DelayedFieldRead) :
    Except Fault (CapturedReads Key Tag Metadata Layout Id Module) := do
  whenSome (captured.delayedFieldReads.lookup id) (replacesDelayedFieldRead update read)
  return { captured with
    delayedFieldReads := captured.delayedFieldReads.insert id read }

end Capture

/-- The keys that count as read. -/
def getReadSummary (keyOfModule : Module → Key)
    (captured : CapturedReads Key Tag Metadata Layout Id Module) :
    Finset (InputOutputKey Key Tag Id) :=
  let resources : List (InputOutputKey Key Tag Id) :=
    (captured.dataReads.entries.filter fun entry =>
      entry.2.isVersioned).map fun entry => .resource entry.1
  let groupMembers : List (InputOutputKey Key Tag Id) :=
    captured.groupReads.entries.flatMap fun group =>
      (group.2.innerReads.entries.filter fun entry =>
        entry.2.isVersioned).map fun entry => .group group.1 entry.1
  let modules : List (InputOutputKey Key Tag Id) :=
    captured.moduleReads.map fun module => .resource (keyOfModule module)
  let delayedFields : List (InputOutputKey Key Tag Id) :=
    (captured.delayedFieldReads.entries.filter fun entry =>
      entry.2.isValue).map fun entry => .delayedField entry.1
  (resources ++ groupMembers ++ modules ++ delayedFields).toFinset

end CapturedReads

structure UnsyncReadSet (Key Tag Id Module : Type) where
  resourceReads : List Key := []
  groupReads : List (Key × Tag) := []
  delayedFieldReads : List Id := []
  moduleReads : List Module := []

def UnsyncReadSet.getReadSummary {Key Tag Id Module : Type} [DecidableEq Key] [DecidableEq Tag]
    [DecidableEq Id] (keyOfModule : Module → Key) (readSet : UnsyncReadSet Key Tag Id Module) :
    Finset (InputOutputKey Key Tag Id) :=
  let resources : List (InputOutputKey Key Tag Id) :=
    readSet.resourceReads.map fun key => .resource key
  let groupMembers : List (InputOutputKey Key Tag Id) :=
    readSet.groupReads.map fun read => .group read.1 read.2
  let modules : List (InputOutputKey Key Tag Id) :=
    readSet.moduleReads.map fun module => .resource (keyOfModule module)
  let delayedFields : List (InputOutputKey Key Tag Id) :=
    readSet.delayedFieldReads.map fun id => .delayedField id
  (resources ++ groupMembers ++ modules ++ delayedFields).toFinset

end LumioNode
