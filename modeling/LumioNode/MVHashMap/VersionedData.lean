import LumioNode.Library.Fallible
import LumioNode.Library.SortedMap

/-! # The multi-version data map

The entries of one key by shifted transaction index, the base value at the lowest, each
with its readers.  Aggregator deltas are left out. -/

namespace LumioNode

open Library

/-- The text of `code_invariant_error` around a message in debug format. -/
def codeInvariantError (message : String) : Fault :=
  .error ("Code invariant broken (there is a bug in the code), " ++ message.quote)

/-- `RegisteredReadDependencies`, and the plain maps that are handed back. -/
abbrev RegisteredReadDependencies := SortedMap Nat Nat

namespace RegisteredReadDependencies

open SortedMap List

variable (dependencies : RegisteredReadDependencies)

/-- Dependencies stored at an entry belong to later transactions. -/
def checkLowestDependencyIdx
    (txnIdx : Nat) : Except Fault Unit :=
  match dependencies.firstKey with
  | some lowestDepIdx => ensure (¬ lowestDepIdx ≤ txnIdx) (codeInvariantError
      s!"Dependency for txn {lowestDepIdx} recorded at idx {txnIdx}")
  | none => .ok ()

def record (txnIdx : Nat) (incarnation : Nat) :
    Except Fault RegisteredReadDependencies := do
  match dependencies.get? txnIdx with
  | some prevIncarnation =>
    ensure (¬ prevIncarnation > incarnation)
      (codeInvariantError <| s!"Recording dependency on txn {txnIdx} " ++
        s!"incarnation {incarnation}, found incarnation {prevIncarnation}")
  | none => pure ()
  return dependencies.insert txnIdx incarnation

def extendImpl
    (other : RegisteredReadDependencies) : RegisteredReadDependencies :=
  other.entries.foldl (fun merged entry =>
    match merged.get? entry.1 with
    | some present =>
      if present < entry.2 then merged.insert entry.1 entry.2 else merged
    | none => merged.insert entry.1 entry.2) dependencies

def extendWithHigherDependencies
    (other : RegisteredReadDependencies) : Except Fault RegisteredReadDependencies := do
  match dependencies.lastKey with
  | some highestDepIdx => checkLowestDependencyIdx other highestDepIdx
  | none => pure ()
  return extendImpl dependencies other

variable {dependencies other : RegisteredReadDependencies}

theorem checkLowestDependencyIdx_eq_ok {txnIdx : Nat}
    (higher : ∀ reader, (dependencies.get? reader).isSome → txnIdx < reader) :
    checkLowestDependencyIdx dependencies txnIdx = .ok () := by
  unfold checkLowestDependencyIdx
  cases isFirst : dependencies.firstKey with
  | none => rfl
  | some lowest =>
    have less := higher lowest (firstKey_eq_some isFirst).1
    exact ensure_of (Nat.not_le.mpr less)

theorem record_eq_ok {txnIdx : Nat} {incarnation : Nat}
    (notLower : ∀ previous, dependencies.get? txnIdx = some previous → previous ≤ incarnation) :
    record dependencies txnIdx incarnation = .ok (dependencies.insert txnIdx incarnation) := by
  unfold record
  cases found : dependencies.get? txnIdx with
  | none => rfl
  | some previous =>
    have atMost : ¬ previous > incarnation := Nat.not_lt.mpr (notLower previous found)
    simp only [ensure_of atMost, ok_bind, pure_eq_ok]

theorem foldl_eq_insert {added : List (Nat × Nat)} (nodup : (added.map Prod.fst).Nodup)
    (absent : ∀ entry ∈ added, dependencies.get? entry.1 = none) : added.foldl (fun merged entry =>
      match merged.get? entry.1 with
      | some present =>
        if present < entry.2 then merged.insert entry.1 entry.2 else merged
      | none => merged.insert entry.1 entry.2) dependencies =
      added.foldl (fun merged entry => merged.insert entry.1 entry.2)
        dependencies := by
  induction added generalizing dependencies with
  | nil => rfl
  | cons head rest inductionHypothesis =>
    obtain ⟨notAgain, restNodup⟩ := nodup_cons.mp nodup
    have restAbsent : ∀ entry ∈ rest, (dependencies.insert head.1 head.2).get? entry.1 = none := by
      intro entry member
      have different : entry.1 ≠ head.1 := by
        intro same
        exact notAgain (same ▸ mem_map_of_mem member)
      rw [get?_insert, if_neg different]
      exact absent entry (mem_cons_of_mem _ member)
    simp only [foldl_cons, absent head mem_cons_self]
    exact inductionHypothesis restNodup restAbsent

/-- Maps without a common reader are put together. -/
theorem get?_extendImpl (disjoint : ∀ reader, (other.get? reader).isSome →
      dependencies.get? reader = none) (reader : Nat) :
    (extendImpl dependencies other).get? reader =
      (other.get? reader).or (dependencies.get? reader) := by
  have nodup : (other.entries.map Prod.fst).Nodup := other.keys_nodup
  have absent : ∀ entry ∈ other.entries, dependencies.get? entry.1 = none := by
    intro entry member
    apply disjoint
    rw [get?_eq_some_iff.mpr member]
    rfl
  apply Option.ext
  intro incarnation
  rw [extendImpl, foldl_eq_insert nodup absent, get?_eq_some_iff, mem_foldl_insert nodup,
    ← get?_eq_some_iff, ← get?_eq_some_iff]
  have inKeys : reader ∈ other.entries.map Prod.fst ↔
      (other.get? reader).isSome := isSome_get?_iff.symm
  rw [inKeys]
  cases found : other.get? reader with
  | none | some => simp

theorem extendWithHigherDependencies_eq_ok
    (higher : ∀ reader highest, (dependencies.get? highest).isSome →
      (other.get? reader).isSome → highest < reader) :
    extendWithHigherDependencies dependencies other = .ok (extendImpl dependencies other) := by
  unfold extendWithHigherDependencies
  cases isLast : dependencies.lastKey with
  | none => rfl
  | some highest =>
    have checked : checkLowestDependencyIdx other highest = .ok () :=
      checkLowestDependencyIdx_eq_ok fun reader present =>
        higher reader highest (isSome_get?_iff.mpr (mem_of_getLast? isLast)) present
    simp only [checked, ok_bind, pure_eq_ok]

end RegisteredReadDependencies

/-- What the map asks of the values that are written. -/
class TransactionWrite (Value : Type) (Metadata : outParam Type) where
  bytes : Value → Option (List UInt8)
  asStateValueMetadata : Value → Option Metadata

inductive ValueWithLayout (Value Layout : Type) where
  /-- Read from storage, before the exchange that needs the layout. -/
  | rawFromStorage (value : Value)
  /-- The layout is there if the resource has a delayed field. -/
  | exchanged (value : Value) (layout : Option Layout)
deriving DecidableEq

namespace ValueWithLayout

variable {Value Layout : Type}

def value : ValueWithLayout Value Layout → Value
  | rawFromStorage value => value
  | exchanged value _ => value

end ValueWithLayout

/-- A write with its estimate flag. -/
structure Entry (Value Layout : Type) where
  incarnation : Nat
  valueWithLayout : ValueWithLayout Value Layout
  dependencies : RegisteredReadDependencies
  flag : Bool

def newWriteEntry {Value Layout : Type} (incarnation : Nat) (value : ValueWithLayout Value Layout)
    (dependencies : RegisteredReadDependencies) : Entry Value Layout :=
  ⟨incarnation, value, dependencies, false⟩

/-- `ShiftedTxnIndex::new`: index zero is that of the base value. -/
def shiftedTxnIndex (txnIdx : Nat) : Nat := txnIdx + 1

/-- `ShiftedTxnIndex::idx`: none is the storage version. -/
def realTxnIndex (shifted : Nat) : Option Nat := if 0 < shifted then some (shifted - 1) else none

theorem shiftedTxnIndex_ne_zero (txnIdx : Nat) : shiftedTxnIndex txnIdx ≠ 0 :=
  Nat.succ_ne_zero txnIdx

inductive MVDataError where
  | uninitialized
  | dependency (txnIdx : Nat)
deriving DecidableEq

abbrev MVVersion := Option (Nat × Nat)

structure MVDataOutput (Value Layout : Type) where
  version : MVVersion
  valueWithLayout : ValueWithLayout Value Layout
deriving DecidableEq

abbrev VersionedValue (Value Layout : Type) := SortedMap Nat (Entry Value Layout)

variable {Value Layout Metadata : Type} [DecidableEq Value]
  [DecidableEq Metadata] [TransactionWrite Value Metadata]

/-- Whether a read of the previous value may stand for one of the new value. -/
def compareValuesAndLayouts (onlyCompareMetadata : Bool) (prevValue newValue : Value)
    (prevLayout newLayout : Option Layout) : Bool :=
  if onlyCompareMetadata then
    TransactionWrite.asStateValueMetadata prevValue ==
      TransactionWrite.asStateValueMetadata newValue
  else prevLayout.isNone && newLayout.isNone && prevValue == newValue

namespace VersionedValue

variable (onlyCompareMetadata : Bool) (map : VersionedValue Value Layout)

/-- The dependencies above the transaction, whether they stay valid, and the rest. -/
def splitOffAffectedReadDependencies (txnIdx : Nat) (newData : Value) (newLayout : Option Layout) :
    RegisteredReadDependencies × Bool × VersionedValue Value Layout :=
  match map.lastBelow (shiftedTxnIndex txnIdx + 1) with
  | none => (SortedMap.empty, false, map)
  | some (index, entry) =>
    let affected := entry.dependencies.atLeast (txnIdx + 1)
    let kept := map.insert index
      { entry with dependencies := entry.dependencies.below (txnIdx + 1) }
    let stillValid := match entry.valueWithLayout with
      | .exchanged value layout => !affected.isEmpty &&
          compareValuesAndLayouts onlyCompareMetadata value newData layout newLayout
      | .rawFromStorage _ => false
    (affected, stillValid, kept)

/-- The invalidated dependencies of a removed entry; others go to the next lower one. -/
def handleRemovedDependencies (txnIdx : Nat) (dependencies : RegisteredReadDependencies)
    (removedData : Value) (removedLayout : Option Layout) :
    Except Fault (RegisteredReadDependencies × VersionedValue Value Layout) :=
  if dependencies.isEmpty then .ok (dependencies, map)
  else match map.lastBelow (shiftedTxnIndex txnIdx + 1) with
    | none => .ok (dependencies, map)
    | some (index, entry) => do
        ensure (realTxnIndex index ≠ some txnIdx) .panic
        match entry.valueWithLayout with
        | .rawFromStorage _ => return (dependencies, map)
        | .exchanged value layout =>
          if compareValuesAndLayouts onlyCompareMetadata value removedData layout removedLayout then
            let extended ← entry.dependencies.extendWithHigherDependencies dependencies
            return (SortedMap.empty, map.insert index { entry with dependencies := extended })
          else return (dependencies, map)

/-- Recorded if there is a reader incarnation; without deltas only the last entry below the
reader counts. -/
def read (readerTxnIdx : Nat) (maybeIncarnation : Option Nat) :
    Except Fault (Except MVDataError (MVDataOutput Value Layout) × VersionedValue Value Layout) :=
  match map.lastBelow (shiftedTxnIndex readerTxnIdx) with
  | none => .ok (.error .uninitialized, map)
  | some (index, entry) =>
    if entry.flag then do
      let txnIdx ← expect Fault.panic (realTxnIndex index)
      return (.error (.dependency txnIdx), map)
    else do
      let recorded ← match maybeIncarnation with
        | none => pure map
        | some incarnation => do
            let dependencies ← (entry.dependencies.record readerTxnIdx
              incarnation).mapError fun _ => .panic
            pure (map.insert index { entry with dependencies })
      let version := (realTxnIndex index).map fun txnIdx =>
        (txnIdx, entry.incarnation)
      return (.ok ⟨version, entry.valueWithLayout⟩, recorded)

/-- Insert a write; a previous one must have a lower incarnation. -/
def writeImpl (txnIdx : Nat) (incarnation : Nat) (value : ValueWithLayout Value Layout)
    (dependencies : RegisteredReadDependencies) : Except Fault (VersionedValue Value Layout) := do
  match map.get? (shiftedTxnIndex txnIdx) with
  | some previous => ensure (previous.incarnation < incarnation) .panic
  | none => pure ()
  return map.insert (shiftedTxnIndex txnIdx) (newWriteEntry incarnation value dependencies)

end VersionedValue

namespace VersionedData

variable (onlyCompareMetadata : Bool) (slot : Option (VersionedValue Value Layout))

/-- `values.entry(key).or_default()`. -/
def orDefault : VersionedValue Value Layout := slot.getD SortedMap.empty

def bytesLen (value : Value) : Option Nat := (TransactionWrite.bytes value).map List.length

/-- The assertions of `set_base_value` and the entry that it leaves. -/
def exchangeBaseValue (entry : Entry Value Layout) (base : ValueWithLayout Value Layout) :
    Except Fault (Entry Value Layout) := do
  ensure (entry.incarnation = 0) .panic
  match entry.valueWithLayout, base with
  | .rawFromStorage existing, .rawFromStorage value =>
    ensure (bytesLen value = bytesLen existing) .panic
    return entry
  | .exchanged _ _, .rawFromStorage _ => return entry
  | .rawFromStorage _, .exchanged _ _ =>
    return newWriteEntry 0 base entry.dependencies
  | .exchanged existing existingLayout, .exchanged value layout =>
    ensure (existingLayout.isSome = layout.isSome) .panic
    if existingLayout.isNone then
      ensure (bytesLen existing = bytesLen value) .panic
    return entry

def setBaseValue (base : ValueWithLayout Value Layout) :
    Except Fault (VersionedValue Value Layout) := do
  let map := orDefault slot
  match map.get? 0 with
  | none => return map.insert 0 (newWriteEntry 0 base SortedMap.empty)
  | some entry =>
    let exchanged ← exchangeBaseValue entry base
    return map.insert 0 exchanged

def fetchDataAndRecordDependency (txnIdx : Nat) (incarnation : Nat) :
    Except Fault (Except MVDataError (MVDataOutput Value Layout) ×
      Option (VersionedValue Value Layout)) :=
  match slot with
  | none => .ok (.error .uninitialized, none)
  | some map => do
      let (result, recorded) ← map.read txnIdx (some incarnation)
      return (result, some recorded)

/-- The dependencies that failed validation, and the map after the write. -/
def writeV2 (txnIdx : Nat) (incarnation : Nat) (data : Value) (layout : Option Layout) :
    Except Fault (RegisteredReadDependencies × VersionedValue Value Layout) := do
  let (affected, validationPassed, map) :=
    (orDefault slot).splitOffAffectedReadDependencies onlyCompareMetadata txnIdx data layout
  (affected.checkLowestDependencyIdx txnIdx).mapError fun _ => .panic
  let (depsToRetain, depsToReturn) := if validationPassed then (affected, SortedMap.empty)
    else (SortedMap.empty, affected)
  let written ← map.writeImpl txnIdx incarnation (.exchanged data layout) depsToRetain
  return (depsToReturn, written)

/-- The dependencies of the removed entry that are no longer valid; `key` is for error messages. -/
def removeV2 (key : String) (txnIdx : Nat) : Except Fault
      (RegisteredReadDependencies × VersionedValue Value Layout) := do
  let map ← expect (codeInvariantError s!"Path must exist for remove_v2: {key}") slot
  let removed ← expect (codeInvariantError <|
    s!"Entry for key / idx must exist to be deleted: {key}, {txnIdx}")
      (map.get? (shiftedTxnIndex txnIdx))
  let others := map.erase (shiftedTxnIndex txnIdx)
  match removed.valueWithLayout with
  | .rawFromStorage _ => .error .panic
  | .exchanged data layout =>
    VersionedValue.handleRemovedDependencies onlyCompareMetadata others
      txnIdx removed.dependencies data layout

end VersionedData

end LumioNode
