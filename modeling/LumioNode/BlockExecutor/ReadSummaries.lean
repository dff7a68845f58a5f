import LumioNode.BlockExecutor.SequentialView

/-! # Which reads count

`CapturedReads` misses aggregator v1 values that are resolved through deltas, and
`UnsyncReadSet` has every read of a missing tag besides. -/

namespace LumioNode

open Library CapturedReads DataRead List

variable {Key Tag Metadata Layout Id Module : Type}

namespace ReadRequest

def counted : ReadRequest Key Tag Layout Id Module → Option (InputOutputKey Key Tag Id)
  | resource key .value _ => some (.resource key)
  | groupMember groupKey tag .value _ => some (.group groupKey tag)
  | delayedFieldValue id => some (.delayedField id)
  | _ => none

def moduleRead : ReadRequest Key Tag Layout Id Module → List Module
  | module id => [id]
  | _ => []

variable {key groupKey : Key} {tag : Tag} {kind : ReadKind}
  {layout : Option (Option Layout)} {other : InputOutputKey Key Tag Id}

theorem counted_resource :
    (resource key kind layout : ReadRequest Key Tag Layout Id Module).counted = some other ↔
      other = .resource key ∧ kind = .value := by
  cases kind <;> simp [counted, eq_comm]

theorem counted_groupMember : (groupMember groupKey tag kind layout :
    ReadRequest Key Tag Layout Id Module).counted = some other ↔
    other = .group groupKey tag ∧ kind = .value := by
  cases kind <;> simp [counted, eq_comm]

/-- No value read is answered with a value resolved through deltas. -/
def Unresolved (request : ReadRequest Key Tag Layout Id Module)
    (answers : MVAnswers Metadata Layout) : Prop :=
  match request, answers with
  | resource _ .value _, .data answers =>
    ∀ value, .found (.resolved value) ∉ answers
  | _, _ => True

end ReadRequest

open ReadRequest

variable [DecidableEq Key] [DecidableEq Tag] [DecidableEq Id]

namespace CapturedReads

/-- The entries that `get_read_summary` keeps, without the modules. -/
def Counts (captured : CapturedReads Key Tag Metadata Layout Id Module) :
    InputOutputKey Key Tag Id → Prop
  | .resource key => (captured.dataReads.lookup key).any isVersioned
  | .group groupKey tag =>
    (captured.innerRead groupKey tag).any isVersioned
  | .delayedField id =>
    (captured.delayedFieldReads.lookup id).any DelayedFieldRead.isValue

/-- No entry is an aggregator v1 value resolved through deltas. -/
def NoneResolved (captured : CapturedReads Key Tag Metadata Layout Id Module) : Prop :=
  ∀ key value, captured.dataReads.lookup key ≠ some (.resolved value)

variable {captured between after : CapturedReads Key Tag Metadata Layout Id Module}
  {request : ReadRequest Key Tag Layout Id Module} {key groupKey : Key} {tag : Tag} {id : Id}
  {kind : ReadKind} {layout : Option (Option Layout)} {isV2 update : Bool}

omit [DecidableEq Id] in
theorem innerRead_any_iff {condition : DataRead Metadata Layout → Bool} :
    (captured.innerRead groupKey tag).any condition ↔
      ∃ group, ⟨groupKey, group⟩ ∈ captured.groupReads.entries ∧
        ∃ read, ⟨tag, read⟩ ∈ group.innerReads.entries ∧ condition read := by
  rw [innerRead, groupRead]
  simp only [← Table.lookup_eq_some_iff]
  cases captured.groupReads.lookup groupKey with
  | none => simp
  | some => simp [Table.lookup_any_iff, Table.lookup_eq_some_iff]

theorem mem_getReadSummary (captured : CapturedReads Key Tag Metadata Layout Id Module)
    (keyOfModule : Module → Key) (key : InputOutputKey Key Tag Id) :
    key ∈ captured.getReadSummary keyOfModule ↔ captured.Counts key ∨
      ∃ module ∈ captured.moduleReads, key = .resource (keyOfModule module) := by
  rw [getReadSummary, mem_toFinset]
  cases key with
  | resource =>
    rw [Counts, Table.lookup_any_iff]
    aesop
  | group =>
    rw [Counts, innerRead_any_iff]
    aesop
  | delayedField =>
    rw [Counts, Table.lookup_any_iff]
    aesop

structure Adds (captured after : CapturedReads Key Tag Metadata Layout Id Module)
    (request : ReadRequest Key Tag Layout Id Module) : Prop where
  counts : ∀ key, after.Counts key ↔ captured.Counts key ∨ request.counted = some key
  noneResolved : after.NoneResolved
  modules : after.moduleReads = request.moduleRead ++ captured.moduleReads

/-- What a call does that may find no base value. -/
def AddsIf (captured after : CapturedReads Key Tag Metadata Layout Id Module)
    (request : ReadRequest Key Tag Layout Id Module) (found : Bool) : Prop :=
  if found then captured.Adds after request else after = captured

theorem Adds.trans (first : captured.Adds between request) (second : between.Adds after request)
    (noModule : request.moduleRead = []) : captured.Adds after request where
  counts := fun key => by
    rw [second.counts, first.counts, or_assoc, or_self]
  noneResolved := second.noneResolved
  modules := by rw [second.modules, first.modules, noModule]; rfl

omit [DecidableEq Id] in
theorem innerRead_insert (captured : CapturedReads Key Tag Metadata Layout Id Module)
    (groupKey other : Key) (tag : Tag) (group : GroupRead Tag Metadata Layout) :
    { captured with groupReads := captured.groupReads.insert groupKey group }.innerRead other tag =
      if other = groupKey then group.innerReads.lookup tag
      else captured.innerRead other tag := by
  simp only [innerRead, groupRead, Table.lookup_insert_eq]
  split <;> rfl

variable {read : DelayedFieldRead}

theorem captureDelayedFieldRead_spec
    (captures : captured.captureDelayedFieldRead id update read = .ok after) :
    (captured.Counts (.delayedField id) → read.isValue) ∧
      after = { captured with
        delayedFieldReads := captured.delayedFieldReads.insert id read } := by
  obtain ⟨_, allowed, captures⟩ := of_bind captures
  cases captures
  refine ⟨fun counts => ?_, rfl⟩
  simp only [Counts] at counts
  cases stored : captured.delayedFieldReads.lookup id with
  | none => simp [stored] at counts
  | some existing =>
    rw [stored, Option.any_some] at counts
    rw [stored, whenSome, replacesDelayedFieldRead] at allowed
    split at allowed
    · cases allowed
    · rename_i refused
      simp only [counts, Bool.and_true, Bool.or_eq_true, not_or] at refused
      simpa using refused.1

theorem captureDelayedFieldRead_counts
    (captures : captured.captureDelayedFieldRead id update read = .ok after)
    (key : InputOutputKey Key Tag Id) :
    after.Counts key ↔ captured.Counts key ∨ key = .delayedField id ∧ read.isValue := by
  obtain ⟨keepsValue, rfl⟩ := captureDelayedFieldRead_spec captures
  cases key with
  | resource => simp [Counts]
  | group => simp [Counts, innerRead, groupRead]
  | delayedField other =>
    by_cases same : other = id
    · subst same
      simp only [Counts] at keepsValue ⊢
      rw [AList.lookup_insert, Option.any_some]
      simp only [true_and]
      exact ⟨.inr, fun either => either.elim keepsValue fun isValue => isValue⟩
    · simp only [Counts, AList.lookup_insert_ne same]
      simp [same]

section Entries

variable [Inhabited Metadata] {stored : Option (DataRead Metadata Layout)}
  {dataRead read entry : DataRead Metadata Layout}

theorem isVersioned_of_stored (isRead : stored.bind (·.convertTo .value) = some read)
    (unresolved : ∀ value, stored ≠ some (.resolved value)) : stored.any isVersioned := by
  cases stored with
  | none => cases isRead
  | some found =>
    have isSome : (found.convertTo .value).isSome := by
      rw [Option.isSome_iff_exists]
      exact ⟨read, isRead⟩
    rcases convertTo_value isSome with isVersioned | ⟨value, rfl⟩
    · exact isVersioned
    · exact absurd rfl (unresolved value)

/-- A versioned value answers every read. -/
theorem not_versioned_of_notStored (notStored : stored.bind (·.convertTo kind) = none) :
    ¬stored.any isVersioned := by
  cases stored with
  | none => simp
  | some read =>
    intro isVersioned
    rw [Option.bind_some] at notStored
    cases read with
    | versioned => cases kind <;> cases notStored
    | _ => cases isVersioned

variable [DecidableEq Metadata]

theorem updateEntry_spec {existing : Option (DataRead Metadata Layout)}
    (updated : updateEntry isV2 existing read = .ok entry) : entry.isVersioned = read.isVersioned ∧
      ∀ value, entry = .resolved value → read = .resolved value := by
  cases existing with
  | none =>
    cases updated
    exact ⟨rfl, fun _ isResolved => isResolved⟩
  | some existing =>
    rw [updateEntry] at updated
    cases merged : existing.mergeMetadataAndSize read with
    | some =>
      simp only [merged] at updated
      cases updated
      cases existing <;> cases read <;> simp only [mergeMetadataAndSize, reduceCtorEq,
          Option.some.injEq] at merged <;>
        subst merged <;> simp [isVersioned]
    | none =>
      simp only [merged] at updated
      split at updated
      · cases updated
      · split at updated
        · cases updated
          exact ⟨rfl, fun _ isResolved => isResolved⟩
        · cases updated
        · cases updated

theorem isVersioned_of_capture (isRead : dataRead.convertTo kind = some read)
    (updated : updateEntry isV2 stored read = .ok entry)
    (unresolved : kind = .value → ∀ value, dataRead ≠ .resolved value) :
    (entry.isVersioned ↔ kind = .value) ∧ ∀ value, entry ≠ .resolved value := by
  obtain ⟨sameVersion, sameResolved⟩ := updateEntry_spec updated
  have converted := isVersioned_of_convertTo isRead
  constructor
  · rw [sameVersion, converted, Bool.and_eq_true, decide_eq_true_eq]
    constructor
    · exact And.right
    · rintro rfl
      have isSome : (dataRead.convertTo .value).isSome := by
        rw [isRead]
        rfl
      rcases convertTo_value isSome with isVersioned | ⟨value, isValue⟩
      · exact ⟨isVersioned, rfl⟩
      · exact absurd isValue (unresolved rfl value)
  · intro value isResolved
    have isSame := sameResolved value isResolved
    subst isSame
    cases dataRead <;> cases kind <;> simp_all [convertTo]

end Entries

variable (noneResolved : captured.NoneResolved)

include noneResolved

theorem adds_same (counted : ∀ key, request.counted = some key → captured.Counts key)
    (noModule : request.moduleRead = []) : captured.Adds captured request where
  counts := fun key => by
    constructor
    · exact .inl
    · rintro (already | isCounted)
      · exact already
      · exact counted key isCounted
  noneResolved := noneResolved
  modules := by rw [noModule, nil_append]

theorem captureGroupSize_adds {size : ResourceGroupSize}
    (captures : captured.captureGroupSize groupKey size = .ok after) :
    captured.Adds after (.groupSize groupKey) := by
  obtain ⟨-, -, captures⟩ := of_bind captures
  cases captures
  refine ⟨fun other => ?_, noneResolved, rfl⟩
  cases other with
  | resource | delayedField => simp [Counts, counted]
  | group other tag =>
    simp only [Counts, innerRead_insert, counted, reduceCtorEq, or_false]
    split
    · rename_i same
      rw [same, innerRead]
    · rfl

variable {answers rest : List (MVAnswer ResourceGroupSize)} {size : Option ResourceGroupSize}

theorem readGroupSizeLoop_adds
    (loops : readGroupSizeLoop groupKey captured answers = .ok (size, after, rest)) :
    captured.Adds after (.groupSize groupKey) := by
  induction answers with
  | nil => cases loops
  | cons answer remaining inductionHypothesis =>
    cases answer with
    | found =>
      obtain ⟨_, captures, loops⟩ := of_bind loops
      cases loops
      exact captureGroupSize_adds noneResolved captures
    | uninitialized =>
      cases loops
      exact adds_same noneResolved (fun _ isCounted =>
        nomatch isCounted) rfl
    | tagNotFound => cases loops
    | dependency =>
      rw [readGroupSizeLoop] at loops
      obtain ⟨-, -, loops⟩ := of_bind loops
      exact inductionHypothesis loops
    | failure => cases loops

theorem readGroupSize_adds
    (reads : readGroupSize groupKey captured answers = .ok (size, after, rest)) :
    captured.Adds after (.groupSize groupKey) := by
  rw [readGroupSize] at reads
  cases stored : (captured.groupRead groupKey).collectedSize with
  | none =>
    simp only [stored] at reads
    exact readGroupSizeLoop_adds noneResolved reads
  | some =>
    simp only [stored] at reads
    cases reads
    exact adds_same noneResolved (fun _ isCounted => nomatch isCounted) rfl

theorem adds_of_captureDelayedFieldRead
    (captures : captured.captureDelayedFieldRead id update read = .ok after)
    (counted : ∀ key, request.counted = some key ↔ key = .delayedField id ∧ read.isValue)
    (noModule : request.moduleRead = []) : captured.Adds after request where
  counts := fun key => by
    rw [captureDelayedFieldRead_counts captures, counted]
  noneResolved := by
    rw [(captureDelayedFieldRead_spec captures).2]
    exact noneResolved
  modules := by
    rw [(captureDelayedFieldRead_spec captures).2, noModule]
    rfl

theorem getDelayedFieldValue_adds {answers : List (MVAnswer DelayedFieldValue)}
    (reads : getDelayedFieldValue id captured answers = .ok after) :
    captured.Adds after (.delayedFieldValue id) := by
  rw [getDelayedFieldValue] at reads
  split at reads
  · rename_i stored
    cases reads
    refine adds_same noneResolved (fun other isCounted => ?_) rfl
    cases isCounted
    exact stored
  · obtain ⟨value, -, reads⟩ := of_bind reads
    refine adds_of_captureDelayedFieldRead noneResolved reads (fun key => ?_) rfl
    simp [counted, DelayedFieldRead.isValue, eq_comm]

theorem delayedFieldTryAddDelta_adds {baseDelta delta : SignedU128} {maxValue : Nat}
    {answers : List (MVAnswer DelayedFieldValue)}
    (reads : delayedFieldTryAddDelta id baseDelta delta maxValue captured answers = .ok after) :
    captured.Adds after (.tryAddDelta id baseDelta delta maxValue) := by
  have unchanged : captured.Adds captured (.tryAddDelta id baseDelta delta maxValue) :=
    adds_same noneResolved (fun _ isCounted => nomatch isCounted) rfl
  have bounded {update : Bool} {read : DelayedFieldRead}
      (captures : captured.captureDelayedFieldRead id update read = .ok after)
      (notValue : read.isValue = false) :
      captured.Adds after (.tryAddDelta id baseDelta delta maxValue) := by
    refine adds_of_captureDelayedFieldRead noneResolved captures (fun key => ?_) rfl
    simp [counted, notValue]
  rw [delayedFieldTryAddDelta] at reads
  split at reads
  · cases reads
    exact unchanged
  · split at reads
    · obtain ⟨_, -, reads⟩ := of_bind reads
      obtain ⟨_, -, reads⟩ := of_bind reads
      cases reads
      exact unchanged
    · obtain ⟨_, -, reads⟩ := of_bind reads
      obtain ⟨read, isRead, reads⟩ := of_bind reads
      refine bounded reads ?_
      have isRead := mapError_eq_ok.mp isRead
      obtain ⟨_, -, isRead⟩ := of_bind isRead
      obtain ⟨_, -, isRead⟩ := of_bind isRead
      cases isRead
      rfl
    · obtain ⟨_, -, reads⟩ := of_bind reads
      obtain ⟨_, -, reads⟩ := of_bind reads
      obtain ⟨_, -, reads⟩ := of_bind reads
      exact bounded reads rfl

variable {env : ViewEnv Key Tag Metadata Layout Id} [Inhabited Metadata]

theorem resourceGroupSize_adds
    (reads : resourceGroupSize env groupKey captured answers = .ok after) :
    captured.Adds after (.groupSize groupKey) := by
  obtain ⟨⟨size, between, rest⟩, isFirst, reads⟩ := of_bind reads
  have first := readGroupSize_adds noneResolved isFirst
  cases size with
  | some =>
    cases reads
    exact first
  | none =>
    obtain ⟨_, -, reads⟩ := of_bind reads
    obtain ⟨⟨size, _, _⟩, isSecond, reads⟩ := of_bind reads
    obtain ⟨_, -, reads⟩ := of_bind reads
    cases reads
    have second := readGroupSize_adds first.noneResolved isSecond
    exact first.trans second rfl

variable [DecidableEq Metadata] {dataRead read : DataRead Metadata Layout}
  {result : Option (ReadResult Metadata Layout)}

theorem captureDataRead_adds
    (captures : captured.captureDataRead isV2 key dataRead kind = .ok (read, after))
    (notStored : captured.getByKind key kind = none)
    (unresolved : kind = .value → ∀ value, dataRead ≠ .resolved value) :
    captured.Adds after (.resource key kind layout) := by
  obtain ⟨converted, isConverted, captures⟩ := of_bind captures
  obtain ⟨entry, isEntry, captures⟩ := of_bind captures
  cases captures
  obtain ⟨isVersioned, entryUnresolved⟩ := isVersioned_of_capture
    (expect_eq_ok.mp isConverted) isEntry unresolved
  have notVersioned := not_versioned_of_notStored notStored
  refine ⟨fun other => ?_, ?_, rfl⟩
  · rw [counted_resource]
    cases other with
    | resource other =>
      simp only [Counts, Table.lookup_insert_eq]
      by_cases same : other = key
      · subst same
        simp [isVersioned, notVersioned]
      · simp [same]
    | group => simp [Counts, innerRead, groupRead]
    | delayedField => simp [Counts]
  · intro other value isValue
    rw [Table.lookup_insert_eq] at isValue
    split at isValue
    · exact entryUnresolved value (Option.some.inj isValue)
    · exact noneResolved other value isValue

theorem captureGroupRead_adds
    (captures : captured.captureGroupRead isV2 groupKey tag dataRead kind = .ok (read, after))
    (notStored : (captured.innerRead groupKey tag).bind (·.convertTo kind) = none)
    (unresolved : ∀ value, dataRead ≠ .resolved value) :
    captured.Adds after (.groupMember groupKey tag kind layout) := by
  obtain ⟨converted, isConverted, captures⟩ := of_bind captures
  obtain ⟨entry, isEntry, captures⟩ := of_bind captures
  cases captures
  obtain ⟨isVersioned, -⟩ := isVersioned_of_capture
    (expect_eq_ok.mp isConverted) isEntry fun _ => unresolved
  have notVersioned := not_versioned_of_notStored notStored
  refine ⟨fun other => ?_, noneResolved, rfl⟩
  rw [counted_groupMember]
  cases other with
  | resource | delayedField => simp [Counts]
  | group other otherTag =>
    simp only [Counts, innerRead_insert, Table.lookup_insert_eq]
    by_cases sameGroup : other = groupKey
    · subst sameGroup
      by_cases sameTag : otherTag = tag
      · subst sameTag
        simp [isVersioned, notVersioned]
      · simp [sameTag, innerRead]
    · simp [sameGroup]

variable {answers rest : List (MVAnswer (MVDataAnswer Metadata Layout))}

/-- A call that returns finds no base value, or captures what it found. -/
theorem readDataLoop_spec
    (loops : readDataLoop env isV2 key kind layout captured answers = .ok (result, after, rest))
    (notStored : captured.getByKind key kind = none)
    (unresolved : kind = .value → ∀ value, .found (.resolved value) ∉ answers) :
    rest ⊆ answers ∧ captured.AddsIf after (.resource key kind layout) result.isSome := by
  induction answers with
  | nil => cases loops
  | cons answer remaining inductionHypothesis =>
    have again (loops : readDataLoop env isV2 key kind layout captured
        remaining = .ok (result, after, rest)) :
        rest ⊆ answer :: remaining ∧ captured.AddsIf after
          (.resource key kind layout) result.isSome := by
      obtain ⟨isSuffix, adds⟩ := inductionHypothesis loops
        fun isValue value isAnswer => unresolved isValue value (mem_cons_of_mem _ isAnswer)
      exact ⟨subset_cons_of_subset _ isSuffix, adds⟩
    cases answer with
    | found output =>
      cases output with
      | versioned version value =>
        rw [readDataLoop] at loops
        cases patched : needsPatch layout value with
        | some =>
          simp only [patched] at loops
          obtain ⟨-, -, loops⟩ := of_bind loops
          obtain ⟨-, -, loops⟩ := of_bind loops
          exact again loops
        | none =>
          simp only [patched] at loops
          obtain ⟨⟨read, _⟩, captures, loops⟩ := of_bind loops
          obtain ⟨_, -, loops⟩ := of_bind loops
          cases loops
          exact ⟨subset_cons_self _ _, captureDataRead_adds noneResolved captures
            notStored fun _ =>
                fromValueWithLayout_ne_resolved⟩
      | resolved value =>
        obtain ⟨⟨read, _⟩, captures, loops⟩ := of_bind loops
        obtain ⟨_, -, loops⟩ := of_bind loops
        cases loops
        exact ⟨subset_cons_self _ _, captureDataRead_adds noneResolved captures
          notStored fun isValue _ _ =>
              unresolved isValue value mem_cons_self⟩
    | uninitialized =>
      cases loops
      exact ⟨subset_cons_self _ _, rfl⟩
    | tagNotFound => cases loops
    | dependency =>
      obtain ⟨-, -, loops⟩ := of_bind loops
      exact again loops
    | failure => cases loops

theorem readCachedData_spec
    (reads : readCachedData env isV2 key kind layout captured answers = .ok (result, after, rest))
    (unresolved : kind = .value → ∀ value, .found (.resolved value) ∉ answers) :
    rest ⊆ answers ∧ captured.AddsIf after (.resource key kind layout) result.isSome := by
  rw [readCachedData] at reads
  cases stored : captured.getByKind key kind with
  | none =>
    simp only [stored] at reads
    exact readDataLoop_spec noneResolved reads stored unresolved
  | some =>
    simp only [stored] at reads
    obtain ⟨_, -, reads⟩ := of_bind reads
    cases reads
    refine ⟨List.Subset.refl _, adds_same noneResolved (fun other isCounted => ?_) rfl⟩
    obtain ⟨rfl, rfl⟩ := counted_resource.mp isCounted
    exact isVersioned_of_stored stored (noneResolved key)

theorem getResourceStateValue_adds
    (reads : getResourceStateValue env isV2 key kind layout captured answers = .ok after)
    (unresolved : kind = .value → ∀ value, .found (.resolved value) ∉ answers) :
    captured.Adds after (.resource key kind layout) := by
  obtain ⟨⟨result, between, rest⟩, first, reads⟩ := of_bind reads
  obtain ⟨isSuffix, adds⟩ := readCachedData_spec noneResolved first unresolved
  cases result with
  | some =>
    cases reads
    exact adds
  | none =>
    cases adds
    obtain ⟨_, -, reads⟩ := of_bind reads
    obtain ⟨⟨result, _, _⟩, second, reads⟩ := of_bind reads
    obtain ⟨_, isSome, reads⟩ := of_bind reads
    cases reads
    obtain ⟨-, adds⟩ := readCachedData_spec noneResolved second fun isValue value isAnswer =>
        unresolved isValue value (isSuffix isAnswer)
    cases result with
    | some => exact adds
    | none => cases isSome

variable {answers rest : List (MVAnswer (MVVersion × ValueWithLayout (WriteOp Metadata) Layout))}

theorem readGroupLoop_spec
    (loops : readGroupLoop env isV2 groupKey tag kind layout captured
      answers = .ok (result, after, rest))
    (notStored : (captured.innerRead groupKey tag).bind (·.convertTo kind) = none) :
    captured.AddsIf after (.groupMember groupKey tag kind layout)
      result.isSome := by
  induction answers with
  | nil => cases loops
  | cons answer remaining inductionHypothesis =>
    cases answer with
    | found output =>
      obtain ⟨version, value⟩ := output
      rw [readGroupLoop] at loops
      cases patched : needsPatch layout value with
      | some =>
        simp only [patched] at loops
        obtain ⟨-, -, loops⟩ := of_bind loops
        obtain ⟨-, -, loops⟩ := of_bind loops
        exact inductionHypothesis loops
      | none =>
        simp only [patched] at loops
        obtain ⟨⟨read, _⟩, captures, loops⟩ := of_bind loops
        obtain ⟨_, -, loops⟩ := of_bind loops
        cases loops
        exact captureGroupRead_adds noneResolved captures notStored
          fromValueWithLayout_ne_resolved
    | uninitialized =>
      cases loops
      rfl
    | tagNotFound => exact inductionHypothesis loops
    | dependency =>
      obtain ⟨-, -, loops⟩ := of_bind loops
      exact inductionHypothesis loops
    | failure => cases loops

theorem readCachedGroupTaggedData_spec
    (reads : readCachedGroupTaggedData env isV2 groupKey tag kind layout
      captured answers = .ok (result, after, rest)) :
    captured.AddsIf after (.groupMember groupKey tag kind layout)
      result.isSome := by
  obtain ⟨stored, isStored, reads⟩ := of_bind reads
  obtain ⟨-, -, isStored⟩ := of_bind isStored
  have isStored := pure_eq_ok.mp isStored
  cases stored with
  | none => exact readGroupLoop_spec noneResolved reads isStored
  | some =>
    obtain ⟨_, isResult, reads⟩ := of_bind reads
    cases reads
    refine adds_same noneResolved (fun other isCounted => ?_) rfl
    obtain ⟨rfl, rfl⟩ := counted_groupMember.mp isCounted
    refine isVersioned_of_stored isStored fun value isResolved => ?_
    rw [isResolved] at isStored
    cases isStored
    cases isResult

theorem getResourceFromGroup_adds
    (reads : getResourceFromGroup env isV2 groupKey tag kind layout captured answers = .ok after) :
    captured.Adds after (.groupMember groupKey tag kind layout) := by
  obtain ⟨⟨result, between, rest⟩, first, reads⟩ := of_bind reads
  have adds := readCachedGroupTaggedData_spec noneResolved first
  cases result with
  | some =>
    cases reads
    exact adds
  | none =>
    cases adds
    obtain ⟨_, -, reads⟩ := of_bind reads
    obtain ⟨⟨result, _, _⟩, second, reads⟩ := of_bind reads
    obtain ⟨_, isSome, reads⟩ := of_bind reads
    cases reads
    have adds := readCachedGroupTaggedData_spec noneResolved second
    cases result with
    | some => exact adds
    | none => cases isSome

theorem parallelRead_adds {answers : MVAnswers Metadata Layout}
    (reads : parallelRead env isV2 captured request answers = .ok after)
    (unresolved : request.Unresolved answers) : captured.Adds after request := by
  unfold parallelRead at reads
  split at reads
  case h_1 key kind layout answers =>
      refine getResourceStateValue_adds noneResolved reads ?_
      rintro rfl
      exact unresolved
  case h_2 => exact getResourceFromGroup_adds noneResolved reads
  case h_3 => exact resourceGroupSize_adds noneResolved reads
  case h_4 => exact getDelayedFieldValue_adds noneResolved reads
  case h_5 => exact delayedFieldTryAddDelta_adds noneResolved reads
  case h_6 =>
      cases reads
      refine ⟨fun key => ?_, noneResolved, rfl⟩
      cases key <;> simp [CapturedReads.Counts, counted, innerRead, groupRead]
  case h_7 => cases reads

theorem parallelReads_counts
    {reads : List (ReadRequest Key Tag Layout Id Module × MVAnswers Metadata Layout)}
    (succeeds : reads.foldlM (fun captured read =>
      parallelRead env isV2 captured read.1 read.2) captured = .ok after)
    (unresolved : ∀ read ∈ reads, read.1.Unresolved read.2) :
    (∀ key, after.Counts key ↔ captured.Counts key ∨ ∃ read ∈ reads, read.1.counted = some key) ∧
    ∀ module, module ∈ after.moduleReads ↔ module ∈ captured.moduleReads ∨
      ∃ read ∈ reads, module ∈ read.1.moduleRead := by
  induction reads generalizing captured with
  | nil =>
    cases succeeds
    simp
  | cons read rest inductionHypothesis =>
    obtain ⟨between, isFirst, succeeds⟩ := of_bind succeeds
    have first := parallelRead_adds noneResolved isFirst (unresolved read mem_cons_self)
    obtain ⟨counts, modules⟩ :=
      inductionHypothesis first.noneResolved succeeds (forall_mem_cons.mp unresolved).2
    constructor
    · intro key
      rw [counts, first.counts]
      simp [or_assoc]
    · intro module
      rw [modules, first.modules]
      simp only [mem_append, mem_cons, exists_eq_or_imp]
      tauto

end CapturedReads

end LumioNode
