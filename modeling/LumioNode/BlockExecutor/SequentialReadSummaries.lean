import LumioNode.BlockExecutor.ReadSummaries

/-! # Which reads sequential execution counts

Where every other read finds its tag, both read sets have the keys of the value reads. -/

namespace LumioNode

open Library ReadRequest List

variable {Key Tag Metadata Layout Id Module : Type} {env : ViewEnv Key Tag Metadata Layout Id}
  {state after : SequentialState Key Tag Metadata Layout Id Module}
  {request : ReadRequest Key Tag Layout Id Module} {key groupKey : Key} {tag : Tag}
  {kind : ReadKind} {layout : Option (Option Layout)}

/-- The keys in the read set, without the modules. -/
def UnsyncReadSet.Counts (readSet : UnsyncReadSet Key Tag Id Module) :
    InputOutputKey Key Tag Id → Prop
  | .resource key => key ∈ readSet.resourceReads
  | .group groupKey tag => (groupKey, tag) ∈ readSet.groupReads
  | .delayedField id => id ∈ readSet.delayedFieldReads

namespace SequentialState

structure Adds (state after : SequentialState Key Tag Metadata Layout Id Module)
    (request : ReadRequest Key Tag Layout Id Module) : Prop where
  counts : ∀ key, after.readSet.Counts key ↔ state.readSet.Counts key ∨ request.counted = some key
  modules : after.readSet.moduleReads = request.moduleRead ++ state.readSet.moduleReads

section

variable (same : after.readSet = state.readSet)

include same

theorem adds_same (notCounted : request.counted = none)
    (noModule : request.moduleRead = []) : state.Adds after request where
  counts := fun key => by simp [same, notCounted]
  modules := by rw [same, noModule, nil_append]

theorem adds_recordResource : state.Adds (if kind = .value then after.recordResource key else after)
      (.resource key kind layout) := by
  by_cases isValue : kind = .value
  · rw [if_pos isValue]
    refine ⟨fun other => ?_, by simp [recordResource, same, moduleRead]⟩
    rw [counted_resource]
    cases other <;> simp [recordResource, UnsyncReadSet.Counts, same, isValue, or_comm]
  · rw [if_neg isValue]
    refine adds_same same ?_ rfl
    cases kind <;> first | exact absurd rfl isValue | rfl

theorem adds_recordGroup :
    state.Adds (after.recordGroup groupKey tag) (.groupMember groupKey tag .value layout) := by
  refine ⟨fun other => ?_, by simp [recordGroup, same, moduleRead]⟩
  rw [counted_groupMember]
  cases other <;> simp [recordGroup, UnsyncReadSet.Counts, same, or_comm]

end

variable [DecidableEq Id]

theorem patch_readSet {raw value : WriteOp Metadata} {layout : Option Layout}
    (patches : state.patch env raw layout = .ok (value, after)) :
    after.readSet = state.readSet := by
  obtain ⟨patched, -, patches⟩ := of_bind patches
  cases patches
  rfl

variable [DecidableEq Key]

theorem upgradeData_readSet {value upgraded : ValueWithLayout (WriteOp Metadata) Layout}
    (upgrades : state.upgradeData env key layout value = .ok (upgraded, after)) :
    after.readSet = state.readSet := by
  rw [upgradeData] at upgrades
  split at upgrades
  · cases upgrades
    rfl
  · obtain ⟨⟨patched, between⟩, isPatch, upgrades⟩ := of_bind upgrades
    cases upgrades
    have same := patch_readSet isPatch
    exact same

variable [DecidableEq Tag]

theorem upgradeGroup_readSet {value upgraded : ValueWithLayout (WriteOp Metadata) Layout}
    (upgrades : state.upgradeGroup env groupKey tag layout value = .ok (upgraded, after)) :
    after.readSet = state.readSet := by
  rw [upgradeGroup] at upgrades
  split at upgrades
  · cases upgrades
    rfl
  · obtain ⟨⟨patched, between⟩, isPatch, upgrades⟩ := of_bind upgrades
    obtain ⟨_, -, upgrades⟩ := of_bind upgrades
    cases upgrades
    have same := patch_readSet isPatch
    exact same

end SequentialState

variable [DecidableEq Key] [DecidableEq Tag] [DecidableEq Id]

theorem UnsyncReadSet.mem_getReadSummary (readSet : UnsyncReadSet Key Tag Id Module)
    (keyOfModule : Module → Key) (key : InputOutputKey Key Tag Id) :
    key ∈ readSet.getReadSummary keyOfModule ↔ readSet.Counts key ∨ ∃ module ∈ readSet.moduleReads,
        key = .resource (keyOfModule module) := by
  rw [getReadSummary, mem_toFinset]
  cases key with
  | resource => simp [Counts, eq_comm]
  | group | delayedField => simp [Counts]

variable [Inhabited Metadata]

def UnsyncMap.hasTag (env : ViewEnv Key Tag Metadata Layout Id)
    (map : UnsyncMap Key Tag Metadata Layout Id) (groupKey : Key) (tag : Tag) : Bool :=
  match map.groupCache.lookup groupKey with
  | some group => (group.members.lookup tag).isSome
  | none =>
    match env.baseGroup groupKey with
    | .ok (members, _) =>
      ((baseMembers members : Table Tag
        (ValueWithLayout (WriteOp Metadata) Layout)).lookup tag).isSome
    | .error _ => false

def ReadRequest.FindsTag (env : ViewEnv Key Tag Metadata Layout Id)
    (map : UnsyncMap Key Tag Metadata Layout Id) :
    ReadRequest Key Tag Layout Id Module → Prop
  | .groupMember groupKey tag kind _ =>
    kind = .value ∨ map.hasTag env groupKey tag
  | _ => True

namespace SequentialState

omit [DecidableEq Tag] in
theorem readCachedData_adds {result : Option (ReadResult Metadata Layout)}
    (reads : state.readCachedData env key kind layout = .ok (result, after)) :
    if result.isSome then state.Adds after (.resource key kind layout)
    else after = state := by
  rw [readCachedData] at reads
  split at reads
  · cases reads
    rfl
  · obtain ⟨⟨upgraded, between⟩, isUpgrade, reads⟩ := of_bind reads
    obtain ⟨_, -, reads⟩ := of_bind reads
    obtain ⟨_, -, reads⟩ := of_bind reads
    cases reads
    exact adds_recordResource (upgradeData_readSet isUpgrade)

omit [DecidableEq Tag] in
theorem getResourceStateValue_adds
    (reads : state.getResourceStateValue env key kind layout = .ok after) :
    state.Adds after (.resource key kind layout) := by
  obtain ⟨⟨result, between⟩, first, reads⟩ := of_bind reads
  have adds := readCachedData_adds first
  cases result with
  | some =>
    cases reads
    exact adds
  | none =>
    cases adds
    obtain ⟨_, -, reads⟩ := of_bind reads
    obtain ⟨⟨result, _⟩, second, reads⟩ := of_bind reads
    obtain ⟨_, isSome, reads⟩ := of_bind reads
    cases reads
    have adds := readCachedData_adds second
    cases result with
    | some => exact ⟨adds.counts, adds.modules⟩
    | none => cases isSome

/-- A read of a tag that the group has is recorded if it is a value read. -/
theorem readCachedGroupTaggedData_adds {result : Option (ReadResult Metadata Layout)}
    (reads : state.readCachedGroupTaggedData env groupKey tag kind layout = .ok (result, after))
    (finds : kind = .value ∨ state.map.fetchGroupTaggedData groupKey tag ≠ .error .tagNotFound) :
    if result.isSome then
      state.Adds after (.groupMember groupKey tag kind layout)
    else after = state ∧ state.map.fetchGroupTaggedData groupKey tag = .error .uninitialized := by
  rw [readCachedGroupTaggedData] at reads
  split at reads
  · rename_i value isFound
    obtain ⟨⟨upgraded, between⟩, isUpgrade, reads⟩ := of_bind reads
    obtain ⟨_, -, reads⟩ := of_bind reads
    obtain ⟨_, -, reads⟩ := of_bind reads
    cases reads
    have same := upgradeGroup_readSet isUpgrade
    by_cases isValue : kind = .value
    · subst isValue
      exact adds_recordGroup same
    · rw [if_neg isValue]
      refine adds_same same ?_ rfl
      cases kind <;> first | exact absurd rfl isValue | rfl
  · rename_i isUninitialized
    cases reads
    exact ⟨rfl, isUninitialized⟩
  · rename_i isAbsent
    obtain ⟨_, -, reads⟩ := of_bind reads
    obtain ⟨_, -, reads⟩ := of_bind reads
    cases reads
    rcases finds with rfl | isFound
    · exact adds_recordGroup rfl
    · exact absurd isAbsent isFound

omit [DecidableEq Id] in
theorem setBaseGroup_spec (sets : state.setBaseGroup env groupKey = .ok after) :
    after.readSet = state.readSet ∧ state.map.groupCache.lookup groupKey = none ∧
      ∀ tag, state.map.hasTag env groupKey tag → after.map.fetchGroupTaggedData groupKey tag ≠
          .error .tagNotFound := by
  obtain ⟨⟨members, metadataOp⟩, isBase, sets⟩ := of_bind sets
  obtain ⟨map, isMap, sets⟩ := of_bind sets
  cases sets
  obtain ⟨size, -, isMap⟩ := of_bind isMap
  obtain ⟨isEmpty, isMap⟩ := of_ensure_bind isMap
  rw [Option.isNone_iff_eq_none] at isEmpty
  cases isMap
  refine ⟨rfl, isEmpty, fun tag isThere => ?_⟩
  rw [UnsyncMap.hasTag, isEmpty, isBase] at isThere
  rw [Option.isSome_iff_exists] at isThere
  obtain ⟨value, isValue⟩ := isThere
  simp [UnsyncMap.fetchGroupTaggedData, UnsyncMap.setBaseValue, expect, isValue, bind, Except.bind]

omit [DecidableEq Id] in
theorem fetchGroupTaggedData_of_hasTag (isThere : state.map.hasTag env groupKey tag) :
    state.map.fetchGroupTaggedData groupKey tag ≠ .error .tagNotFound := by
  rw [UnsyncMap.hasTag] at isThere
  rw [UnsyncMap.fetchGroupTaggedData]
  generalize state.map.groupCache.lookup groupKey = cached at isThere ⊢
  cases cached with
  | none => simp [expect, bind, Except.bind]
  | some =>
    obtain ⟨value, isValue⟩ := Option.isSome_iff_exists.mp isThere
    simp [expect, isValue, bind, Except.bind]

theorem getResourceFromGroup_adds
    (reads : state.getResourceFromGroup env groupKey tag kind layout = .ok after)
    (finds : kind = .value ∨ state.map.hasTag env groupKey tag) :
    state.Adds after (.groupMember groupKey tag kind layout) := by
  obtain ⟨⟨result, between⟩, first, continues⟩ := of_bind reads
  have adds := readCachedGroupTaggedData_adds first
    (finds.imp_right fetchGroupTaggedData_of_hasTag)
  cases result with
  | some =>
    cases continues
    exact adds
  | none =>
    cases adds.1
    obtain ⟨based, isBased, reads⟩ := of_bind continues
    obtain ⟨⟨result, _⟩, second, reads⟩ := of_bind reads
    obtain ⟨_, isSome, reads⟩ := of_bind reads
    cases reads
    obtain ⟨same, -, hasBase⟩ := setBaseGroup_spec isBased
    have adds := readCachedGroupTaggedData_adds second (finds.imp_right (hasBase tag))
    cases result with
    | some =>
      exact ⟨fun key => by rw [adds.counts, same], by rw [adds.modules, same]⟩
    | none => cases isSome

theorem read_adds (reads : state.read env request = .ok after)
    (finds : request.FindsTag env state.map) : state.Adds after request := by
  cases request with
  | resource => exact getResourceStateValue_adds reads
  | groupMember =>
    exact getResourceFromGroup_adds reads finds
  | groupSize =>
    rw [read, resourceGroupSize] at reads
    split at reads
    · cases reads
      exact adds_same rfl rfl rfl
    · obtain ⟨based, isBased, reads⟩ := of_bind reads
      obtain ⟨_, -, reads⟩ := of_bind reads
      cases reads
      exact adds_same (setBaseGroup_spec isBased).1 rfl rfl
  | delayedFieldValue =>
    obtain ⟨_, -, reads⟩ := of_bind reads
    cases reads
    refine ⟨fun key => ?_, rfl⟩
    cases key <;> simp [UnsyncReadSet.Counts, counted, or_comm, eq_comm]
  | tryAddDelta =>
    obtain ⟨_, -, reads⟩ := of_bind reads
    obtain ⟨_, -, reads⟩ := of_bind reads
    obtain ⟨_, -, reads⟩ := of_bind reads
    cases reads
    exact adds_same rfl rfl rfl
  | module =>
    cases reads
    refine ⟨fun key => ?_, rfl⟩
    cases key <;> simp [UnsyncReadSet.Counts, counted]

/-- At each of the reads, the tag is there unless it is a value read. -/
def FindsTags (env : ViewEnv Key Tag Metadata Layout Id) :
    SequentialState Key Tag Metadata Layout Id Module →
      List (ReadRequest Key Tag Layout Id Module) → Prop
  | _, [] => True
  | state, request :: rest => request.FindsTag env state.map ∧
      ∀ after, state.read env request = .ok after → FindsTags env after rest

theorem reads_counts {requests : List (ReadRequest Key Tag Layout Id Module)}
    (succeeds : state.reads env requests = .ok after) (finds : FindsTags env state requests) :
    (∀ key, after.readSet.Counts key ↔ state.readSet.Counts key ∨
      ∃ request ∈ requests, request.counted = some key) ∧
    ∀ module, module ∈ after.readSet.moduleReads ↔ module ∈ state.readSet.moduleReads ∨
        ∃ request ∈ requests, module ∈ request.moduleRead := by
  induction requests generalizing state with
  | nil =>
    cases succeeds
    simp
  | cons request rest inductionHypothesis =>
    obtain ⟨between, isFirst, succeeds⟩ := of_bind succeeds
    have first := read_adds isFirst finds.1
    obtain ⟨counts, modules⟩ := inductionHypothesis succeeds (finds.2 between isFirst)
    constructor
    · intro key
      rw [counts, first.counts]
      simp [or_assoc]
    · intro module
      rw [modules, first.modules]
      simp only [mem_append, mem_cons, exists_eq_or_imp]
      tauto

end SequentialState

end LumioNode
