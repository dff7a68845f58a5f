import LumioNode.BlockExecutor.SequentialExecution

/-! # The fallback for resource groups

The check computes the final group from the state before the transaction.  It agrees
with the serialization after the writes if the recorded sizes are true. -/

namespace LumioNode

open Library List

namespace SequentialEnv

variable {Key Tag Metadata Layout Id : Type} {env : SequentialEnv Key Tag Metadata Layout Id}
  {map after : UnsyncMap Key Tag Metadata Layout Id} {output : TxnOutput Key Tag Metadata Layout Id}
  {op : WriteOp Metadata} {mustSkip : Bool}

/-- Values take the same number of bytes as the ids they replace. -/
def ExchangeKeepsLength (env : SequentialEnv Key Tag Metadata Layout Id) : Prop :=
  ∀ map op layout patched, env.replaceIdsWithValues map op layout = .ok patched →
      patched.extractRawBytes.map List.length = op.extractRawBytes.map List.length

theorem patchValue_length (keepsLength : env.ExchangeKeepsLength)
    {value : ValueWithLayout (WriteOp Metadata) Layout} {patched : WriteOp Metadata}
    (isPatched : env.patchValue map value = .ok patched) :
    (patched.extractRawBytes.getD []).length = (value.value.extractRawBytes.getD []).length := by
  have ofMap {left right : Option Bytes} (same : left.map List.length = right.map List.length) :
      (left.getD []).length = (right.getD []).length := by
    cases left <;> cases right <;> simp_all
  cases value with
  | rawFromStorage =>
    cases isPatched
    rfl
  | exchanged op layout =>
    cases layout with
    | none =>
      cases isPatched
      rfl
    | some => exact ofMap (keepsLength _ _ _ _ isPatched)

theorem rawGroup_eq_ok {members : Table Tag (ValueWithLayout (WriteOp Metadata) Layout)}
    {raw : Table Tag Bytes} :
    rawGroup members = .ok raw ↔ (∀ member ∈ members.entries, member.2.value.isDeletion = false) ∧
        Table.mapValues (fun value => value.value.extractRawBytes.getD []) members = raw := by
  unfold rawGroup
  rw [bind_eq_ok]
  simp only [ensure_eq_ok, pure_eq_ok]
  constructor
  · rintro ⟨_, noDeletion, isRaw⟩
    exact ⟨noDeletion, isRaw⟩
  · rintro ⟨noDeletion, isRaw⟩
    exact ⟨(), noDeletion, isRaw⟩

theorem materializeGroup_shape (keepsLength : env.ExchangeKeepsLength)
    {group : CachedGroup Tag Metadata Layout} {materialized : MaterializedGroup Tag Metadata}
    (isMaterialized : env.materializeGroup map (op, group) = .ok materialized)
    {raw : Table Tag Bytes} (isRaw : rawGroup group.members = .ok raw) :
    (materialized.members.map fun member =>
      (member.1, (member.2.extractRawBytes.getD []).length)) =
        groupShape raw ∧ materialized.size = group.size := by
  obtain ⟨members, areMembers, isMaterialized⟩ := of_bind isMaterialized
  cases isMaterialized
  obtain ⟨_, rfl⟩ := rawGroup_eq_ok.mp isRaw
  refine ⟨?_, rfl⟩
  have related := forall₂_of_mapM areMembers
  clear areMembers isMaterialized isRaw
  rw [groupShape, Table.mapValues, map_map]
  generalize group.members.entries = entries at related ⊢
  induction related with
  | nil => rfl
  | cons isPatched _ inductionHypothesis =>
    obtain ⟨patched, isValue, same⟩ := of_bind isPatched
    cases same
    rw [map_cons, map_cons, inductionHypothesis, patchValue_length keepsLength isValue]
    rfl

theorem serializeGroup_ne {group : MaterializedGroup Tag Metadata}
    (fits : sizeMismatch env.tagLen (group.members.map fun member =>
      (member.1, (member.2.extractRawBytes.getD []).length)) group.size = false) :
    env.serializeGroup group ≠ .error .resourceGroupSerializationError := by
  intro failed
  rcases bind_eq_error.mp failed with notRaw | ⟨_, _, mismatch⟩
  · unfold ensure at notRaw
    split at notRaw <;> cases notRaw
  · simp only [fits] at mismatch
    cases mismatch

theorem toSequentialError_ne {α : Type} {call : Except Fault α} :
    call.mapError toSequentialError ≠ .error .resourceGroupSerializationError := by
  intro failed
  obtain ⟨fault, _, same⟩ := mapError_eq_error.mp failed
  cases fault <;> cases same

theorem afterCommit_ne {idx : Nat}
    {ret : List (TxnOutcome (TxnOutput Key Tag Metadata Layout Id))} :
    env.afterCommit idx mustSkip output map ret ≠ .error .resourceGroupSerializationError := by
  unfold afterCommit
  intro failed
  split at failed
  · cases failed
  · split at failed
    · split at failed
      · rcases bind_eq_error.mp failed with notGenerated | ⟨_, _, failed⟩
        · exact toSequentialError_ne notGenerated
        · cases failed
      · cases failed
    · cases failed

variable [DecidableEq Key]

theorem finalize_eq_ok {groupKey : Key} {result : Table Tag Bytes × ResourceGroupSize} :
    finalize map groupKey = .ok result ↔ ∃ group, map.groupCache.lookup groupKey = some group ∧
        rawGroup group.members = .ok result.1 ∧ group.size = result.2 := by
  unfold finalize UnsyncMap.finalizeGroup
  simp only [bind_eq_ok, expect_eq_ok, pure_eq_ok]
  constructor
  · rintro ⟨group, isGroup, raw, isRaw, rfl⟩
    exact ⟨group, isGroup, isRaw, rfl⟩
  · rintro ⟨group, isGroup, isRaw, isSize⟩
    exact ⟨group, isGroup, result.1, isRaw, by rw [isSize]⟩

theorem mapFinalizedGroup_eq_ok {group : Key × WriteOp Metadata × Bool}
    {finalized : WriteOp Metadata × CachedGroup Tag Metadata Layout}
    (isFinalized : mapFinalizedGroup map group = .ok finalized) :
    map.groupCache.lookup group.1 = some finalized.2 := by
  obtain ⟨found, isFound, isFinalized⟩ := of_bind isFinalized
  obtain ⟨_, _, isFinalized⟩ := of_bind isFinalized
  obtain ⟨_, _, isFinalized⟩ := of_bind isFinalized
  cases isFinalized
  exact expect_eq_ok.mp isFound

/-- No cached group still has a deleted member. -/
def DeletionsApplied (map : UnsyncMap Key Tag Metadata Layout Id) : Prop :=
  ∀ key group, map.groupCache.lookup key = some group →
    ∀ member ∈ group.members.entries, member.2.value.isDeletion = false

theorem finalize_cached (deleted : DeletionsApplied map) {groupKey : Key}
    {group : CachedGroup Tag Metadata Layout}
    (isCached : map.groupCache.lookup groupKey = some group) :
    ∃ raw, rawGroup group.members = .ok raw ∧ finalize map groupKey = .ok (raw, group.size) := by
  have isRaw := rawGroup_eq_ok.mpr ⟨deleted groupKey group isCached, rfl⟩
  exact ⟨_, isRaw, finalize_eq_ok.mpr ⟨group, isCached, isRaw, rfl⟩⟩

theorem groupCache_foldl_write {α : Type} {items : List α} {key : α → Key}
    {op : α → WriteOp Metadata} {layout : α → Option Layout} : (items.foldl (fun map item =>
      map.write (key item) (op item) (layout item)) map).groupCache =
        map.groupCache := by
  induction items generalizing map with
  | nil => rfl
  | cons item rest inductionHypothesis =>
    rw [foldl_cons, inductionHypothesis]
    rfl

/-- The group serializes to its recorded size. -/
def Serializes (env : SequentialEnv Key Tag Metadata Layout Id)
    (group : CachedGroup Tag Metadata Layout) : Prop :=
  ∃ raw, rawGroup group.members = .ok raw ∧
    sizeMismatch env.tagLen (groupShape raw) group.size = false

theorem serializes_of_read {read : Key × Metadata}
    (passed : env.readGroupFails map read = .ok false) {group : CachedGroup Tag Metadata Layout}
    (isGroup : map.groupCache.lookup read.1 = some group) : Serializes env group := by
  obtain ⟨⟨raw, size⟩, isFinal, passed⟩ := of_bind passed
  obtain ⟨other, isOther, isRaw, isSize⟩ := finalize_eq_ok.mp isFinal
  rw [isGroup] at isOther
  cases isOther
  simp only at isRaw isSize
  subst isSize
  exact ⟨raw, isRaw, pure_eq_ok.mp passed⟩

variable [DecidableEq Tag]

section

variable {members written : Table Tag (ValueWithLayout (WriteOp Metadata) Layout)}
  {raw : Table Tag Bytes} (isRaw : rawGroup members = .ok raw)

include isRaw

theorem rawGroup_insertGroupOp {op : Tag × WriteOp Metadata × Option Layout}
    (isWritten : UnsyncMap.insertGroupOp members op.1 op.2.1 op.2.2 = .ok written) :
    ∃ rawWritten, applyRawOp raw op = .ok rawWritten ∧ rawGroup written = .ok rawWritten := by
  obtain ⟨tag, write, maybeLayout⟩ := op
  obtain ⟨noDeletion, rfl⟩ := rawGroup_eq_ok.mp isRaw
  have inserted {bytes : Bytes} (isBytes : write.extractRawBytes = some bytes) (isInsert : written =
        members.insert tag (.exchanged write maybeLayout)) :
      ∃ rawWritten, applyRawOp (Table.mapValues
          (fun value => value.value.extractRawBytes.getD []) members)
          (tag, write, maybeLayout) = .ok rawWritten ∧
        rawGroup written = .ok rawWritten := by
    have notDeletion : write.isDeletion = false := by
      rw [WriteOp.isDeletion, isBytes]
      rfl
    subst isInsert
    refine ⟨_, ?_, rawGroup_eq_ok.mpr ⟨?_, rfl⟩⟩
    · simp only [applyRawOp, notDeletion, isBytes, Table.mapValues_insert]
      simp only [ValueWithLayout.value, isBytes]
      rfl
    · exact forall_mem_cons.mpr ⟨notDeletion, fun member isOther =>
        noDeletion member ((kerase_sublist _ _).subset isOther)⟩
  unfold UnsyncMap.insertGroupOp at isWritten
  dsimp only at isWritten
  generalize members.lookup tag = found at isWritten
  cases write <;> cases found <;> cases isWritten
  · exact inserted rfl rfl
  · exact inserted rfl rfl
  · refine ⟨_, rfl, rawGroup_eq_ok.mpr ⟨?_, Table.mapValues_erase _ _ _⟩⟩
    intro member isMember
    exact noDeletion member ((kerase_sublist _ _).subset isMember)

theorem rawGroup_foldlM {ops : List (Tag × WriteOp Metadata × Option Layout)}
    (isWritten : ops.foldlM (fun members op =>
      UnsyncMap.insertGroupOp members op.1 op.2.1 op.2.2) members = .ok written) :
    ∃ rawWritten, ops.foldlM applyRawOp raw = .ok rawWritten ∧
      rawGroup written = .ok rawWritten := by
  induction ops generalizing members raw with
  | nil =>
    cases isWritten
    exact ⟨raw, rfl, isRaw⟩
  | cons op rest inductionHypothesis =>
    obtain ⟨next, isNext, isWritten⟩ := of_bind isWritten
    obtain ⟨rawNext, isRawNext, nextRaw⟩ := rawGroup_insertGroupOp isRaw isNext
    obtain ⟨rawWritten, isRawWritten, writtenRaw⟩ := inductionHypothesis nextRaw isWritten
    refine ⟨rawWritten, ?_, writtenRaw⟩
    rw [foldlM_cons, isRawNext, ok_bind]
    exact isRawWritten

end

/-- The group of a write before and after it. -/
structure Rewrites (write : GroupWrite Key Tag Metadata Layout)
    (before written : CachedGroup Tag Metadata Layout) : Prop where
  members : (write.2.2.2.entries.map fun op => (op.1, op.2.1, op.2.2)).foldlM
    (fun members op => UnsyncMap.insertGroupOp members op.1 op.2.1 op.2.2)
    before.members = .ok written.members
  size : written.size = write.2.2.1

variable {write : GroupWrite Key Tag Metadata Layout}

theorem applyGroupWrite_spec (applied : applyGroupWrite map write = .ok after) :
    ∃ before written, map.groupCache.lookup write.1 = some before ∧ Rewrites write before written ∧
      after.groupCache = map.groupCache.insert write.1 written := by
  obtain ⟨inserted, isInserted, applied⟩ := of_bind applied
  cases applied
  obtain ⟨before, isBefore, isInserted⟩ := of_bind isInserted
  obtain ⟨members, areMembers, isInserted⟩ := of_bind isInserted
  cases isInserted
  exact ⟨before, ⟨members, write.2.2.1⟩, expect_eq_ok.mp isBefore, ⟨areMembers, rfl⟩, rfl⟩

structure GroupsRewritten (map after : UnsyncMap Key Tag Metadata Layout Id)
    (writes : List (GroupWrite Key Tag Metadata Layout)) : Prop where
  others : ∀ key, key ∉ writes.keys → after.groupCache.lookup key = map.groupCache.lookup key
  rewritten : ∀ write ∈ writes, ∃ before written, map.groupCache.lookup write.1 = some before ∧
      Rewrites write before written ∧
      after.groupCache.lookup write.1 = some written

theorem foldlM_applyGroupWrite {writes : List (GroupWrite Key Tag Metadata Layout)}
    (distinct : writes.NodupKeys) (applied : writes.foldlM applyGroupWrite map = .ok after) :
    GroupsRewritten map after writes := by
  induction writes generalizing map with
  | nil =>
    cases applied
    exact ⟨fun _ _ => rfl, fun write isWrite => nomatch isWrite⟩
  | cons write rest inductionHypothesis =>
    obtain ⟨next, isNext, applied⟩ := of_bind applied
    obtain ⟨before, written, isBefore, rewrites, isCache⟩ := applyGroupWrite_spec isNext
    rw [nodupKeys_cons] at distinct
    have fromNext := inductionHypothesis distinct.2 applied
    refine ⟨?_, ?_⟩
    · intro key notKey
      rw [keys_cons, mem_cons, not_or] at notKey
      rw [fromNext.others key notKey.2, isCache, Table.lookup_insert_eq, if_neg notKey.1]
    · intro other isOther
      rcases mem_cons.mp isOther with rfl | inRest
      · refine ⟨before, written, isBefore, rewrites, ?_⟩
        rw [fromNext.others other.1 distinct.1, isCache, Table.lookup_insert_eq, if_pos rfl]
      · obtain ⟨otherBefore, otherWritten, isOtherBefore, otherRewrites,
          isOtherAfter⟩ := fromNext.rewritten other inRest
        refine ⟨otherBefore, otherWritten, ?_, otherRewrites, isOtherAfter⟩
        have differ : other.1 ≠ write.1 := by
          intro same
          exact distinct.1 (same ▸ mem_keys_of_mem inRest)
        rw [isCache, Table.lookup_insert_eq, if_neg differ] at isOtherBefore
        exact isOtherBefore

theorem serializes_of_write (passed : env.writtenGroupFails map write = .ok false)
    {before written : CachedGroup Tag Metadata Layout}
    (isBefore : map.groupCache.lookup write.1 = some before)
    (kept : write.2.2.1.get = before.size.get) (rewrites : Rewrites write before written) :
    Serializes env written := by
  obtain ⟨⟨raw, size⟩, isFinal, passed⟩ := of_bind passed
  obtain ⟨other, isOther, isRaw, isSize⟩ := finalize_eq_ok.mp isFinal
  rw [isBefore] at isOther
  cases isOther
  simp only at isRaw isSize
  subst isSize
  obtain ⟨rawWritten, isRawWritten, writtenRaw⟩ := rawGroup_foldlM isRaw rewrites.members
  refine ⟨rawWritten, writtenRaw, ?_⟩
  simp only [kept, ne_eq, not_true_eq_false, if_false, isRawWritten, ok_bind, pure_eq_ok] at passed
  rw [← passed]
  rw [sizeMismatch, sizeMismatch, rewrites.size, kept]

/-- Every written group keeps the recorded size that it has in the map. -/
def SizesKept (map : UnsyncMap Key Tag Metadata Layout Id)
    (output : TxnOutput Key Tag Metadata Layout Id) : Prop :=
  ∀ write ∈ output.resourceGroupWriteSet.entries, ∀ group,
    map.groupCache.lookup write.1 = some group → write.2.2.1.get = group.size.get

theorem serializes_of_check (passed : env.serializationError map output = .ok false)
    (kept : SizesKept map output)
    (rewritten : GroupsRewritten map after output.resourceGroupWriteSet.entries) {key : Key}
    {isRead : Bool} (toFinalize : (key, op, isRead) ∈ groupsToFinalize output)
    {group : CachedGroup Tag Metadata Layout}
    (isGroup : after.groupCache.lookup key = some group) : Serializes env group := by
  obtain ⟨readFails, isReads, passed⟩ := of_bind passed
  cases readFails with
  | true => cases passed
  | false =>
    have readsPassed := anyM_eq_ok_false isReads
    have writesPassed := anyM_eq_ok_false passed
    have ofWrite {write : GroupWrite Key Tag Metadata Layout}
        (isWrite : write ∈ output.resourceGroupWriteSet.entries)
        (sameKey : write.1 = key) : Serializes env group := by
      obtain ⟨before, written, isBefore, rewrites, isAfter⟩ := rewritten.rewritten write isWrite
      rw [sameKey, isGroup] at isAfter
      cases isAfter
      exact serializes_of_write (writesPassed write isWrite) isBefore
        (kept write isWrite before isBefore) rewrites
    rcases mem_append.mp toFinalize with isWrite | isRead
    · obtain ⟨write, inWrites, same⟩ := mem_map.mp isWrite
      exact ofWrite inWrites (congrArg Prod.fst same)
    · obtain ⟨read, inReads, same⟩ := mem_map.mp isRead
      have sameKey : read.1 = key := congrArg Prod.fst same
      by_cases isWritten : key ∈ output.resourceGroupWriteSet.entries.keys
      · obtain ⟨write, inWrites, writeKey⟩ := mem_map.mp isWritten
        exact ofWrite inWrites writeKey
      · rw [rewritten.others key isWritten, ← sameKey] at isGroup
        exact serializes_of_read (readsPassed read inReads) isGroup

theorem serializationError_succeeds (deleted : DeletionsApplied map)
    (rewritten : GroupsRewritten map after output.resourceGroupWriteSet.entries)
    (cached : ∀ group ∈ groupsToFinalize output, ∃ found,
      after.groupCache.lookup group.1 = some found) :
    ∃ fails, env.serializationError map output = .ok fails := by
  have reads : ∃ fails, output.groupReadsNeedingDelayedFieldExchange.anyM
      (env.readGroupFails map) = .ok fails := by
    apply anyM_succeeds
    intro read isRead
    have isCached : ∃ group, map.groupCache.lookup read.1 = some group := by
      by_cases isWritten : read.1 ∈ output.resourceGroupWriteSet.entries.keys
      · obtain ⟨write, inWrites, sameKey⟩ := mem_map.mp isWritten
        obtain ⟨before, _, isBefore, _⟩ := rewritten.rewritten write inWrites
        exact ⟨before, sameKey ▸ isBefore⟩
      · rw [← rewritten.others read.1 isWritten]
        exact cached _ (mem_append_right _ (mem_map_of_mem isRead))
    obtain ⟨group, isGroup⟩ := isCached
    obtain ⟨raw, _, isFinal⟩ := finalize_cached deleted isGroup
    rw [readGroupFails, isFinal]
    exact ⟨_, rfl⟩
  obtain ⟨readFails, isReads⟩ := reads
  rw [serializationError, isReads, ok_bind]
  cases readFails with
  | true => exact ⟨true, rfl⟩
  | false =>
    apply anyM_succeeds
    intro write isWrite
    obtain ⟨before, written, isBefore, rewrites, _⟩ := rewritten.rewritten write isWrite
    obtain ⟨raw, isRaw, isFinal⟩ := finalize_cached deleted isBefore
    obtain ⟨rawWritten, isRawWritten, _⟩ := rawGroup_foldlM isRaw rewrites.members
    rw [writtenGroupFails, isFinal, ok_bind]
    dsimp only
    split
    · exact ⟨false, rfl⟩
    · rw [isRawWritten]
      exact ⟨_, rfl⟩

variable [DecidableEq Id]

theorem applyOutputSequential_groups {addModuleWrites : Except Fault Unit}
    (applied : applyOutputSequential map addModuleWrites output = .ok after) :
    GroupsRewritten map after output.resourceGroupWriteSet.entries := by
  obtain ⟨written, isWritten, applied⟩ := of_bind applied
  obtain ⟨_, _, applied⟩ := of_bind applied
  obtain ⟨fields, _, applied⟩ := of_bind applied
  cases applied
  have fromWritten := foldlM_applyGroupWrite output.resourceGroupWriteSet.nodupKeys isWritten
  constructor
  · intro key notKey
    have unchanged := fromWritten.others key notKey
    rw [groupCache_foldl_write] at unchanged
    rw [← unchanged]
    exact congrArg _ groupCache_foldl_write
  · intro write isWrite
    obtain ⟨before, rewritten, isBefore, rewrites, isAfter⟩ := fromWritten.rewritten write isWrite
    rw [groupCache_foldl_write] at isBefore
    refine ⟨before, rewritten, isBefore, rewrites, ?_⟩
    rw [← isAfter]
    exact congrArg _ groupCache_foldl_write

theorem commitOutput_error
    (failed : env.commitOutput map output = .error .resourceGroupSerializationError) :
    ∃ after finalized materialized,
      applyOutputSequential map (env.addModuleWrites output) output = .ok after ∧
      (groupsToFinalize output).mapM (mapFinalizedGroup after) = .ok finalized ∧
      finalized.mapM (env.materializeGroup after) = .ok materialized ∧
      materialized.mapM env.serializeGroup = .error .resourceGroupSerializationError := by
  rcases bind_eq_error.mp failed with notApplied | ⟨after, isApplied, failed⟩
  · exact absurd notApplied toSequentialError_ne
  rcases bind_eq_error.mp failed with notFinalized | ⟨finalized, areFinalized, failed⟩
  · exact absurd notFinalized toSequentialError_ne
  rcases bind_eq_error.mp failed with notMaterialized | ⟨materialized, areMaterialized, failed⟩
  · exact absurd notMaterialized toSequentialError_ne
  rcases bind_eq_error.mp failed with notSerialized | ⟨_, _, failed⟩
  · rw [mapError_eq_ok] at isApplied areFinalized areMaterialized
    exact ⟨after, finalized, materialized, isApplied, areFinalized, areMaterialized, notSerialized⟩
  · rcases bind_eq_error.mp failed with notRest | ⟨_, _, failed⟩
    · exact absurd notRest toSequentialError_ne
    · cases failed

/-- An output that passed the check does not fail to serialize. -/
theorem commitOutput_ne (keepsLength : env.ExchangeKeepsLength)
    (passed : env.serializationError map output = .ok false) (kept : SizesKept map output) :
    env.commitOutput map output ≠ .error .resourceGroupSerializationError := by
  intro failed
  obtain ⟨after, finalized, materialized, isApplied, areFinalized, areMaterialized,
    notSerialized⟩ := commitOutput_error failed
  obtain ⟨group, isGroup, groupFails⟩ := exists_of_mapM_error notSerialized
  obtain ⟨cached, isCached, isMaterialized⟩ := exists_of_mem_mapM areMaterialized isGroup
  obtain ⟨_, toFinalize, isFinalized⟩ := exists_of_mem_mapM areFinalized isCached
  obtain ⟨raw, isRaw, fits⟩ := serializes_of_check passed kept
    (applyOutputSequential_groups isApplied) toFinalize (mapFinalizedGroup_eq_ok isFinalized)
  obtain ⟨shape, size⟩ := materializeGroup_shape keepsLength isMaterialized isRaw
  rw [← shape, ← size] at fits
  exact serializeGroup_ne fits groupFails

/-- The check fails only on a deleted member, if the output fails to serialize. -/
theorem not_deletionsApplied {fault : Fault}
    (fails : env.serializationError map output = .error fault)
    (failed : env.commitOutput map output = .error .resourceGroupSerializationError) :
    ¬DeletionsApplied map := by
  intro deleted
  obtain ⟨after, finalized, _, isApplied, areFinalized, _⟩ := commitOutput_error failed
  have cached : ∀ group ∈ groupsToFinalize output, ∃ found,
      after.groupCache.lookup group.1 = some found := by
    intro group isGroup
    obtain ⟨found, isFound⟩ := succeeds_of_mapM areFinalized group isGroup
    exact ⟨found.2, mapFinalizedGroup_eq_ok isFound⟩
  obtain ⟨_, succeeds⟩ := serializationError_succeeds deleted
    (applyOutputSequential_groups isApplied) cached
  rw [fails] at succeeds
  cases succeeds

/-- The output of the next transaction keeps the recorded sizes. -/
def KeepsSizes (env : SequentialEnv Key Tag Metadata Layout Id)
    (progress : Progress Key Tag Metadata Layout Id) (idx : Nat) : Prop :=
  ∀ output map, env.executeTransaction idx progress.unsyncMap = (.success output, map) ∨
      env.executeTransaction idx progress.unsyncMap = (.skipRest output, map) →
    SizesKept map output

section

variable {progress : Progress Key Tag Metadata Layout Id} {idx : Nat}

theorem processOutput_ne
    (commits : env.commitOutput map output ≠ .error .resourceGroupSerializationError) :
    env.processOutput false idx mustSkip progress map output ≠
      .error .resourceGroupSerializationError := by
  intro failed
  rcases bind_eq_error.mp failed with notFailed | ⟨_, same, failed⟩
  · cases notFailed
  · cases same
    rcases bind_eq_error.mp failed with notCommitted | ⟨_, _, failed⟩
    · exact commits notCommitted
    · exact afterCommit_ne failed

variable (keepsLength : env.ExchangeKeepsLength)

include keepsLength

theorem processOutput_fallback_ne (kept : SizesKept map output) :
    env.processOutput true idx mustSkip progress map output ≠
      .error .resourceGroupSerializationError := by
  unfold processOutput
  cases check : env.serializationError map output with
  | error fault => cases fault <;> nofun
  | ok discards =>
    cases discards with
    | true => nofun
    | false => exact processOutput_ne (commitOutput_ne keepsLength check kept)

theorem processOutput_of_failed (kept : SizesKept map output)
    (failed : env.processOutput false idx mustSkip progress map output =
      .error .resourceGroupSerializationError) :
    ¬DeletionsApplied map ∧ (∃ fault, env.processOutput true idx mustSkip progress map output =
        .error (toSequentialError fault)) ∨
      env.processOutput true idx mustSkip progress map output = .ok { progress with
        unsyncMap := map
        ret := progress.ret ++ [.discarded] } := by
  have notCommitted : env.commitOutput map output = .error .resourceGroupSerializationError := by
    by_contra commits
    exact processOutput_ne commits failed
  unfold processOutput
  cases check : env.serializationError map output with
  | error fault => exact .inl ⟨not_deletionsApplied check notCommitted, fault, rfl⟩
  | ok discards =>
    cases discards with
    | true => exact .inr rfl
    | false => exact absurd notCommitted (commitOutput_ne keepsLength check kept)

variable (kept : env.KeepsSizes progress idx)

include kept

theorem executeNext_ne :
    env.executeNext true progress idx ≠ .error .resourceGroupSerializationError := by
  unfold executeNext
  split
  · next executed =>
    exact processOutput_fallback_ne keepsLength (kept _ _ (.inl executed))
  · next executed =>
    exact processOutput_fallback_ne keepsLength (kept _ _ (.inr executed))
  all_goals nofun

end

/-- If written groups keep their recorded sizes, the fallback never ends with a serialization
error and discards the transactions that would. -/
theorem fallback_never_fails_to_serialize (env : SequentialEnv Key Tag Metadata Layout Id)
    (keepsLength : env.ExchangeKeepsLength)
    (meets : RunMeets (env.loopBody true) env.KeepsSizes
      ⟨.new, [], false, false⟩ (List.range (env.numTxns + 1))) :
    env.executeTransactionsSequential true ≠ .error .resourceGroupSerializationError ∧
      ∀ progress idx, env.KeepsSizes progress idx → env.executeNext false progress idx =
          .error .resourceGroupSerializationError →
        ¬DeletionsApplied (env.executeTransaction idx progress.unsyncMap).2 ∧
            (∃ fault, env.executeNext true progress idx = .error (toSequentialError fault)) ∨
          env.executeNext true progress idx = .ok { progress with
            unsyncMap := (env.executeTransaction idx progress.unsyncMap).2
            ret := progress.ret ++ [.discarded] } := by
  constructor
  · refine (meets.safe (fun _ => True) trivial fun progress idx _ _ kept => ⟨?_, ?_⟩).1
    · unfold loopBody
      split
      · split
        · exact executeNext_ne keepsLength kept
        · nofun
      · split
        · exact executeNext_ne keepsLength kept
        · nofun
    · exact fun _ _ => trivial
  · intro progress idx kept failed
    unfold executeNext at failed ⊢
    split at failed
    · next executed =>
      rw [executed]
      exact processOutput_of_failed keepsLength (kept _ _ (.inl executed)) failed
    · next executed =>
      rw [executed]
      exact processOutput_of_failed keepsLength (kept _ _ (.inr executed)) failed
    all_goals cases failed

namespace Toy

def group : CachedGroup Nat Unit Unit where
  members := AList.singleton 1 (.rawFromStorage (.creation [0, 0, 0] ()))
  size := .concrete 6

def groupWrite (bytes : Bytes) (size : Nat) : TxnOutput Nat Nat Unit Unit Nat where
  resourceWriteSet := []
  resourceGroupWriteSet := AList.singleton 7 (.modification [] (), .concrete size,
      AList.singleton 1 (.modification bytes (), none))
  aggregatorV1WriteSet := ∅
  delayedFieldChangeSet := ∅
  groupReadsNeedingDelayedFieldExchange := []
  hasNewEpochEvent := false

def block (bytes : Bytes) (size : Nat) : SequentialEnv Nat Nat Unit Unit Nat where
  numTxns := 1
  executeTransaction := fun _ map =>
    (.success (groupWrite bytes size), { map with groupCache := AList.singleton 7 group })
  addModuleWrites := fun _ => .ok ()
  replaceIdsWithValues := fun _ op _ => .ok op
  materializeRest := fun _ _ => .ok ()
  shouldEndBlock := fun _ => false
  appendStateCheckpointToBlock := false
  genBlockEpilogue := fun _ => .ok ()
  tagLen := fun _ => some 1

/-- Four bytes make a group of seven; the recorded eight differ from the six before, so the
check does not look at it. -/
theorem other_size_fails_in_fallback : (block [1, 2, 3, 4] 8).executeTransactionsSequential true =
    .error .resourceGroupSerializationError := by
  rfl

theorem keepsLength (bytes : Bytes) (size : Nat) : (block bytes size).ExchangeKeepsLength := by
  intro map op layout patched isPatched
  cases isPatched
  rfl

theorem same_size_keepsSizes (progress : Progress Nat Nat Unit Unit Nat) (idx : Nat) :
    (block [1, 2, 3, 4] 6).KeepsSizes progress idx := by
  intro found map executed
  rcases executed with executed | executed
  · cases executed
    intro write isWrite cached isCached
    cases mem_singleton.mp isWrite
    cases isCached
    rfl
  · cases executed

/-- The group of seven bytes has the recorded size six, and the transaction is discarded. -/
theorem same_size_never_fails : (block [1, 2, 3, 4] 6).executeTransactionsSequential false =
      .error .resourceGroupSerializationError ∧
    (block [1, 2, 3, 4] 6).executeTransactionsSequential true ≠
      .error .resourceGroupSerializationError := by
  refine ⟨rfl, (fallback_never_fails_to_serialize (block [1, 2, 3, 4] 6)
    (keepsLength [1, 2, 3, 4] 6) ?_).1⟩
  exact ⟨same_size_keepsSizes _ 0, fun _ _ =>
    ⟨same_size_keepsSizes _ 1, fun _ _ => trivial⟩⟩

end Toy

end SequentialEnv

end LumioNode
