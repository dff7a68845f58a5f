import LumioNode.MVHashMap.VersionedData

/-! # Push validation

A write or a removal changes what some readers would read: their dependencies go along
if the value stays the same, and are handed back otherwise.  `view` is what one reader
has at a map. -/

namespace LumioNode

open Library SortedMap RegisteredReadDependencies Option Nat

namespace VersionedValue

variable {Value Layout : Type}

variable (map : VersionedValue Value Layout)

/-- What a transaction reads: index, value, and its registered incarnation. -/
def view (reader : Nat) :
    Option (Nat × ValueWithLayout Value Layout × Option Nat) :=
  (map.lastBelow (shiftedTxnIndex reader)).map fun last =>
    (last.1, last.2.valueWithLayout, last.2.dependencies.get? reader)

/-- An entry without its dependencies. -/
def content (index : Nat) :
    Option (Nat × ValueWithLayout Value Layout × Bool) :=
  (map.get? index).map fun entry =>
    (entry.incarnation, entry.valueWithLayout, entry.flag)

/-- Dependencies are registered only at the entry that the reader reads. -/
def Placed : Prop :=
  ∀ index entry reader incarnation, map.get? index = some entry →
    entry.dependencies.get? reader = some incarnation →
      map.lastBelow (shiftedTxnIndex reader) = some (index, entry)

variable {map : VersionedValue Value Layout} {reader txnIdx : Nat}
  {index : Nat} {entry new : Entry Value Layout}

theorem view_of_last (isLast : map.lastBelow (shiftedTxnIndex reader) = some (index, entry)) :
    map.view reader = some (index, entry.valueWithLayout, entry.dependencies.get? reader) := by
  rw [view, isLast, map_some]

theorem content_of_get (found : map.get? index = some entry) :
    map.content index = some (entry.incarnation, entry.valueWithLayout, entry.flag) := by
  rw [content, found, map_some]

theorem exists_last_of_view {seen : Nat × ValueWithLayout Value Layout × Option Nat}
    (isSeen : map.view reader = some seen) :
    ∃ entry, map.lastBelow (shiftedTxnIndex reader) = some (seen.1, entry) ∧
      map.get? seen.1 = some entry ∧
      seen = (seen.1, entry.valueWithLayout, entry.dependencies.get? reader) := by
  obtain ⟨⟨index, entry⟩, isLast, rfl⟩ := map_eq_some_iff.mp isSeen
  exact ⟨entry, isLast, (lastBelow_eq_some_iff.mp isLast).1, rfl⟩

theorem content_of_view {value : ValueWithLayout Value Layout} {dependency : Option Nat}
    (seen : map.view reader = some (index, value, dependency)) :
    ∃ content, map.content index = some content ∧ content.2.1 = value := by
  obtain ⟨entry, _, found, isSeen⟩ := exists_last_of_view seen
  cases isSeen
  exact ⟨_, content_of_get found, rfl⟩

theorem index_view : (map.view reader).map Prod.fst =
    (map.lastBelow (shiftedTxnIndex reader)).map Prod.fst := by
  rw [view, map_map]
  rfl

theorem Placed.index_le (placed : map.Placed) {incarnation : Nat}
    (found : map.get? index = some entry)
    (registered : entry.dependencies.get? reader = some incarnation) : index ≤ reader := by
  have isLast := placed index entry reader incarnation found registered
  have less := (lastBelow_eq_some_iff.mp isLast).2.1
  exact le_of_lt_succ less

theorem placed_replace (placed : map.Placed) (found : map.get? index = some entry)
    (areReaders : ∀ reader incarnation, new.dependencies.get? reader = some incarnation →
      map.lastBelow (shiftedTxnIndex reader) = some (index, entry)) :
    Placed (map.insert index new) := by
  intro other otherEntry reader incarnation isOther registered
  rw [lastBelow_replace (isSome_of_eq_some found)]
  rw [get?_insert] at isOther
  split at isOther
  · cases isOther
    simp_all
  · rw [placed other otherEntry reader incarnation isOther registered]
    simp_all

theorem view_replace (present : (map.get? index).isSome) (reader : Nat) :
    view (map.insert index new) reader = (map.view reader).map fun seen =>
      if seen.1 = index then
        (index, new.valueWithLayout, new.dependencies.get? reader)
      else seen := by
  rw [view, view, lastBelow_replace present, map_map, map_map]
  congr 1
  funext last
  by_cases same : last.1 = index <;> simp [same]

theorem view_register_of_same {dependencies : RegisteredReadDependencies}
    (found : map.get? index = some entry)
    (same : dependencies.get? reader = entry.dependencies.get? reader) :
    view (map.insert index { entry with dependencies }) reader = map.view reader := by
  rw [view_replace (isSome_of_eq_some found)]
  cases seen : map.view reader with
  | none => rfl
  | some =>
    obtain ⟨otherEntry, _, otherFound, isSeen⟩ := exists_last_of_view seen
    grind

theorem content_insert (other : Nat) : content (map.insert index new) other = if other = index then
      some (new.incarnation, new.valueWithLayout, new.flag)
    else map.content other := by
  rw [content, get?_insert, content, apply_ite (Option.map _), map_some]

theorem content_register (found : map.get? index = some entry)
    (dependencies : RegisteredReadDependencies) :
    content (map.insert index { entry with dependencies }) = map.content := by
  funext other
  rw [content_insert]
  split
  · rename_i same
    rw [same, content_of_get found]
  · rfl

/-! ## Reading -/

/-- A read is registered at the entry that it reads. -/
theorem read_eq (placed : map.Placed) (done : ∀ index content, map.content index = some content →
      content.2.2 = false) {incarnation : Nat}
    (notLower : ∀ index value previous, map.view reader = some (index, value, some previous) →
        previous ≤ incarnation) :
    (map.view reader = none ∧
      map.read reader (some incarnation) = .ok (.error .uninitialized, map)) ∨
    ∃ index value dependency version recorded, map.view reader = some (index, value, dependency) ∧
      map.read reader (some incarnation) = .ok (.ok ⟨version, value⟩, recorded) ∧
      recorded.Placed ∧ recorded.content = map.content ∧
      ∀ other, recorded.view other = if other = reader then some (index, value, some incarnation)
        else map.view other := by
  cases isLast : map.lastBelow (shiftedTxnIndex reader) with
  | none => exact .inl ⟨by rw [view, isLast, map_none], by rw [read, isLast]⟩
  | some last =>
    right
    obtain ⟨index, entry⟩ := last
    have found := (lastBelow_eq_some_iff.mp isLast).1
    have isView := view_of_last isLast
    have isDone : entry.flag = false := done index _ (content_of_get found)
    have registered : entry.dependencies.record reader incarnation =
        .ok (entry.dependencies.insert reader incarnation) :=
      record_eq_ok fun previous isPrevious =>
        notLower index entry.valueWithLayout previous (by rw [isView, isPrevious])
    refine ⟨index, entry.valueWithLayout, _, (realTxnIndex index).map
      fun txnIdx => (txnIdx, entry.incarnation), map.insert index
        { entry with
          dependencies := entry.dependencies.insert reader incarnation },
      isView, ?_, ?_, content_register found _, ?_⟩
    · rw [read, isLast]
      simp only [isDone, registered]
      rfl
    · refine placed_replace placed found fun other previous isRegistered => ?_
      have isPlaced := placed index entry other previous found
      grind
    · intro other
      split
      · rename_i same
        rw [same, view_replace (isSome_of_eq_some found), isView]
        simp [get?_insert]
      · rename_i different
        apply view_register_of_same found
        rw [get?_insert, if_neg different]

/-! ## Writing -/

/-- A write of the transaction changes what the reader reads. -/
def Affected (map : VersionedValue Value Layout) (txnIdx reader : Nat) : Prop :=
  txnIdx < reader ∧ ∀ seen, map.view reader = some seen → seen.1 ≤ shiftedTxnIndex txnIdx

/-- The incarnation of the reader that is registered. -/
def dependency (map : VersionedValue Value Layout) (reader : Nat) : Option Nat :=
  (map.view reader).bind fun seen => seen.2.2

theorem affected_iff_index : Affected map txnIdx reader ↔ txnIdx < reader ∧
    ∀ index, (map.view reader).map Prod.fst = some index → index ≤ shiftedTxnIndex txnIdx := by
  unfold Affected
  cases map.view reader <;> simp

theorem affected_iff : Affected map txnIdx reader ↔
    shiftedTxnIndex txnIdx < shiftedTxnIndex reader ∧
      ∀ last, map.lastBelow (shiftedTxnIndex reader) = some last →
        last.1 ≤ shiftedTxnIndex txnIdx := by
  rw [affected_iff_index, index_view, shiftedTxnIndex, shiftedTxnIndex, Nat.add_lt_add_iff_right]
  cases map.lastBelow (reader + 1) <;> simp

theorem lastBelow_of_affected (affected : Affected map txnIdx reader) :
    map.lastBelow (shiftedTxnIndex txnIdx + 1) = map.lastBelow (shiftedTxnIndex reader) := by
  obtain ⟨later, atMost⟩ := affected_iff.mp affected
  exact lastBelow_of_le later fun last isLast => lt_succ_of_le (atMost last isLast)

/-- A new entry is put in for readers that it is for. -/
theorem insert_eq (placed : map.Placed)
    (noDependency : ∀ reader, Affected map txnIdx reader → map.dependency reader = none)
    (areAffected : ∀ reader, ¬ Affected map txnIdx reader → new.dependencies.get? reader = none) :
    Placed (map.insert (shiftedTxnIndex txnIdx) new) ∧ ∀ reader, (¬ Affected map txnIdx reader →
          view (map.insert (shiftedTxnIndex txnIdx) new) reader = map.view reader) ∧
        (Affected map txnIdx reader → view (map.insert (shiftedTxnIndex txnIdx) new) reader =
            some (shiftedTxnIndex txnIdx, new.valueWithLayout, new.dependencies.get? reader)) := by
  have onlyAffected {reader : Nat} (isAffected : Affected map txnIdx reader) :
      (map.insert (shiftedTxnIndex txnIdx) new).lastBelow
        (shiftedTxnIndex reader) = some (shiftedTxnIndex txnIdx, new) := by
    rw [lastBelow_insert, if_pos (affected_iff.mp isAffected)]
  have others {reader : Nat} (notAffected : ¬ Affected map txnIdx reader) :
      (map.insert (shiftedTxnIndex txnIdx) new).lastBelow (shiftedTxnIndex reader) =
          map.lastBelow (shiftedTxnIndex reader) := by
    rw [lastBelow_insert, if_neg (fun holds => notAffected (affected_iff.mpr holds))]
  refine ⟨?_, fun reader => ⟨fun notAffected => ?_, fun isAffected => ?_⟩⟩
  · intro index entry reader incarnation found registered
    rw [get?_insert] at found
    by_cases isAffected : Affected map txnIdx reader
    · have none := noDependency reader isAffected
      rw [onlyAffected isAffected]
      split at found
      · simp_all
      · have isLast := placed index entry reader incarnation found registered
        rw [dependency, view_of_last isLast, bind_some, registered] at none
        cases none
    · have isLast := placed index entry reader incarnation
      rw [others isAffected]
      grind
  · rw [view, others notAffected, view]
  · exact view_of_last (onlyAffected isAffected)

section Write

variable [DecidableEq Value] {Metadata : Type} [DecidableEq Metadata]
  [TransactionWrite Value Metadata] {onlyCompareMetadata : Bool}

theorem splitOff_eq (placed : map.Placed) {data : Value} {layout : Option Layout}
    {affected : RegisteredReadDependencies} {stillValid : Bool} {kept : VersionedValue Value Layout}
    (isSplit : map.splitOffAffectedReadDependencies onlyCompareMetadata txnIdx data layout =
      (affected, stillValid, kept)) :
    kept.Placed ∧ kept.content = map.content ∧ (∀ reader, ¬ Affected map txnIdx reader →
        kept.view reader = map.view reader ∧ affected.get? reader = none) ∧
      ∀ reader, Affected map txnIdx reader → kept.view reader = (map.view reader).map
          (fun seen => (seen.1, seen.2.1, none)) ∧
        affected.get? reader = map.dependency reader ∧
        (stillValid = true → ∃ seen value seenLayout, map.view reader = some seen ∧
          seen.2.1 = .exchanged value seenLayout ∧
          compareValuesAndLayouts onlyCompareMetadata value data seenLayout layout = true) := by
  unfold splitOffAffectedReadDependencies at isSplit
  cases isLast : map.lastBelow (shiftedTxnIndex txnIdx + 1) with
  | none =>
    rw [isLast] at isSplit
    cases isSplit
    refine ⟨placed, rfl, fun _ _ => ⟨rfl, rfl⟩, ?_⟩
    intro reader isAffected
    have noView : map.view reader = none := by
      rw [view, ← lastBelow_of_affected isAffected, isLast, map_none]
    rw [dependency, noView]
    exact ⟨rfl, rfl, fun isValid => absurd isValid Bool.false_ne_true⟩
  | some last =>
    obtain ⟨index, entry⟩ := last
    have found := (lastBelow_eq_some_iff.mp isLast).1
    rw [isLast] at isSplit
    cases isSplit
    have isPlaced := fun reader incarnation => placed index entry reader incarnation found
    refine ⟨?_, content_register found _, ?_, ?_⟩
    · refine placed_replace placed found fun reader incarnation isRegistered => ?_
      exact isPlaced reader incarnation (by grind)
    · intro reader notAffected
      have notSplit : txnIdx < reader → entry.dependencies.get? reader = none := by
        intro later
        rw [eq_none_iff_forall_ne_some]
        intro incarnation registered
        refine notAffected (affected_iff.mpr ⟨succ_lt_succ later, ?_⟩)
        intro last isOther
        cases (isPlaced _ _ registered).symm.trans isOther
        exact le_of_lt_succ (lastBelow_eq_some_iff.mp isLast).2.1
      exact ⟨view_register_of_same found (by grind), by grind⟩
    · intro reader isAffected
      have notBefore : ¬ reader < txnIdx + 1 := Nat.not_lt.mpr isAffected.1
      have isView := view_of_last ((lastBelow_of_affected isAffected).symm.trans isLast)
      refine ⟨?_, ?_, ?_⟩
      · rw [view_replace (isSome_of_eq_some found), isView]
        simp [get?_below, notBefore]
      · rw [get?_atLeast, if_neg notBefore, dependency, isView, bind_some]
      · intro isValid
        cases isValue : entry.valueWithLayout with
        | rawFromStorage => simp [isValue] at isValid
        | exchanged value seenLayout =>
          simp only [isValue, Bool.and_eq_true] at isValid
          exact ⟨_, value, seenLayout, isView, isValue, isValid.2⟩

end Write

/-! ## Removing -/

theorem view_erase (placed : map.Placed) (index reader : Nat) : view (map.erase index) reader =
    if (map.view reader).map Prod.fst = some index then
      (map.lastBelow index).map fun last =>
        (last.1, last.2.valueWithLayout, none)
    else map.view reader := by
  rw [view, lastBelow_erase, ← index_view]
  split_ifs with wasRead
  · cases isLower : map.lastBelow index with
    | none => rfl
    | some lower =>
      obtain ⟨lowerIndex, entry⟩ := lower
      obtain ⟨found, less, _⟩ := lastBelow_eq_some_iff.mp isLower
      have notRegistered : entry.dependencies.get? reader = none := by
        rw [eq_none_iff_forall_ne_some]
        intro incarnation registered
        rw [view_of_last (placed lowerIndex entry reader incarnation found registered)] at wasRead
        exact less.ne (Option.some.inj wasRead)
      rw [map_some, map_some, notRegistered]
  · rfl

theorem placed_erase (placed : map.Placed) (index : Nat) : Placed (map.erase index) := by
  intro other entry reader incarnation found registered
  rw [get?_erase] at found
  split at found
  · cases found
  · rename_i different
    rw [lastBelow_erase, placed other entry reader incarnation found registered,
      if_neg (by simpa using different)]

theorem content_erase (index other : Nat) : content (map.erase index) other =
    if other = index then none else map.content other := by
  rw [content, get?_erase, content, apply_ite (Option.map _), map_none]

theorem get?_dependencies (placed : map.Placed) (found : map.get? index = some entry)
    (reader : Nat) : entry.dependencies.get? reader =
      if (map.view reader).map Prod.fst = some index then map.dependency reader else none := by
  split
  · rename_i wasRead
    obtain ⟨seen, isSeen, rfl⟩ := map_eq_some_iff.mp wasRead
    obtain ⟨other, _, isOther, isEntry⟩ := exists_last_of_view isSeen
    rw [found] at isOther
    cases isOther
    rw [dependency, isSeen, bind_some, isEntry]
  · rename_i notRead
    rw [eq_none_iff_forall_ne_some]
    intro incarnation registered
    rw [view_of_last (placed index entry reader incarnation found registered)] at notRead
    exact notRead rfl

section Remove

variable [DecidableEq Value] {Metadata : Type} [DecidableEq Metadata]
  [TransactionWrite Value Metadata] {onlyCompareMetadata : Bool}

/-- The dependencies of a removed entry are handed back, or go to the next lower entry of the
same value. -/
theorem handleRemovedDependencies_eq {data : Value} {layout : Option Layout}
    {dependencies : RegisteredReadDependencies} (removed : map.get? (shiftedTxnIndex txnIdx) = none)
    (higher : ∀ index entry, map.lastBelow (shiftedTxnIndex txnIdx + 1) = some (index, entry) → ∀
      reader highest, (entry.dependencies.get? highest).isSome → (dependencies.get? reader).isSome →
      highest < reader) :
    map.handleRemovedDependencies onlyCompareMetadata txnIdx dependencies data
        layout = .ok (dependencies, map) ∨
      ∃ index entry value lowerLayout,
        map.lastBelow (shiftedTxnIndex txnIdx + 1) = some (index, entry) ∧
        entry.valueWithLayout = .exchanged value lowerLayout ∧
        compareValuesAndLayouts onlyCompareMetadata value data lowerLayout layout = true ∧
        map.handleRemovedDependencies onlyCompareMetadata txnIdx dependencies
          data layout = .ok (empty, map.insert index
            { entry with dependencies := entry.dependencies.extendImpl dependencies }) := by
  unfold handleRemovedDependencies
  by_cases isEmpty : dependencies.isEmpty = true
  · exact .inl (if_pos isEmpty)
  rw [if_neg isEmpty]
  cases isLast : map.lastBelow (shiftedTxnIndex txnIdx + 1) with
  | none => exact .inl rfl
  | some last =>
    obtain ⟨index, entry⟩ := last
    obtain ⟨found, isLess, _⟩ := lastBelow_eq_some_iff.mp isLast
    have notRemoved : realTxnIndex index ≠ some txnIdx := by
      intro same
      have isIndex : index = shiftedTxnIndex txnIdx := by
        unfold realTxnIndex at same
        split_ifs at same with positive
        rw [Option.some.injEq] at same
        unfold shiftedTxnIndex
        omega
      rw [isIndex, removed] at found
      cases found
    simp only [ensure_of notRemoved, ok_bind]
    cases isValue : entry.valueWithLayout with
    | rawFromStorage => exact .inl rfl
    | exchanged value lowerLayout =>
      dsimp only
      split
      · rename_i same
        have extended := extendWithHigherDependencies_eq_ok (higher index entry isLast)
        refine .inr ⟨index, entry, value, lowerLayout, rfl, isValue, same, ?_⟩
        rw [extended, isValue]
        rfl
      · exact .inl rfl

end Remove

end VersionedValue

namespace VersionedData

open VersionedValue

variable {Value Layout Metadata : Type} [DecidableEq Value]
  [DecidableEq Metadata] [TransactionWrite Value Metadata]
  {onlyCompareMetadata : Bool} {slot : Option (VersionedValue Value Layout)}
  {txnIdx incarnation : Nat} {data : Value} {layout : Option Layout}

omit [DecidableEq Value] [DecidableEq Metadata] [TransactionWrite Value Metadata] in
theorem writeImpl_eq {map : VersionedValue Value Layout}
    (later : ∀ content, map.content (shiftedTxnIndex txnIdx) = some content →
      content.1 < incarnation) (value : ValueWithLayout Value Layout)
    (dependencies : RegisteredReadDependencies) :
    map.writeImpl txnIdx incarnation value dependencies =
      .ok (map.insert (shiftedTxnIndex txnIdx) (newWriteEntry incarnation value dependencies)) := by
  unfold writeImpl
  cases found : map.get? (shiftedTxnIndex txnIdx) with
  | none => rfl
  | some =>
    simp only [ensure_of (later _ (content_of_get found)), ok_bind]
    rfl

/-- A reader reads as before, or its dependency goes along to a value that is the same for it,
or is handed back. -/
def Follows (onlyCompareMetadata : Bool) (map after : VersionedValue Value Layout)
    (invalidated : RegisteredReadDependencies) (reader : Nat) : Prop :=
  after.view reader = map.view reader ∨
    (∃ index value layout other next nextLayout registered,
      map.view reader = some (index, .exchanged value layout, registered) ∧
      after.view reader = some (other, .exchanged next nextLayout, registered) ∧
      compareValuesAndLayouts onlyCompareMetadata value next layout nextLayout = true) ∨
    (after.dependency reader = none ∧ invalidated.get? reader = map.dependency reader)

theorem compareValuesAndLayouts_symm {before after : Value} {layout otherLayout : Option Layout}
    (same : compareValuesAndLayouts onlyCompareMetadata before after layout otherLayout = true) :
    compareValuesAndLayouts onlyCompareMetadata after before otherLayout layout = true := by
  cases onlyCompareMetadata with
  | true =>
    simp only [compareValuesAndLayouts, if_true, beq_iff_eq] at same ⊢
    exact same.symm
  | false =>
    simp only [compareValuesAndLayouts, Bool.and_eq_true, beq_iff_eq,
      Bool.false_eq_true, if_false] at same ⊢
    exact ⟨⟨same.1.2, same.1.1⟩, same.2.symm⟩

/-- Affected readers read the new value; their dependencies go along or are handed back. -/
theorem writeV2_eq (placed : (orDefault slot).Placed)
    (later : ∀ content, (orDefault slot).content (shiftedTxnIndex txnIdx) =
      some content → content.1 < incarnation) :
    ∃ invalidated written, writeV2 onlyCompareMetadata slot txnIdx incarnation data layout =
        .ok (invalidated, written) ∧
      written.Placed ∧
      (∀ index, written.content index = if index = shiftedTxnIndex txnIdx then
          some (incarnation, .exchanged data layout, false)
        else (orDefault slot).content index) ∧
      ∀ reader, Follows onlyCompareMetadata (orDefault slot) written invalidated reader := by
  obtain ⟨affected, stillValid, kept, isSplit⟩ : ∃ affected stillValid kept,
    (orDefault slot).splitOffAffectedReadDependencies onlyCompareMetadata
      txnIdx data layout = (affected, stillValid, kept) := ⟨_, _, _, rfl⟩
  obtain ⟨keptPlaced, keptContent, unaffected, isAffected⟩ := splitOff_eq placed isSplit
  have checked : affected.checkLowestDependencyIdx txnIdx = .ok () := by
    apply checkLowestDependencyIdx_eq_ok
    intro reader present
    by_contra notLater
    rw [(unaffected reader (fun holds => notLater holds.1)).2] at present
    cases present
  have sameAffected (reader : Nat) : Affected kept txnIdx reader ↔
      Affected (orDefault slot) txnIdx reader := by
    rw [affected_iff_index, affected_iff_index]
    by_cases holds : Affected (orDefault slot) txnIdx reader
    · rw [(isAffected reader holds).1, map_map]
      rfl
    · rw [(unaffected reader holds).1]
  have noDependency : ∀ reader, Affected kept txnIdx reader → kept.dependency reader = none := by
    intro reader holds
    rw [dependency, (isAffected reader ((sameAffected reader).mp holds)).1]
    cases (orDefault slot).view reader <;> rfl
  let retained := if stillValid then affected else empty
  let returned := if stillValid then empty else affected
  let new : Entry Value Layout := newWriteEntry incarnation (.exchanged data layout) retained
  have written : writeV2 onlyCompareMetadata slot txnIdx incarnation data
      layout = .ok (returned, kept.insert (shiftedTxnIndex txnIdx) new) := by
    have inserted := writeImpl_eq (keptContent ▸ later) (.exchanged data layout) retained
    rw [writeV2, isSplit]
    cases stillValid <;>
      · simp only [checked, Except.mapError, ok_bind]
        exact bind_eq_ok.mpr ⟨_, inserted, rfl⟩
  have areAffected : ∀ reader, ¬ Affected kept txnIdx reader →
      new.dependencies.get? reader = none := by
    intro reader notAffected
    have absent := (unaffected reader
      (fun holds => notAffected ((sameAffected reader).mpr holds))).2
    cases stillValid with
    | false => rfl
    | true => exact absent
  obtain ⟨newPlaced, newView⟩ := insert_eq keptPlaced noDependency areAffected
  refine ⟨returned, _, written, newPlaced, ?_, fun reader => ?_⟩
  · intro index
    rw [content_insert, keptContent]
    rfl
  · by_cases holds : Affected (orDefault slot) txnIdx reader
    · obtain ⟨_, isDependency, valid⟩ := isAffected reader holds
      have isView := (newView reader).2 ((sameAffected reader).mpr holds)
      cases stillValid with
      | false => exact .inr (.inr ⟨by rw [dependency, isView]; rfl, isDependency⟩)
      | true =>
        obtain ⟨⟨index, _, registered⟩, value, seenLayout, wasSeen, rfl, same⟩ := valid rfl
        rw [dependency, wasSeen] at isDependency
        refine .inr (.inl ⟨index, value, seenLayout, shiftedTxnIndex txnIdx, data, layout,
          registered, wasSeen, isView.trans ?_, same⟩)
        rw [← show affected.get? reader = registered from isDependency]
        rfl
    · refine .inl (Eq.trans ?_ (unaffected reader holds).1)
      exact (newView reader).1 (mt (sameAffected reader).mp holds)

/-- Readers of the entry read the next lower one; their dependencies go along or are handed
back. -/
theorem removeV2_eq {map : VersionedValue Value Layout} {key : String}
    {removed : Entry Value Layout} (placed : map.Placed)
    (found : map.get? (shiftedTxnIndex txnIdx) = some removed)
    (isWrite : removed.valueWithLayout = .exchanged data layout) :
    ∃ invalidated remaining, removeV2 onlyCompareMetadata (some map) key txnIdx =
        .ok (invalidated, remaining) ∧
      remaining.Placed ∧
      (∀ index, remaining.content index =
        if index = shiftedTxnIndex txnIdx then none else map.content index) ∧
      ∀ reader, Follows onlyCompareMetadata map remaining invalidated reader := by
  let others : VersionedValue Value Layout := map.erase (shiftedTxnIndex txnIdx)
  have othersPlaced : Placed others := placed_erase placed _
  have othersView := view_erase placed (shiftedTxnIndex txnIdx)
  have isErased : others.get? (shiftedTxnIndex txnIdx) = none := by rw [get?_erase, if_pos rfl]
  have lowerLast : others.lastBelow (shiftedTxnIndex txnIdx + 1) =
      map.lastBelow (shiftedTxnIndex txnIdx) := by
    have wasLast : map.lastBelow (shiftedTxnIndex txnIdx + 1) =
        some (shiftedTxnIndex txnIdx, removed) := by
      apply lastBelow_eq_some_iff.mpr
      exact ⟨found, lt_succ_self _, fun _ _ less => le_of_lt_succ less⟩
    rw [lastBelow_erase, wasLast, map_some, if_pos rfl]
  have removedOf := get?_dependencies placed found
  have higher : ∀ index entry, others.lastBelow (shiftedTxnIndex txnIdx + 1) =
      some (index, entry) → ∀ reader highest, (entry.dependencies.get? highest).isSome →
          (removed.dependencies.get? reader).isSome → highest < reader := by
    intro index entry isLast reader highest isHighest isRegistered
    rw [lowerLast] at isLast
    obtain ⟨entryFound, isLess, _⟩ := lastBelow_eq_some_iff.mp isLast
    obtain ⟨_, registered⟩ := isSome_iff_exists.mp isRegistered
    obtain ⟨_, highestRegistered⟩ := isSome_iff_exists.mp isHighest
    have after := placed.index_le found registered
    have readsLower := placed index entry highest _ entryFound highestRegistered
    have greatest := (lastBelow_eq_some_iff.mp readsLower).2.2
      (shiftedTxnIndex txnIdx) (isSome_of_eq_some found)
    unfold shiftedTxnIndex at after greatest isLess
    omega
  have isRemoved : removeV2 onlyCompareMetadata (some map) key txnIdx =
      others.handleRemovedDependencies onlyCompareMetadata txnIdx
        removed.dependencies data layout := by
    simp only [removeV2, expect, ok_bind, found, isWrite]
    rfl
  rw [isRemoved]
  rcases handleRemovedDependencies_eq isErased higher with
    handedBack | ⟨index, entry, value, lowerLayout, isLast, isValue, same, moved⟩
  · refine ⟨_, _, handedBack, othersPlaced, fun _ => content_erase _ _, fun reader => ?_⟩
    by_cases wasRead : (map.view reader).map Prod.fst = some (shiftedTxnIndex txnIdx)
    · refine .inr (.inr ⟨?_, by rw [removedOf, if_pos wasRead]⟩)
      rw [dependency, othersView, if_pos wasRead]
      cases map.lastBelow (shiftedTxnIndex txnIdx) <;> rfl
    · exact .inl (by rw [othersView, if_neg wasRead])
  · have entryFound := (lastBelow_eq_some_iff.mp isLast).1
    have entryOf := get?_dependencies othersPlaced entryFound
    have disjoint : ∀ reader, (removed.dependencies.get? reader).isSome →
        entry.dependencies.get? reader = none := by
      intro reader isRegistered
      rw [eq_none_iff_forall_ne_some]
      intro incarnation registered
      exact (higher index entry isLast reader reader (isSome_of_eq_some registered)
        isRegistered).false
    have merged := get?_extendImpl disjoint
    rw [lowerLast] at isLast
    have lowerView {reader : Nat} (wasRead : (map.view reader).map Prod.fst =
        some (shiftedTxnIndex txnIdx)) :
        others.view reader = some (index, .exchanged value lowerLayout, none) := by
      rw [othersView, if_pos wasRead, isLast, map_some, isValue]
    refine ⟨_, _, moved, ?_, ?_, fun reader => ?_⟩
    · refine placed_replace othersPlaced entryFound fun reader incarnation registered => ?_
      simp only [merged, removedOf] at registered
      by_cases wasRead : (map.view reader).map Prod.fst = some (shiftedTxnIndex txnIdx)
      · obtain ⟨other, isOther, otherFound, _⟩ := exists_last_of_view (lowerView wasRead)
        rw [entryFound] at otherFound
        cases otherFound
        exact isOther
      · rw [if_neg wasRead, none_or] at registered
        exact othersPlaced index entry reader incarnation entryFound registered
    · intro other
      rw [content_register entryFound, content_erase]
    · by_cases wasRead : (map.view reader).map Prod.fst = some (shiftedTxnIndex txnIdx)
      · obtain ⟨⟨_, seenValue, registered⟩, seen, rfl⟩ := map_eq_some_iff.mp wasRead
        obtain ⟨other, _, isOther, isSeen⟩ := exists_last_of_view seen
        cases found.symm.trans isOther
        injection isSeen with _ isSeen
        injection isSeen with isData isRegistered
        have notRegistered : entry.dependencies.get? reader = none := by
          rw [entryOf, dependency, lowerView wasRead]
          simp
        refine .inr (.inl ⟨shiftedTxnIndex txnIdx, data, layout, index, value, lowerLayout,
          registered, ?_, ?_, compareValuesAndLayouts_symm same⟩)
        · rw [seen, isData, isWrite]
        · rw [view_replace (isSome_of_eq_some entryFound), lowerView wasRead]
          simp [merged, isRegistered, notRegistered, isValue]
      · left
        rw [view_register_of_same entryFound, othersView, if_neg wasRead]
        rw [merged, removedOf, if_neg wasRead, none_or]

end VersionedData

end LumioNode
