import LumioNode.MVHashMap.PushValidation

/-! # No stale reader is lost

The latest read of each transaction that was not handed back is registered where its
reader would read, and the value there is still valid. -/

namespace LumioNode

open Library TransactionWrite Option Function

namespace VersionedData

open VersionedValue

variable {Value Layout Metadata : Type} [TransactionWrite Value Metadata]

inductive Call (Value Layout : Type) where
  | setBaseValue (base : ValueWithLayout Value Layout)
  | fetch (txnIdx incarnation : Nat)
  | write (txnIdx incarnation : Nat) (data : Value) (layout : Option Layout)
  | remove (txnIdx : Nat)

structure Session (Value Layout : Type) where
  slot : Option (VersionedValue Value Layout)
  /-- The latest recorded read of a transaction, unless it was handed back. -/
  given : Nat → Option (Nat × ValueWithLayout Value Layout)
  lastRead : Nat → Option Nat
  lastWrite : Nat → Option Nat

namespace Session

def start : Session Value Layout := ⟨none, fun _ => none, fun _ => none, fun _ => none⟩

/-- The map of the key. -/
def map (session : Session Value Layout) : VersionedValue Value Layout := orDefault session.slot

/-- Reads that are handed back as invalidated are no longer tracked. -/
def handBack (invalidated : RegisteredReadDependencies)
    (given : Nat → Option (Nat × ValueWithLayout Value Layout)) :
    Nat → Option (Nat × ValueWithLayout Value Layout) :=
  fun reader => (given reader).filter fun read =>
    invalidated.get? reader ≠ some read.1

variable (onlyCompareMetadata : Bool) (key : String)

def perform [DecidableEq Value] [DecidableEq Metadata] (session : Session Value Layout) :
    Call Value Layout → Except Fault (Session Value Layout)
  | .setBaseValue base => do
      let map ← setBaseValue session.slot base
      return { session with slot := some map }
  | .fetch txnIdx incarnation => do
      let (result, slot) ← fetchDataAndRecordDependency session.slot txnIdx incarnation
      let lastRead := update session.lastRead txnIdx (some incarnation)
      match result with
      | .error _ => return { session with slot, lastRead }
      | .ok output => return { session with
          slot, lastRead
          given := update session.given txnIdx
            (some (incarnation, output.valueWithLayout)) }
  | .write txnIdx incarnation data layout => do
      let (invalidated, map) ← writeV2 onlyCompareMetadata session.slot txnIdx
        incarnation data layout
      return { session with
        slot := some map
        given := handBack invalidated session.given
        lastWrite := update session.lastWrite txnIdx (some incarnation) }
  | .remove txnIdx => do
      let (invalidated, map) ← removeV2 onlyCompareMetadata session.slot key txnIdx
      return { session with
        slot := some map
        given := handBack invalidated session.given }

/-- Base values of a key are forms of one storage value, raw or exchanged; an exchange with a
layout keeps the metadata. -/
def IsBaseValue (stored : Value) (hasLayout : Bool) : ValueWithLayout Value Layout → Prop
  | .rawFromStorage value => value = stored
  | .exchanged value layout => layout.isSome = hasLayout ∧
      asStateValueMetadata value = asStateValueMetadata stored ∧
      (layout = none → value = stored)

/-- Base values are forms of one storage value, incarnations increase, and only entries are
removed. -/
def Admissible (stored : Value) (hasLayout : Bool)
    (session : Session Value Layout) : Call Value Layout → Prop
  | .setBaseValue base => IsBaseValue stored hasLayout base
  | .fetch txnIdx incarnation =>
    ∀ last, session.lastRead txnIdx = some last → last ≤ incarnation
  | .write txnIdx incarnation _ _ =>
    ∀ last, session.lastWrite txnIdx = some last → last < incarnation
  | .remove txnIdx => (session.map.get? (shiftedTxnIndex txnIdx)).isSome

/-- In metadata mode the metadata is the same, otherwise the value, apart from a raw base value
that was exchanged with a layout. -/
def StillValid (index : Nat) (given now : ValueWithLayout Value Layout) : Prop :=
  if onlyCompareMetadata then
    asStateValueMetadata given.value = asStateValueMetadata now.value
  else given = now ∨ ∃ value, given = .rawFromStorage value ∧ (now = .exchanged value none ∨
      index = 0 ∧ ∃ exchanged layout, now = .exchanged exchanged (some layout))

/-- What holds after every call. -/
structure Tracks (stored : Value) (hasLayout : Bool) (session : Session Value Layout) : Prop where
  placed : session.map.Placed
  done : ∀ index content, session.map.content index = some content → content.2.2 = false
  base : ∀ content, session.map.content 0 = some content →
    content.1 = 0 ∧ IsBaseValue stored hasLayout content.2.1
  writes : ∀ txnIdx content, session.map.content (shiftedTxnIndex txnIdx) = some content →
      (∃ data layout, content.2.1 = .exchanged data layout) ∧
      ∃ last, session.lastWrite txnIdx = some last ∧ content.1 ≤ last
  recorded : ∀ reader incarnation, session.map.dependency reader = some incarnation →
      ∃ last, session.lastRead reader = some last ∧ incarnation ≤ last
  given : ∀ reader incarnation value, session.given reader = some (incarnation, value) →
      ∃ index now, session.map.view reader = some (index, now, some incarnation) ∧
        StillValid onlyCompareMetadata index value now

variable {stored : Value} {hasLayout : Bool} {session : Session Value Layout}

/-! ## Base values -/

section BaseValue

variable {base : ValueWithLayout Value Layout} (isBase : IsBaseValue stored hasLayout base)

include isBase

/-- A second base value passes the assertions and keeps the dependencies. -/
theorem exchangeBaseValue_eq {entry : Entry Value Layout} (isZero : entry.incarnation = 0)
    (isEntry : IsBaseValue stored hasLayout entry.valueWithLayout) (done : entry.flag = false) :
    ∃ value, exchangeBaseValue entry base = .ok (newWriteEntry 0 value entry.dependencies) ∧
      IsBaseValue stored hasLayout value ∧
      (entry.valueWithLayout = value ∨ (∃ raw, entry.valueWithLayout = .rawFromStorage raw) ∧
          ∃ exchanged layout, value = .exchanged exchanged layout) := by
  have same : entry = newWriteEntry 0 entry.valueWithLayout entry.dependencies := by
    rw [newWriteEntry, ← isZero, ← done]
  have kept : ∃ value, (Except.ok entry : Except Fault (Entry Value Layout)) =
        .ok (newWriteEntry 0 value entry.dependencies) ∧
      IsBaseValue stored hasLayout value ∧
      (entry.valueWithLayout = value ∨ (∃ raw, entry.valueWithLayout = .rawFromStorage raw) ∧
          ∃ exchanged layout, value = .exchanged exchanged layout) :=
    ⟨entry.valueWithLayout, congrArg Except.ok same, isEntry, .inl rfl⟩
  unfold exchangeBaseValue
  rw [ensure_of isZero, ok_bind]
  cases existing : entry.valueWithLayout with
  | rawFromStorage raw =>
    rw [existing] at isEntry kept
    cases base with
    | rawFromStorage value =>
      have sameLength : bytesLen value = bytesLen raw := by
        rw [show value = stored from isBase, show raw = stored from isEntry]
      simp only [ensure_of sameLength, ok_bind]
      exact kept
    | exchanged value layout =>
      exact ⟨.exchanged value layout, rfl, isBase, .inr ⟨⟨raw, rfl⟩, value, layout, rfl⟩⟩
  | exchanged present presentLayout =>
    rw [existing] at isEntry kept
    cases base with
    | rawFromStorage => exact kept
    | exchanged value layout =>
      have sameLayout : presentLayout.isSome = layout.isSome := by rw [isEntry.1, isBase.1]
      simp only [ensure_of sameLayout, ok_bind]
      cases presentLayout with
      | some => exact kept
      | none =>
        have noLayout : layout = none := by simpa using sameLayout
        have sameLength : bytesLen present = bytesLen value := by
          rw [isEntry.2.2 rfl, isBase.2.2 noLayout]
        simp only [isNone_none, if_true, ensure_of sameLength, ok_bind]
        exact kept

omit isBase [TransactionWrite Value Metadata] in
theorem lastBelow_insert_zero {map : VersionedValue Value Layout} (absent : map.get? 0 = none)
    (new : Entry Value Layout) (reader : Nat) :
    (map.insert 0 new).lastBelow (shiftedTxnIndex reader) =
      (map.lastBelow (shiftedTxnIndex reader)).or (some (0, new)) := by
  rw [SortedMap.lastBelow_insert]
  cases isLast : map.lastBelow (shiftedTxnIndex reader) with
  | none => simp [shiftedTxnIndex]
  | some last =>
    have found := (SortedMap.lastBelow_eq_some_iff.mp isLast).1
    have different : last.1 ≠ 0 := by
      intro isZero
      rw [isZero, absent] at found
      cases found
    rw [if_neg (fun holds => different (Nat.le_zero.mp (holds.2 last rfl))), some_or]

/-- A base value is read where nothing else is, and may replace another base value. -/
theorem setBaseValue_eq (placed : session.map.Placed)
    (present : ∀ content, session.map.content 0 = some content →
      content.1 = 0 ∧ IsBaseValue stored hasLayout content.2.1 ∧ content.2.2 = false) :
    ∃ map value, setBaseValue session.slot base = .ok map ∧ map.Placed ∧
      IsBaseValue stored hasLayout value ∧
      (∀ index, map.content index = if index = 0 then some (0, value, false)
        else session.map.content index) ∧
      (∀ reader, map.view reader = match session.map.view reader with
        | none => some (0, value, none)
        | some seen => some (if seen.1 = 0 then (0, value, seen.2.2) else seen)) ∧
      ∀ content, session.map.content 0 = some content →
        content.2.1 = value ∨ (∃ raw, content.2.1 = .rawFromStorage raw) ∧
          ∃ exchanged layout, value = .exchanged exchanged layout := by
  have isDefault : orDefault session.slot = session.map := rfl
  cases found : session.map.get? 0 with
  | none =>
    have lasts := lastBelow_insert_zero found (newWriteEntry 0 base SortedMap.empty)
    refine ⟨_, base, by rw [setBaseValue, isDefault, found]; rfl, ?_, isBase,
      fun index => content_insert index, ?_, ?_⟩
    · intro index entry reader incarnation isEntry registered
      rw [SortedMap.get?_insert] at isEntry
      split at isEntry
      · cases isEntry
        cases registered
      · rw [lasts, placed index entry reader incarnation isEntry registered, some_or]
    · intro reader
      rw [view, lasts]
      cases isView : session.map.view reader with
      | none =>
        rw [map_eq_none_iff.mp isView]
        rfl
      | some =>
        obtain ⟨entry, isLast, isEntry, isSeen⟩ := exists_last_of_view isView
        rw [isLast, some_or, map_some]
        grind
    · rw [content, found]
      rintro content ⟨⟩
  | some entry =>
    obtain ⟨isZero, isEntry, done⟩ := present _ (content_of_get found)
    obtain ⟨value, exchanged, isValue, isChange⟩ := exchangeBaseValue_eq isBase isZero isEntry done
    have made : setBaseValue session.slot base = .ok (session.map.insert 0
        (newWriteEntry 0 value entry.dependencies)) := by
      simp only [setBaseValue, isDefault, found, exchanged, ok_bind]
      rfl
    refine ⟨_, value, made, ?_, isValue, fun index => content_insert index, ?_, ?_⟩
    · exact placed_replace placed found fun reader incarnation registered =>
        placed 0 entry reader incarnation found registered
    · intro reader
      rw [view_replace (isSome_of_eq_some found)]
      cases isView : session.map.view reader with
      | none =>
        exact absurd (Nat.succ_pos reader) (SortedMap.lastBelow_eq_none_iff.mp
          (map_eq_none_iff.mp isView) 0 (isSome_of_eq_some found))
      | some =>
        obtain ⟨other, _, isOther, isSeen⟩ := exists_last_of_view isView
        rw [map_some]
        grind [newWriteEntry]
    · intro content isContent
      rw [content_of_get found] at isContent
      cases isContent
      exact isChange

end BaseValue

/-! ## Values that stay valid -/

variable {layout : Option Layout}

section Validity

variable {onlyCompareMetadata : Bool} {index : Nat} {given : ValueWithLayout Value Layout}

theorem StillValid.refl : StillValid onlyCompareMetadata index given given := by
  cases onlyCompareMetadata with
  | true => exact rfl
  | false => exact .inl rfl

theorem StillValid.exchange {raw exchanged : Value}
    (valid : StillValid onlyCompareMetadata 0 given (.rawFromStorage raw))
    (isRaw : IsBaseValue stored hasLayout (.rawFromStorage raw : ValueWithLayout Value Layout))
    (isExchanged : IsBaseValue stored hasLayout (.exchanged exchanged layout)) :
    StillValid onlyCompareMetadata 0 given (.exchanged exchanged layout) := by
  have isStored : raw = stored := isRaw
  cases onlyCompareMetadata with
  | true =>
    change asStateValueMetadata given.value = asStateValueMetadata raw at valid
    change asStateValueMetadata given.value = asStateValueMetadata exchanged
    rw [valid, isStored, isExchanged.2.1]
  | false =>
    right
    refine ⟨raw, ?_, ?_⟩
    · rcases valid with same | ⟨_, _, isNone | ⟨_, _, _, isSome⟩⟩
      · exact same
      · cases isNone
      · cases isSome
    · cases layout with
      | none =>
        left
        rw [isStored, isExchanged.2.2 rfl]
      | some present => exact .inr ⟨rfl, exchanged, present, rfl⟩

theorem StillValid.compare [DecidableEq Value] [DecidableEq Metadata] {other : Nat}
    {before after : Value} {otherLayout : Option Layout}
    (valid : StillValid onlyCompareMetadata index given (.exchanged before layout))
    (same : compareValuesAndLayouts onlyCompareMetadata before after layout otherLayout = true) :
    StillValid onlyCompareMetadata other given (.exchanged after otherLayout) := by
  cases onlyCompareMetadata with
  | true =>
    change asStateValueMetadata given.value = asStateValueMetadata before at valid
    change asStateValueMetadata given.value = asStateValueMetadata after
    rw [valid]
    simpa [compareValuesAndLayouts] using same
  | false =>
    have equal : (layout = none ∧ otherLayout = none) ∧ before = after := by
      simpa [compareValuesAndLayouts] using same
    obtain ⟨⟨rfl, rfl⟩, rfl⟩ := equal
    rcases valid with isSame | ⟨raw, isRaw, isNone | ⟨_, _, _, isSome⟩⟩
    · exact .inl isSame
    · exact .inr ⟨raw, isRaw, .inl isNone⟩
    · cases isSome

end Validity

/-! ## Every call keeps the tracked reads registered -/

section Calls

variable {onlyCompareMetadata : Bool} {key : String}
  (tracks : Tracks onlyCompareMetadata stored hasLayout session)

include tracks

theorem setBaseValue_tracks [DecidableEq Value] [DecidableEq Metadata]
    {base : ValueWithLayout Value Layout}
    (admissible : Admissible stored hasLayout session (.setBaseValue base)) :
    ∃ next, session.perform onlyCompareMetadata key (.setBaseValue base) = .ok next ∧
      Tracks onlyCompareMetadata stored hasLayout next := by
  obtain ⟨map, value, made, placed, isValue, isContent, isView, isChange⟩ :=
    setBaseValue_eq admissible tracks.placed fun content isContent =>
      ⟨(tracks.base content isContent).1, (tracks.base content isContent).2,
        tracks.done 0 content isContent⟩
  have sameDependency (reader : Nat) : map.dependency reader = session.map.dependency reader := by
    unfold dependency
    rw [isView]
    cases session.map.view reader with
    | none => rfl
    | some =>
      dsimp only [bind_some]
      split_ifs <;> rfl
  refine ⟨{ session with slot := some map }, by
    simp only [perform, made, ok_bind, pure_eq_ok], placed, ?_, ?_, ?_, ?_, ?_⟩
  · intro index content (found : map.content index = some content)
    have before := tracks.done index content
    grind
  · intro content (found : map.content 0 = some content)
    grind
  · intro txnIdx content (found : map.content (shiftedTxnIndex txnIdx) = some content)
    rw [isContent, if_neg (shiftedTxnIndex_ne_zero txnIdx)] at found
    exact tracks.writes txnIdx content found
  · intro reader incarnation (registered : map.dependency reader = some incarnation)
    rw [sameDependency] at registered
    exact tracks.recorded reader incarnation registered
  · intro reader incarnation read wasGiven
    obtain ⟨index, now, seen, valid⟩ := tracks.given reader incarnation read wasGiven
    have nowSeen := isView reader
    rw [seen] at nowSeen
    by_cases isZero : index = 0
    · subst isZero
      refine ⟨0, value, nowSeen, ?_⟩
      obtain ⟨content, found, isNow⟩ := content_of_view seen
      rcases isChange content found with same | ⟨⟨raw, isRaw⟩, exchanged, layout, rfl⟩
      · rwa [← same, isNow]
      · have wasBase := (tracks.base content found).2
        rw [← isNow, isRaw] at valid
        rw [isRaw] at wasBase
        exact valid.exchange wasBase isValue
    · exact ⟨index, now, nowSeen.trans (congrArg some (if_neg isZero)), valid⟩

variable {txnIdx incarnation : Nat}

theorem fetch_tracks [DecidableEq Value] [DecidableEq Metadata]
    (admissible : Admissible stored hasLayout session (.fetch txnIdx incarnation)) :
    ∃ next, session.perform onlyCompareMetadata key (.fetch txnIdx incarnation) = .ok next ∧
      Tracks onlyCompareMetadata stored hasLayout next := by
  have notLower : ∀ index value previous,
      session.map.view txnIdx = some (index, value, some previous) → previous ≤ incarnation := by
    intro index value previous seen
    obtain ⟨last, isLast, atMost⟩ := tracks.recorded txnIdx previous (by rw [dependency, seen]; rfl)
    exact le_trans atMost (admissible last isLast)
  have laterRead {reader previous : Nat} (different : reader ≠ txnIdx)
      (registered : session.map.dependency reader = some previous) :
      ∃ last, update session.lastRead txnIdx (some incarnation)
        reader = some last ∧ previous ≤ last := by
    rw [update_of_ne different]
    exact tracks.recorded reader previous registered
  rcases read_eq tracks.placed tracks.done notLower with
    ⟨noView, isRead⟩ | ⟨index, value, previous, version, recorded, seen,
      isRead, placed, sameContent, isView⟩
  · refine ⟨⟨session.slot, session.given, update session.lastRead
      txnIdx (some incarnation), session.lastWrite⟩, ?_, ?_⟩
    · have fetched : fetchDataAndRecordDependency session.slot txnIdx
          incarnation = .ok (.error .uninitialized, session.slot) := by
        unfold map orDefault at isRead
        cases isSlot : session.slot with
        | none => rfl
        | some =>
          rw [isSlot, getD_some] at isRead
          simp only [fetchDataAndRecordDependency, isRead, ok_bind, pure_eq_ok]
      simp only [perform, fetched, ok_bind]
      rfl
    · refine { tracks with recorded := ?_ }
      intro reader previous (registered : session.map.dependency reader = some previous)
      apply laterRead _ registered
      rintro rfl
      rw [dependency, noView] at registered
      cases registered
  · have sameContent (index : Nat) := congrFun sameContent index
    refine ⟨⟨some recorded, update session.given txnIdx
      (some (incarnation, value)), update session.lastRead txnIdx
        (some incarnation), session.lastWrite⟩, ?_, placed,
      fun other content found => tracks.done other content ((sameContent _).symm.trans found),
      fun content found => tracks.base content ((sameContent _).symm.trans found),
      fun writer content found => tracks.writes writer content ((sameContent _).symm.trans found),
      ?_, ?_⟩
    · have fetched : fetchDataAndRecordDependency session.slot txnIdx
          incarnation = .ok (.ok ⟨version, value⟩, some recorded) := by
        unfold map orDefault at isRead seen
        cases isSlot : session.slot with
        | none =>
          rw [isSlot] at seen
          cases seen
        | some =>
          rw [isSlot, getD_some] at isRead
          simp only [fetchDataAndRecordDependency, isRead, ok_bind, pure_eq_ok]
      simp only [perform, fetched, ok_bind]
      rfl
    · intro reader latest (registered : recorded.dependency reader = some latest)
      rw [dependency, isView] at registered
      split at registered
      · rename_i same
        cases registered
        exact ⟨incarnation, by simp [same], le_refl _⟩
      · rename_i different
        exact laterRead different registered
    · intro reader latest read wasGiven
      dsimp only at wasGiven
      change ∃ index now, recorded.view reader = _ ∧ _
      rw [isView]
      by_cases same : reader = txnIdx
      · rw [same, update_self] at wasGiven
        cases wasGiven
        exact ⟨index, value, if_pos same, StillValid.refl⟩
      · rw [update_of_ne same] at wasGiven
        rw [if_neg same]
        exact tracks.given reader latest read wasGiven

omit [TransactionWrite Value Metadata] tracks in
theorem dependency_of_view {map : VersionedValue Value Layout} {reader : Nat}
    {seen : Nat × ValueWithLayout Value Layout × Option Nat}
    (isSeen : map.view reader = some seen) : map.dependency reader = seen.2.2 := by
  rw [dependency, isSeen, bind_some]

/-- What the readers follow keeps them registered. -/
theorem follow_tracks [DecidableEq Value] [DecidableEq Metadata]
    {after : VersionedValue Value Layout} {invalidated : RegisteredReadDependencies}
    (follows : ∀ reader, Follows onlyCompareMetadata session.map after invalidated reader) :
    (∀ reader incarnation, after.dependency reader = some incarnation →
      ∃ last, session.lastRead reader = some last ∧ incarnation ≤ last) ∧
    ∀ reader incarnation value, handBack invalidated session.given reader =
        some (incarnation, value) →
      ∃ index now, after.view reader = some (index, now, some incarnation) ∧
        StillValid onlyCompareMetadata index value now := by
  constructor
  · intro reader latest registered
    apply tracks.recorded reader latest
    rcases follows reader with
      same | ⟨_, _, _, _, _, _, _, wasSeen, nowSeen, _⟩ | ⟨noDependency, _⟩
    · rw [dependency, same] at registered
      exact registered
    · rw [dependency_of_view nowSeen] at registered
      exact (dependency_of_view wasSeen).trans registered
    · rw [noDependency] at registered
      cases registered
  · intro reader latest read kept
    obtain ⟨wasGiven, notInvalidated⟩ := filter_eq_some_iff.mp kept
    replace notInvalidated : invalidated.get? reader ≠ some latest := by simpa using notInvalidated
    obtain ⟨index, now, seen, valid⟩ := tracks.given reader latest read wasGiven
    rcases follows reader with
      same | ⟨_, _, _, other, _, _, _, wasSeen, nowSeen, compared⟩ | ⟨_, isInvalidated⟩
    · exact ⟨index, now, same.trans seen, valid⟩
    · cases seen.symm.trans wasSeen
      exact ⟨other, _, nowSeen, valid.compare compared⟩
    · exact absurd (isInvalidated.trans (dependency_of_view seen)) notInvalidated

theorem write_tracks [DecidableEq Value] [DecidableEq Metadata] {data : Value}
    (admissible : Admissible stored hasLayout session (.write txnIdx incarnation data layout)) :
    ∃ next, session.perform onlyCompareMetadata key
        (.write txnIdx incarnation data layout) = .ok next ∧
      Tracks onlyCompareMetadata stored hasLayout next := by
  have later : ∀ content, session.map.content (shiftedTxnIndex txnIdx) =
      some content → content.1 < incarnation := by
    intro content found
    obtain ⟨_, last, isLast, atMost⟩ := tracks.writes txnIdx content found
    exact lt_of_le_of_lt atMost (admissible last isLast)
  obtain ⟨invalidated, written, isWritten, placed, isContent, follows⟩ :=
    @writeV2_eq _ _ _ _ _ _ onlyCompareMetadata session.slot txnIdx
      incarnation data layout tracks.placed later
  obtain ⟨recorded, given⟩ := follow_tracks tracks follows
  refine ⟨⟨some written, handBack invalidated session.given, session.lastRead,
    update session.lastWrite txnIdx (some incarnation)⟩, by
      simp only [perform, isWritten, ok_bind, pure_eq_ok], placed, ?_, ?_, ?_, recorded, given⟩
  · intro index content (found : written.content index = some content)
    have before : (orDefault session.slot).content index = _ → _ := tracks.done index content
    grind
  · intro content (found : written.content 0 = some content)
    rw [isContent, if_neg (shiftedTxnIndex_ne_zero txnIdx).symm] at found
    exact tracks.base content found
  · intro writer content (found : written.content (shiftedTxnIndex writer) = some content)
    rw [isContent] at found
    by_cases same : writer = txnIdx
    · rw [if_pos (by rw [same])] at found
      cases found
      exact ⟨⟨data, layout, rfl⟩, incarnation, by simp [same], le_refl _⟩
    · have different : shiftedTxnIndex writer ≠ shiftedTxnIndex txnIdx :=
        fun equal => same (Nat.succ_injective equal)
      rw [if_neg different] at found
      obtain ⟨isExchanged, last, isLast, atMost⟩ := tracks.writes writer content found
      exact ⟨isExchanged, last, by simp [same, isLast], atMost⟩

theorem remove_tracks [DecidableEq Value] [DecidableEq Metadata]
    (admissible : Admissible stored hasLayout session (.remove txnIdx)) :
    ∃ next, session.perform onlyCompareMetadata key (.remove txnIdx) = .ok next ∧
      Tracks onlyCompareMetadata stored hasLayout next := by
  obtain ⟨removed, found⟩ := isSome_iff_exists.mp admissible
  obtain ⟨⟨data, layout, isWrite⟩, _⟩ := tracks.writes txnIdx _ (content_of_get found)
  obtain ⟨present, isSlot⟩ : ∃ present, session.slot = some present := by
    cases isSlot : session.slot with
    | none =>
      rw [map, orDefault, isSlot] at found
      cases found
    | some present => exact ⟨present, rfl⟩
  have isMap : session.map = present := by
    rw [map, orDefault, isSlot]
    rfl
  obtain ⟨invalidated, remaining, isRemoved, placed, isContent, follows⟩ :=
    @removeV2_eq _ _ _ _ _ _ onlyCompareMetadata txnIdx data layout session.map
      key removed tracks.placed found isWrite
  have kept {index : Nat} {content : Nat × ValueWithLayout Value Layout × Bool}
      (isKept : remaining.content index = some content) :
      session.map.content index = some content := by
    rw [isContent] at isKept
    split_ifs at isKept
    exact isKept
  obtain ⟨recorded, given⟩ := follow_tracks tracks follows
  refine ⟨⟨some remaining, handBack invalidated session.given,
    session.lastRead, session.lastWrite⟩, by
      simp only [perform, isSlot, ← isMap, isRemoved, ok_bind, pure_eq_ok], placed,
    fun index content isKept => tracks.done index content (kept isKept),
    fun content isKept => tracks.base content (kept isKept),
    fun writer content isKept => tracks.writes writer content (kept isKept), recorded, given⟩

end Calls

theorem start_tracks (onlyCompareMetadata : Bool) (stored : Value) (hasLayout : Bool) :
    Tracks onlyCompareMetadata stored hasLayout (start : Session Value Layout) := by
  constructor
  · nofun
  · intro index content found
    cases found
  · nofun
  · intro txnIdx content found
    cases found
  · nofun
  · intro reader incarnation value wasGiven
    cases wasGiven

variable [DecidableEq Value] [DecidableEq Metadata]

theorem perform_tracks {onlyCompareMetadata : Bool} {key : String}
    (tracks : Tracks onlyCompareMetadata stored hasLayout session) {call : Call Value Layout}
    (admissible : Admissible stored hasLayout session call) :
    ∃ next, session.perform onlyCompareMetadata key call = .ok next ∧
      Tracks onlyCompareMetadata stored hasLayout next := by
  cases call with
  | setBaseValue => exact setBaseValue_tracks tracks admissible
  | fetch => exact fetch_tracks tracks admissible
  | write =>
    exact write_tracks tracks admissible
  | remove => exact remove_tracks tracks admissible

/-- No call of a run fails, and every tracked read is registered where its reader would read,
with a value that is still valid. -/
theorem tracked_reads_registered (onlyCompareMetadata : Bool) (key : String)
    (stored : Value) (hasLayout : Bool) (calls : List (Call Value Layout))
    (meets : RunMeets (perform onlyCompareMetadata key) (Admissible stored hasLayout) start calls) :
    ∃ session, runAll (perform onlyCompareMetadata key) start calls = .ok session ∧
      (∀ reader incarnation value, session.given reader = some (incarnation, value) →
          ∃ index now, session.map.view reader = some (index, now, some incarnation) ∧
            StillValid onlyCompareMetadata index value now) ∧
      ∀ index entry reader incarnation, session.map.get? index = some entry →
        entry.dependencies.get? reader = some incarnation →
          session.map.lastBelow (shiftedTxnIndex reader) = some (index, entry) ∧
          ∀ txnIdx, realTxnIndex index = some txnIdx → txnIdx < reader := by
  have outcome : (∃ failure, runAll (perform onlyCompareMetadata key) start
      calls = .error failure ∧ False) ∨ ∃ session,
        runAll (perform onlyCompareMetadata key) start calls = .ok session ∧
          Tracks onlyCompareMetadata stored hasLayout session := by
    apply meets.invariant (start_tracks onlyCompareMetadata stored hasLayout)
    intro before call _ tracks admissible
    exact .inr (perform_tracks tracks admissible)
  rcases outcome with ⟨_, _, impossible⟩ | ⟨session, ran, tracks⟩
  · exact impossible.elim
  · refine ⟨session, ran, tracks.given, ?_⟩
    intro index entry reader incarnation found registered
    have isLast := tracks.placed index entry reader incarnation found registered
    refine ⟨isLast, ?_⟩
    intro txnIdx isIndex
    have atMost := tracks.placed.index_le found registered
    unfold realTxnIndex at isIndex
    split_ifs at isIndex with positive
    rw [Option.some.injEq] at isIndex
    omega

namespace Toy

/-- Values of a given length. -/
structure Blob where
  length : Nat
deriving DecidableEq

instance : TransactionWrite Blob Unit where
  bytes blob := some (List.replicate blob.length 0)
  asStateValueMetadata _ := some ()

/-- A base value is read, and lower transactions write the same and another value. -/
def calls : List (Call Blob Unit) :=
  [.setBaseValue (.exchanged ⟨1⟩ none), .fetch 5 0, .write 1 0 ⟨1⟩ none,
    .fetch 3 0, .write 4 0 ⟨2⟩ none, .remove 1]

theorem calls_meet : RunMeets (perform false "key")
    (Admissible (⟨1⟩ : Blob) false) start calls := by
  refine RunMeets.cons rfl ⟨rfl, rfl, fun _ => rfl⟩ ?_
  refine RunMeets.cons rfl (fun last isLast => by cases isLast) ?_
  refine RunMeets.cons rfl (fun last isLast => by cases isLast) ?_
  refine RunMeets.cons rfl (fun last isLast => by cases isLast) ?_
  refine RunMeets.cons rfl (fun last isLast => by cases isLast) ?_
  exact RunMeets.cons rfl rfl trivial

/-- One reader was handed back; the other has moved down to the base value. -/
theorem calls_tracked : ∃ session, runAll (perform false "key") start calls = .ok session ∧
    session.given 5 = none ∧
    ∃ index now, session.map.view 3 = some (index, now, some 0) ∧
      StillValid false index (.exchanged ⟨1⟩ none) now := by
  obtain ⟨session, ran, registered, _⟩ := tracked_reads_registered false "key"
    (⟨1⟩ : Blob) false calls calls_meet
  refine ⟨session, ran, ?_, ?_⟩
  · cases ran
    rfl
  · apply registered
    cases ran
    rfl

/-- A reader keeps its dependency when its raw base value is exchanged for another; a base value
of another length and the removal of a missing entry fail assertions. -/
theorem base_value_exchanged_under_reader : (∃ session : Session Blob Unit,
      runAll (perform false "key") start [.setBaseValue (.rawFromStorage ⟨1⟩),
        .fetch 0 0, .setBaseValue (.exchanged ⟨2⟩ (some ()))] = .ok session ∧
      session.given 0 = some (0, .rawFromStorage ⟨1⟩) ∧
      session.map.view 0 = some (0, .exchanged ⟨2⟩ (some ()), some 0)) ∧
    (runAll (perform false "key") (start : Session Blob Unit) [.setBaseValue (.rawFromStorage ⟨1⟩),
        .setBaseValue (.rawFromStorage ⟨2⟩)]).toOption.isNone ∧
    ((start : Session Blob Unit).perform false "key" (.remove 0)).toOption.isNone :=
  ⟨⟨_, rfl, rfl, rfl⟩, rfl, rfl⟩

end Toy

end Session

end VersionedData

end LumioNode
