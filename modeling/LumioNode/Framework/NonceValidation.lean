import LumioNode.Framework.Move
import LumioNode.Library.Table
import Mathlib.Data.List.Induction
import Mathlib.Data.Prod.Lex

/-! # Nonces of orderless transactions

Pairs of sender and nonce are kept until some time after they expired, in two maps of
every bucket that agree. -/

namespace LumioNode.Framework

open Library SortedMap OrderedMap List

def numBuckets : Nat := 50000

def nonceReplayProtectionOverlapIntervalSecs : Nat := 65

def maxEntriesGarbageCollectedPerCall : Nat := 5

def eNonceHistoryDoesNotExist : Nat := 1001

def eTransactionExpirationTooFarInFuture : Nat := 1002

structure NonceKey where
  senderAddress : Nat
  nonce : Nat
deriving DecidableEq

structure NonceKeyWithExpTime where
  txnExpirationTime : Nat
  senderAddress : Nat
  nonce : Nat
deriving DecidableEq

def NonceKey.rank (key : NonceKey) : Nat ×ₗ Nat := toLex (key.senderAddress, key.nonce)

theorem NonceKey.rank_injective : Function.Injective NonceKey.rank := by
  rintro ⟨_, _⟩ ⟨_, _⟩ same
  simpa [rank] using same

instance : LinearOrder NonceKey := LinearOrder.lift' _ NonceKey.rank_injective

def NonceKeyWithExpTime.nonceKey (key : NonceKeyWithExpTime) : NonceKey :=
  ⟨key.senderAddress, key.nonce⟩

/-- The expiration time comes first. -/
def NonceKeyWithExpTime.rank (key : NonceKeyWithExpTime) : Nat ×ₗ Nat ×ₗ Nat :=
  toLex (key.txnExpirationTime, key.nonceKey.rank)

theorem NonceKeyWithExpTime.rank_injective : Function.Injective NonceKeyWithExpTime.rank := by
  rintro ⟨_, _, _⟩ ⟨_, _, _⟩ same
  simpa [rank, nonceKey, NonceKey.rank] using same

instance : LinearOrder NonceKeyWithExpTime := LinearOrder.lift' _ NonceKeyWithExpTime.rank_injective

def NonceKey.withExpTime (key : NonceKey) (txnExpirationTime : Nat) : NonceKeyWithExpTime :=
  ⟨txnExpirationTime, key.senderAddress, key.nonce⟩

structure Bucket where
  noncesOrderedByExpTime : SortedMap NonceKeyWithExpTime Bool
  nonceToExpTimeMap : SortedMap NonceKey Nat

def emptyBucket : Bucket := ⟨.empty, .empty⟩

structure NonceHistory where
  nonceTable : Table Nat Bucket
  nextKey : Nat

/-- Nothing happens when the history exists already. -/
def initializeNonceTable : Option NonceHistory → NonceHistory
  | none => ⟨∅, 0⟩
  | some history => history

namespace Bucket

/-- Collect up to some number of nonces that expired long enough ago. -/
def collect (currentTime : Nat) : Nat → Bucket → Except Abort Bucket
  | 0, bucket => .ok bucket
  | left + 1, bucket =>
    match bucket.noncesOrderedByExpTime.firstKey with
    | none => .ok bucket
    | some front => do
        let kept ← checked 64 (front.txnExpirationTime + nonceReplayProtectionOverlapIntervalSecs)
        if kept < currentTime then do
          let nonces ← remove bucket.nonceToExpTimeMap front.nonceKey
          collect currentTime left ⟨bucket.noncesOrderedByExpTime.erase front, nonces⟩
        else .ok bucket

def insert (bucket : Bucket) (currentTime : Nat) (key : NonceKey)
    (txnExpirationTime : Nat) : Except Abort Bucket := do
  let collected ← bucket.collect currentTime maxEntriesGarbageCollectedPerCall
  let ordered ← add collected.noncesOrderedByExpTime (key.withExpTime txnExpirationTime) true
  let nonces ← add collected.nonceToExpTimeMap key txnExpirationTime
  .ok ⟨ordered, nonces⟩

/-- What is done in the bucket of a pair; `false` when the pair is in use. -/
def checkAndInsert (bucket : Bucket) (currentTime : Nat) (key : NonceKey)
    (txnExpirationTime : Nat) : Except Abort (Bool × Bucket) :=
  match bucket.nonceToExpTimeMap.get? key with
  | some existingExpTime =>
    if currentTime ≤ existingExpTime then .ok (false, bucket)
    else do
      let kept ← checked 64 (existingExpTime + nonceReplayProtectionOverlapIntervalSecs)
      if txnExpirationTime ≤ kept then .ok (false, bucket)
      else do
        let nonces ← remove bucket.nonceToExpTimeMap key
        let ordered ← remove bucket.noncesOrderedByExpTime (key.withExpTime existingExpTime)
        let after ← insert ⟨ordered, nonces⟩ currentTime key txnExpirationTime
        .ok (true, after)
  | none => do
      let after ← bucket.insert currentTime key txnExpirationTime
      .ok (true, after)

end Bucket

/-- A call with the chain time at which it is made. -/
structure NonceCall where
  key : NonceKey
  txnExpirationTime : Nat
  nowMicroseconds : Fin (2 ^ 64)
deriving DecidableEq

def NonceCall.nowSeconds (call : NonceCall) : Nat := call.nowMicroseconds.val / 1000000

namespace NonceHistory

variable (sipHash : NonceKey → Nat)

def bucketIndex (key : NonceKey) : Nat := sipHash key % numBuckets

def checkAndInsertNonce (history : Option NonceHistory) (call : NonceCall) :
    Except Abort (Bool × NonceHistory) := do
  let history ← expect (.invalidState eNonceHistoryDoesNotExist) history
  let latest ← checked 64 (call.nowSeconds + nonceReplayProtectionOverlapIntervalSecs)
  ensure (call.txnExpirationTime ≤ latest) (.invalidArgument eTransactionExpirationTooFarInFuture)
  let index := bucketIndex sipHash call.key
  let bucket := (history.nonceTable.lookup index).getD emptyBucket
  let (accepted, after) ← bucket.checkAndInsert call.nowSeconds call.key call.txnExpirationTime
  .ok (accepted, { history with
    nonceTable := history.nonceTable.insert index after })

def addNonceBucket (history : NonceHistory) : NonceHistory := if history.nextKey ≤ numBuckets then
    { nonceTable := if history.nonceTable.lookup history.nextKey = none then
          history.nonceTable.insert history.nextKey emptyBucket
        else history.nonceTable
      nextKey := history.nextKey + 1 }
  else history

def addNonceBuckets (history : NonceHistory) (count : Nat) : NonceHistory :=
  addNonceBucket^[count] history

/-- What may happen to the history. -/
inductive Action where
  | checkAndInsertNonce (call : NonceCall)
  | addNonceBuckets (count : Nat)

def Action.call? : Action → Option NonceCall
  | .checkAndInsertNonce call => some call
  | .addNonceBuckets _ => none

/-- A history with the calls so far and their outcomes, the last one first. -/
structure Session where
  history : NonceHistory
  log : List (NonceCall × Except Abort Bool)

/-- An abort changes nothing. -/
def Session.perform (session : Session) : Action → Session
  | .checkAndInsertNonce call =>
    match checkAndInsertNonce sipHash (some session.history) call with
    | .ok (accepted, after) => ⟨after, (call, .ok accepted) :: session.log⟩
    | .error abort => ⟨session.history, (call, .error abort) :: session.log⟩
  | .addNonceBuckets count =>
    { session with history := session.history.addNonceBuckets count }

def Session.run (actions : List Action) : Session :=
  actions.foldl (perform sipHash) ⟨initializeNonceTable none, []⟩

end NonceHistory

namespace Bucket

/-- The expiration time under which a pair is stored. -/
def stored (bucket : Bucket) (key : NonceKey) : Option Nat := bucket.nonceToExpTimeMap.get? key

/-- Both maps describe the same entries, whose times leave room. -/
structure Sound (bucket : Bucket) : Prop where
  agree : ∀ key, (bucket.noncesOrderedByExpTime.get? key).isSome ↔
    bucket.stored key.nonceKey = some key.txnExpirationTime
  fits : ∀ key expTime, bucket.stored key = some expTime →
    expTime + nonceReplayProtectionOverlapIntervalSecs < 2 ^ 64

theorem sound_emptyBucket : emptyBucket.Sound :=
  ⟨by simp [emptyBucket, stored], by simp [emptyBucket, stored]⟩

variable {bucket : Bucket} {key : NonceKey} {expTime currentTime : Nat}

theorem withExpTime_eq_iff (other : NonceKeyWithExpTime) : other = key.withExpTime expTime ↔
    other.nonceKey = key ∧ other.txnExpirationTime = expTime := by
  constructor
  · rintro rfl
    exact ⟨rfl, rfl⟩
  · rintro ⟨rfl, rfl⟩
    rfl

variable (sound : bucket.Sound)

include sound

theorem Sound.erase (present : bucket.stored key = some expTime) :
    Sound ⟨bucket.noncesOrderedByExpTime.erase (key.withExpTime expTime),
      bucket.nonceToExpTimeMap.erase key⟩ := by
  constructor
  · intro other
    have agree := sound.agree other
    simp only [stored, get?_erase, withExpTime_eq_iff] at *
    grind
  · intro other otherTime found
    have fits := sound.fits other otherTime
    simp only [stored, get?_erase] at *
    grind

theorem Sound.add (absent : bucket.stored key = none)
    (fits : expTime + nonceReplayProtectionOverlapIntervalSecs < 2 ^ 64) :
    bucket.noncesOrderedByExpTime.get? (key.withExpTime expTime) = none ∧
      Sound ⟨bucket.noncesOrderedByExpTime.insert (key.withExpTime expTime) true,
        bucket.nonceToExpTimeMap.insert key expTime⟩ := by
  refine ⟨?_, ?_, ?_⟩
  · have agree := sound.agree (key.withExpTime expTime)
    rw [show (key.withExpTime expTime).nonceKey = key from rfl, absent] at agree
    simpa using agree
  · intro other
    have agree := sound.agree other
    simp only [stored, get?_insert, withExpTime_eq_iff] at *
    grind
  · intro other otherTime found
    have otherFits := sound.fits other otherTime
    simp only [stored, get?_insert] at *
    grind

theorem Sound.collect (currentTime left : Nat) :
    ∃ after, bucket.collect currentTime left = .ok after ∧ after.Sound ∧
      ∀ key, after.stored key = bucket.stored key ∨ after.stored key = none ∧
        ∃ old, bucket.stored key = some old ∧
          old + nonceReplayProtectionOverlapIntervalSecs < currentTime := by
  induction left generalizing bucket with
  | zero => exact ⟨bucket, rfl, sound, fun key => .inl rfl⟩
  | succ left inductionHypothesis =>
    unfold Bucket.collect
    split
    · exact ⟨bucket, rfl, sound, fun key => .inl rfl⟩
    · rename_i front isFront
      have present := (sound.agree front).mp (firstKey_eq_some isFront).1
      rw [checked_of (sound.fits _ _ present), ok_bind]
      split
      · rename_i isOld
        rw [remove_of present, ok_bind]
        obtain ⟨after, isAfter, afterSound, kept⟩ := inductionHypothesis (sound.erase present)
        refine ⟨after, isAfter, afterSound, ?_⟩
        intro key
        simp only [stored, get?_erase] at *
        grind
      · exact ⟨bucket, rfl, sound, fun key => .inl rfl⟩

/-- What a call does to the stored expiration times. -/
structure Checked (currentTime : Nat) (key : NonceKey) (expTime : Nat)
    (before : NonceKey → Option Nat) (accepted : Bool) (after : NonceKey → Option Nat) : Prop where
  isNew : before key = none → accepted = true
  apart : accepted = true → ∀ existing, before key = some existing →
    existing < currentTime ∧ existing + nonceReplayProtectionOverlapIntervalSecs < expTime
  isStored : accepted = true → after key = some expTime
  kept : ∀ other old, before other = some old → after other = some old ∨
    old + nonceReplayProtectionOverlapIntervalSecs < currentTime ∨ accepted = true ∧ other = key
  origin : ∀ other found, after other = some found →
    before other = some found ∨ accepted = true ∧ other = key

theorem Sound.insert (absent : bucket.stored key = none)
    (fits : expTime + nonceReplayProtectionOverlapIntervalSecs < 2 ^ 64) (currentTime : Nat) :
    ∃ after, bucket.insert currentTime key expTime = .ok after ∧ after.Sound ∧
      Checked currentTime key expTime bucket.stored true after.stored := by
  obtain ⟨collected, isCollected, collectedSound, kept⟩ :=
    sound.collect currentTime maxEntriesGarbageCollectedPerCall
  have stillAbsent : collected.stored key = none := by grind
  obtain ⟨free, added⟩ := collectedSound.add stillAbsent fits
  refine ⟨⟨_, _⟩, ?_, added, fun _ => rfl, by simp [absent], ?_, ?_, ?_⟩
  · simp only [Bucket.insert, isCollected, ok_bind, add_of free, add_of stillAbsent]
  · intro _
    simp [stored, get?_insert]
  · intro other old isOld
    simp only [stored, get?_insert] at *
    grind
  · intro other found isFound
    simp only [stored, get?_insert] at *
    grind

theorem Sound.checkAndInsert (currentTime : Nat) (key : NonceKey)
    (fits : expTime + nonceReplayProtectionOverlapIntervalSecs < 2 ^ 64) :
    ∃ accepted after, bucket.checkAndInsert currentTime key expTime = .ok (accepted, after) ∧
      after.Sound ∧ Checked currentTime key expTime bucket.stored accepted after.stored := by
  have refused (existing : Nat) (present : bucket.stored key = some existing) :
      Checked currentTime key expTime bucket.stored false bucket.stored :=
    ⟨by simp [present], by simp, by simp, fun _ _ isOld => .inl isOld,
      fun _ _ isFound => .inl isFound⟩
  unfold Bucket.checkAndInsert
  split
  · rename_i existing present
    split
    · exact ⟨false, bucket, rfl, sound, refused existing present⟩
    rw [checked_of (sound.fits key existing present), ok_bind]
    split
    · exact ⟨false, bucket, rfl, sound, refused existing present⟩
    have inOrdered := (sound.agree (key.withExpTime existing)).mpr present
    obtain ⟨_, isOrdered⟩ := Option.isSome_iff_exists.mp inOrdered
    have erased := sound.erase present
    obtain ⟨after, inserted, afterSound, done⟩ := erased.insert
      (show stored _ key = none by simp [stored, get?_erase]) fits currentTime
    rw [remove_of present, ok_bind, remove_of isOrdered, ok_bind, inserted]
    refine ⟨true, after, rfl, afterSound, fun _ => rfl, ?_, done.isStored, ?_, ?_⟩
    · intro _ other isOther
      cases present.symm.trans isOther
      omega
    · intro other old isOld
      have isKept := done.kept other old
      simp only [stored, get?_erase] at *
      grind
    · intro other found isFound
      have isOrigin := done.origin other found isFound
      simp only [stored, get?_erase] at *
      grind
  · rename_i absent
    obtain ⟨after, inserted, afterSound, done⟩ := sound.insert absent fits currentTime
    rw [inserted]
    exact ⟨true, after, rfl, afterSound, done⟩

end Bucket

namespace NonceHistory

variable {sipHash : NonceKey → Nat}

/-- The expiration time under which the history stores a pair. -/
def stored (sipHash : NonceKey → Nat) (history : NonceHistory) (key : NonceKey) : Option Nat :=
  (history.nonceTable.lookup (bucketIndex sipHash key)).bind (·.stored key)

def Sound (history : NonceHistory) : Prop :=
  ∀ index bucket, history.nonceTable.lookup index = some bucket → bucket.Sound

/-- Prefilling adds empty buckets only. -/
theorem addNonceBuckets_spec (sipHash : NonceKey → Nat) (history : NonceHistory)
    (sound : history.Sound) (count : Nat) : (history.addNonceBuckets count).Sound ∧
      ∀ key, (history.addNonceBuckets count).stored sipHash key = history.stored sipHash key := by
  induction count generalizing history with
  | zero => exact ⟨sound, fun key => rfl⟩
  | succ count inductionHypothesis =>
    have one : history.addNonceBucket.Sound ∧ ∀ key, history.addNonceBucket.stored sipHash key =
        history.stored sipHash key := by
      unfold addNonceBucket Sound stored
      split
      case isFalse => exact ⟨sound, fun key => rfl⟩
      split
      case isFalse => exact ⟨sound, fun key => rfl⟩
      rename_i isFree
      simp only [Table.lookup_insert_eq]
      refine ⟨?_, ?_⟩
      · intro index bucket found
        have others := sound index bucket
        have empty := Bucket.sound_emptyBucket
        grind
      · intro key
        split
        · rename_i isNext
          rw [isNext, isFree]
          rfl
        · rfl
    have rest := inductionHypothesis history.addNonceBucket one.1
    exact ⟨rest.1, fun key => (rest.2 key).trans (one.2 key)⟩

/-- The outcome of a call after the calls before it. -/
structure Justified (before : List (NonceCall × Except Abort Bool))
    (call : NonceCall) (outcome : Except Abort Bool) : Prop where
  apart : outcome = .ok true → ∀ earlier, (earlier, .ok true) ∈ before → earlier.key = call.key →
      earlier.txnExpirationTime + nonceReplayProtectionOverlapIntervalSecs <
          call.txnExpirationTime ∧
        earlier.txnExpirationTime < call.nowSeconds
  isNew : (∀ earlier, (earlier, .ok true) ∈ before → earlier.key ≠ call.key) →
    call.txnExpirationTime ≤ call.nowSeconds + nonceReplayProtectionOverlapIntervalSecs →
    outcome = .ok true
  abort : ∀ abort, outcome = .error abort →
    abort = .invalidArgument eTransactionExpirationTooFarInFuture ∧
      call.nowSeconds + nonceReplayProtectionOverlapIntervalSecs < call.txnExpirationTime

def bucketOf (history : NonceHistory) (index : Nat) : Bucket :=
  (history.nonceTable.lookup index).getD emptyBucket

section Bucket

variable {history : NonceHistory} (sound : history.Sound)

include sound

theorem Sound.bucketOf (index : Nat) : (history.bucketOf index).Sound := by
  unfold NonceHistory.bucketOf
  cases found : history.nonceTable.lookup index with
  | none => exact Bucket.sound_emptyBucket
  | some bucket => exact sound index bucket found

omit sound in
theorem stored_eq (sipHash : NonceKey → Nat) (history : NonceHistory) (key : NonceKey) :
    history.stored sipHash key =
    (history.bucketOf (bucketIndex sipHash key)).stored key := by
  unfold stored bucketOf
  cases history.nonceTable.lookup (bucketIndex sipHash key) <;> rfl

theorem Sound.setBucket {currentTime expTime index : Nat} {key : NonceKey} {accepted : Bool}
    {after : Bucket} (afterSound : after.Sound) (isIndex : bucketIndex sipHash key = index)
    (done : Bucket.Checked currentTime key expTime (history.bucketOf index).stored accepted
      after.stored) (nextKey : Nat) :
    Sound ⟨history.nonceTable.insert index after, nextKey⟩ ∧
      Bucket.Checked currentTime key expTime (history.stored sipHash) accepted
        (stored sipHash ⟨history.nonceTable.insert index after, nextKey⟩) := by
  have afterStored (other : NonceKey) :
      stored sipHash ⟨history.nonceTable.insert index after, nextKey⟩ other =
        if bucketIndex sipHash other = index then after.stored other
        else history.stored sipHash other := by
    simp only [stored, Table.lookup_insert_eq]
    split <;> rfl
  refine ⟨?_, ?_, ?_, ?_, ?_, ?_⟩
  · intro other bucket found
    have others := sound other bucket
    simp only [Table.lookup_insert_eq] at found
    grind
  · rw [stored_eq, isIndex]
    exact done.isNew
  · rw [stored_eq, isIndex]
    exact done.apart
  · rw [afterStored, if_pos isIndex]
    exact done.isStored
  · intro other old isOld
    have isKept := done.kept other old
    have isStored := stored_eq sipHash history other
    grind
  · intro other found isFound
    have isOrigin := done.origin other found
    have isStored := stored_eq sipHash history other
    grind

theorem Sound.checkAndInsertNonce (sipHash : NonceKey → Nat) (call : NonceCall) :
    (call.nowSeconds + nonceReplayProtectionOverlapIntervalSecs < call.txnExpirationTime ∧
      checkAndInsertNonce sipHash (some history) call =
        .error (.invalidArgument eTransactionExpirationTooFarInFuture)) ∨
    ∃ accepted after, checkAndInsertNonce sipHash (some history) call = .ok (accepted, after) ∧
      after.Sound ∧ Bucket.Checked call.nowSeconds call.key call.txnExpirationTime
        (history.stored sipHash) accepted (after.stored sipHash) := by
  have fits : call.nowSeconds + nonceReplayProtectionOverlapIntervalSecs +
      nonceReplayProtectionOverlapIntervalSecs < 2 ^ 64 := by
    unfold NonceCall.nowSeconds nonceReplayProtectionOverlapIntervalSecs
    omega
  simp only [NonceHistory.checkAndInsertNonce, expect, ok_bind,
    checked_of (Nat.lt_of_add_right_lt fits)]
  by_cases inTime : call.txnExpirationTime ≤
      call.nowSeconds + nonceReplayProtectionOverlapIntervalSecs
  · refine .inr ?_
    obtain ⟨accepted, after, inserted, afterSound, done⟩ :=
      (sound.bucketOf (bucketIndex sipHash call.key)).checkAndInsert call.nowSeconds call.key
        ((Nat.add_le_add_right inTime _).trans_lt fits)
    rw [ensure_of inTime, ok_bind]
    unfold NonceHistory.bucketOf at inserted
    rw [inserted]
    exact ⟨accepted, _, rfl, sound.setBucket afterSound rfl done history.nextKey⟩
  · refine .inl ⟨not_le.mp inTime, ?_⟩
    rw [ensure, if_neg inTime]
    rfl

end Bucket

namespace Session

/-- An accepted pair is stored until a call comes after its expiration and the interval. -/
structure Facts (sipHash : NonceKey → Nat) (session : Session) : Prop where
  sound : session.history.Sound
  origin : ∀ key expTime, session.history.stored sipHash key = some expTime →
    ∃ call, (call, .ok true) ∈ session.log ∧ call.key = key
  kept : ∀ call, (call, .ok true) ∈ session.log →
    (∃ expTime, session.history.stored sipHash call.key = some expTime ∧
        call.txnExpirationTime ≤ expTime) ∨
      ∃ entry ∈ session.log, call.txnExpirationTime +
        nonceReplayProtectionOverlapIntervalSecs < entry.1.nowSeconds
  justified : ∀ later call outcome before, session.log = later ++ (call, outcome) :: before →
    Justified before call outcome

variable {session : Session}

section

variable (facts : session.Facts sipHash)

include facts

theorem Facts.log_cons {call : NonceCall}
    {outcome : Except Abort Bool} (isNew : Justified session.log call outcome)
    (later : List (NonceCall × Except Abort Bool)) (other : NonceCall)
    (result : Except Abort Bool) (before : List (NonceCall × Except Abort Bool))
    (isSplit : (call, outcome) :: session.log = later ++ (other, result) :: before) :
    Justified before other result := by
  cases later with
  | nil =>
    cases isSplit
    exact isNew
  | cons head rest =>
    exact facts.justified rest other result before (List.cons.inj isSplit).2

theorem Facts.call {call : NonceCall}
    (forward : ∀ entry ∈ session.log, entry.1.nowMicroseconds ≤ call.nowMicroseconds)
    (unexpired : call.nowSeconds ≤ call.txnExpirationTime) :
    (session.perform sipHash (.checkAndInsertNonce call)).Facts sipHash := by
  have seconds (entry : NonceCall × Except Abort Bool) (member : entry ∈ session.log) :
      entry.1.nowSeconds ≤ call.nowSeconds :=
    Nat.div_le_div_right (forward entry member)
  simp only [perform]
  rcases facts.sound.checkAndInsertNonce sipHash call with
    ⟨isFar, refused⟩ | ⟨accepted, after, answered, afterSound, done⟩
  · rw [refused]
    refine ⟨facts.sound, ?_, ?_, facts.log_cons ⟨by simp, ?_, ?_⟩⟩
    · intro key expTime isStored
      have isOrigin := facts.origin key expTime isStored
      grind
    · intro other isAccepted
      have isKept := facts.kept other
      grind
    · exact fun _ inTime => absurd inTime isFar.not_ge
    · intro abort isAbort
      cases isAbort
      exact ⟨rfl, isFar⟩
  · rw [answered]
    refine ⟨afterSound, ?_, ?_, facts.log_cons ⟨?_, ?_, by simp⟩⟩
    · intro key expTime isStored
      rcases done.origin key expTime isStored with wasStored | ⟨isAccepted, isKey⟩
      · obtain ⟨other, inLog, isKey⟩ := facts.origin key expTime wasStored
        exact ⟨other, mem_cons_of_mem _ inLog, isKey⟩
      · exact ⟨call, isAccepted ▸ mem_cons_self, isKey.symm⟩
    · intro other isOther
      have wasKept := facts.kept other
      have isKept := done.kept other.key
      have isStored := done.isStored
      have isApart := done.apart
      rcases mem_cons.mp isOther with isCall | inLog
      · grind
      · rcases wasKept inLog with ⟨expTime, wasStored, atMost⟩ | ⟨entry, inEntries, isPast⟩
        · rcases isKept expTime wasStored with stillStored | isPast | ⟨isAccepted, sameKey⟩
          · exact .inl ⟨expTime, stillStored, atMost⟩
          · exact .inr ⟨_, mem_cons_self, by dsimp only; omega⟩
          · have isLater := (isApart isAccepted expTime (sameKey ▸ wasStored)).2
            exact .inl ⟨_, sameKey ▸ isStored isAccepted, by omega⟩
        · exact .inr ⟨entry, mem_cons_of_mem _ inEntries, isPast⟩
    · intro isAccepted earlier inLog sameKey
      cases isAccepted
      rcases facts.kept earlier inLog with ⟨expTime, wasStored, atMost⟩ | ⟨entry, inEntries, isPast⟩
      · have isApart := done.apart rfl expTime (sameKey ▸ wasStored)
        omega
      · have isBefore := seconds entry inEntries
        omega
    · intro isFresh _
      refine congrArg _ (done.isNew ?_)
      by_contra isStored
      obtain ⟨expTime, isExpTime⟩ := Option.ne_none_iff_exists'.mp isStored
      obtain ⟨other, inLog, sameKey⟩ := facts.origin call.key expTime isExpTime
      exact isFresh other inLog sameKey

theorem Facts.addNonceBuckets (count : Nat) :
    (session.perform sipHash (.addNonceBuckets count)).Facts sipHash := by
  have added := addNonceBuckets_spec sipHash session.history facts.sound count
  refine ⟨added.1, ?_, ?_, facts.justified⟩
  · intro key expTime isStored
    exact facts.origin key expTime ((added.2 key).symm.trans isStored)
  · intro call inLog
    rw [show (session.perform sipHash (.addNonceBuckets count)).history.stored sipHash call.key =
      session.history.stored sipHash call.key from added.2 call.key]
    exact facts.kept call inLog

end

theorem log_run (actions : List Action) :
    ∀ entry ∈ (run sipHash actions).log, .checkAndInsertNonce entry.1 ∈ actions := by
  induction actions using List.reverseRecOn with
  | nil => simp [run]
  | append_singleton before action inductionHypothesis =>
    intro entry inLog
    rw [run, foldl_append, ← run] at inLog
    simp only [foldl_cons, foldl_nil] at inLog
    cases action with
    | checkAndInsertNonce =>
      simp only [perform] at inLog
      split at inLog <;> grind
    | addNonceBuckets =>
      exact mem_append_left _ (inductionHypothesis entry inLog)

theorem run_facts {actions : List Action}
    (forward : (actions.filterMap Action.call?).Pairwise fun earlier later =>
      earlier.nowMicroseconds ≤ later.nowMicroseconds)
    (unexpired : ∀ call ∈ actions.filterMap Action.call?,
      call.nowSeconds ≤ call.txnExpirationTime) :
    (run sipHash actions).Facts sipHash := by
  induction actions using List.reverseRecOn with
  | nil =>
    refine ⟨?_, ?_, by simp [run], by simp [run]⟩
    · nofun
    · intro key expTime isStored
      cases isStored
  | append_singleton before action inductionHypothesis =>
    rw [filterMap_append] at forward unexpired
    obtain ⟨beforeForward, -, isLast⟩ := pairwise_append.mp forward
    have facts := inductionHypothesis beforeForward fun call member =>
      unexpired call (mem_append_left _ member)
    rw [run, foldl_append, ← run]
    cases action with
    | checkAndInsertNonce call =>
      refine facts.call ?_ (unexpired call (mem_append_right _ (by simp [Action.call?])))
      intro entry inLog
      refine isLast entry.1 (mem_filterMap.mpr ?_) call (by simp [Action.call?])
      exact ⟨_, log_run before entry inLog, rfl⟩
    | addNonceBuckets count => exact facts.addNonceBuckets count

end Session

/-- Accepted calls of one sender and nonce are more than the interval apart, the later one after
the earlier expired; a new pair is accepted; only expirations too far ahead abort; and the maps
of a bucket agree. -/
theorem accepted_once {actions : List Action}
    (forward : (actions.filterMap Action.call?).Pairwise fun earlier later =>
      earlier.nowMicroseconds ≤ later.nowMicroseconds)
    (unexpired : ∀ call ∈ actions.filterMap Action.call?,
      call.nowSeconds ≤ call.txnExpirationTime) : (∀ later call outcome before,
      (Session.run sipHash actions).log = later ++ (call, outcome) :: before →
        Justified before call outcome) ∧
      ∀ index bucket, (Session.run sipHash actions).history.nonceTable.lookup index = some bucket →
        ∀ key, (bucket.noncesOrderedByExpTime.get? key).isSome ↔
          bucket.nonceToExpTimeMap.get? key.nonceKey = some key.txnExpirationTime :=
  have facts : (Session.run sipHash actions).Facts sipHash := Session.run_facts forward unexpired
  ⟨facts.justified, fun index bucket found => (facts.sound index bucket found).agree⟩

/-- The pair is refused until it expired long enough ago. -/
theorem accepted_again :
    let call (expTime now : Nat) : NonceCall := ⟨⟨1, 2⟩, expTime, Fin.ofNat _ (now * 1000000)⟩
    let log := (Session.run (fun _ => 0) [.checkAndInsertNonce (call 60 10), .addNonceBuckets 2,
      .checkAndInsertNonce (call 90 50), .checkAndInsertNonce (call 140 100)]).log
    log.map Prod.snd = [.ok true, .ok false, .ok true] ∧
      ∀ later call outcome before, log = later ++ (call, outcome) :: before →
        Justified before call outcome :=
  ⟨by decide, (accepted_once (by decide) (by decide)).1⟩

end NonceHistory

end LumioNode.Framework
