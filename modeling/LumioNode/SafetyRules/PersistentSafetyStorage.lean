import LumioNode.ConsensusTypes.Vote
import LumioNode.Library.Guarded

/-! # The persistent store of the safety rules

Every access consumes one `StorageOutcome`: it may fail, and a write that reports a
failure may have reached the disk. -/

namespace LumioNode

open Library

inductive SafetyError where
  | incorrectEpoch (provided expected : Nat)
  | incorrectRound (round : Nat)
  | incorrectLastVotedRound (provided lastVoted : Nat)
  | incorrectPreferredRound (provided preferred : Nat)
  | invalidAccumulatorExtension (reason : String)
  | invalidEpochChangeProof (reason : String)
  | internalError (reason : String)
  | invalidLedgerInfo
  | invalidProposal (reason : String)
  | invalidQuorumCertificate (reason : String)
  | notInitialized (field : String)
  | notSafeForOrderVote (round highestTimeoutRound : Nat)
  | secureStorageMissingDataError (reason : String)
  | secureStorageUnexpectedError (reason : String)
  | serializationError (reason : String)
  | validatorKeyNotFound (reason : String)
  | validatorNotInSet (author : AccountAddress)
  | notSafeToVote (round qcRound tcRound hqcRound : Nat)
  | notSafeToTimeout (round qcRound tcRound oneChainRound : Nat)
  | invalidTimeoutCertificate (reason : String)
  | waypointOutOfDate (previous updated : Nat) (current provided : Nat)
  | invalidTimeout (reason : String)
  | invalidOneChainQuorumCertificate (certified block : HashValue)
deriving DecidableEq

/-- Errors of the secure storage that do not panic. -/
inductive StorageError where
  | keyNotSet (key : String)
  | keyVersionNotFound (key version : String)
  | other (message : String)
deriving DecidableEq

namespace StorageError

def message : StorageError → String
  | keyNotSet key => "Key not set: " ++ key
  | keyVersionNotFound key version =>
    "Key version not found, key name: " ++ key ++ ", version: " ++ version
  | other message => message

def toSafetyError (error : StorageError) : SafetyError := match error with
  | keyNotSet _ | keyVersionNotFound _ _ =>
    .secureStorageMissingDataError error.message
  | other _ => .secureStorageUnexpectedError error.message

end StorageError

/-- What one access to the internal store does. -/
inductive StorageOutcome where
  | completed
  | failed (error : StorageError)
  | appliedThenFailed (error : StorageError)
deriving DecidableEq

/-- The values under `SAFETY_DATA`, `WAYPOINT`, `OWNER_ACCOUNT`, `CONSENSUS_KEY` and the keys. -/
structure InternalStore where
  safetyData : Option SafetyData
  waypoint : Option Waypoint
  ownerAccount : Option Author
  consensusKey : Option PrivateKey
  explicitKey : PublicKey → Option PrivateKey

structure PersistentSafetyStorage where
  enableCachedSafetyData : Bool
  cachedSafetyData : Option SafetyData
  internalStore : InternalStore

structure SafetyRules where
  persistentStorage : PersistentSafetyStorage
  validatorSigner : Option ValidatorSigner
  epochState : Option EpochState
  skipSigVerify : Bool

/-- `SafetyRules::new` over `PersistentSafetyStorage::new` on an existing store. -/
def SafetyRules.restarted (store : InternalStore)
    (enableCachedSafetyData skipSigVerify : Bool) : SafetyRules where
  persistentStorage := ⟨enableCachedSafetyData, none, store⟩
  validatorSigner := none
  epochState := none
  skipSigVerify := skipSigVerify

/-- The rules, the outcomes of the storage accesses still to come, and the local time. -/
structure Session where
  rules : SafetyRules
  outcomes : List StorageOutcome
  currentTs : Nat

abbrev SafetyM := Guarded Session SafetyError

namespace Session

abbrev store (session : Session) : InternalStore := session.rules.persistentStorage.internalStore

def setStore (session : Session) (store : InternalStore) : Session :=
  { session with
    rules.persistentStorage.internalStore := store }

def setCache (session : Session) (cache : Option SafetyData) : Session :=
  { session with
    rules.persistentStorage.cachedSafetyData := cache }

end Session

namespace PersistentSafetyStorage

def nextOutcome : Guarded Session StorageError StorageOutcome := do
  let session ← get
  modify fun session => { session with outcomes := session.outcomes.tail }
  pure (session.outcomes.head?.getD .completed)

def fetch {α : Type} (key : String) (value : InternalStore → Option α) :
    Guarded Session StorageError α := do
  let outcome ← nextOutcome
  let session ← get
  match outcome with
  | .completed =>
    match value session.store with
    | some found => pure found
    | none => throw (.keyNotSet key)
  | .failed error | .appliedThenFailed error => throw error

def put (update : InternalStore → InternalStore) : Guarded Session StorageError Unit := do
  let outcome ← nextOutcome
  match outcome with
  | .completed => modify fun session => session.setStore (update session.store)
  | .failed error => throw error
  | .appliedThenFailed error => do
      modify fun session => session.setStore (update session.store)
      throw error

/-- The operator `?` on a storage result. -/
def orThrow {α : Type} (program : Guarded Session StorageError α) : SafetyM α :=
  program.rename StorageError.toSafetyError

def author : SafetyM Author := orThrow (fetch "owner_account" InternalStore.ownerAccount)

def waypoint : SafetyM Waypoint := orThrow (fetch "waypoint" InternalStore.waypoint)

def setWaypoint (waypoint : Waypoint) : SafetyM Unit :=
  orThrow (put fun store => { store with waypoint := some waypoint })

/-- Without the cache the source reads at the type `Result<SafetyData, Error>`, which fails
there; the model also admits that it returns the stored value. -/
def safetyData : SafetyM SafetyData := do
  let session ← get
  if session.rules.persistentStorage.enableCachedSafetyData then
    match session.rules.persistentStorage.cachedSafetyData with
    | some cached => pure cached
    | none => do
        let data ← orThrow (fetch "safety_data" InternalStore.safetyData)
        modify fun session => session.setCache (some data)
        pure data
  else orThrow (fetch "safety_data" InternalStore.safetyData)

/-- A failed write drops the cached copy. -/
def setSafetyData (data : SafetyData) : SafetyM Unit := do
  let written ← (put fun store => { store with safetyData := some data }).attempt
  match written with
  | .ok _ => modify fun session => session.setCache (some data)
  | .error error => do
      modify fun session => session.setCache none
      throw (.secureStorageUnexpectedError error.message)

def hexEncode (bytes : List UInt8) : String := String.ofList <| bytes.flatMap fun byte =>
    [Nat.digitChar (byte.toNat / 16), Nat.digitChar (byte.toNat % 16)]

def consensusSkByPk (publicKeyOf : PrivateKey → PublicKey) (pk : PublicKey) :
    SafetyM PrivateKey := do
  let explicitSk ← (fetch ("consensus_" ++ hexEncode pk) fun store =>
      store.explicitKey pk).attempt
  let defaultSk ← (fetch "consensus" InternalStore.consensusKey).attempt
  let key ← match explicitSk, defaultSk with
    | .ok explicit, _ => pure explicit
    | .error _, .ok default => pure default
    | .error _, .error _ => throw (.validatorKeyNotFound "not found!")
  if publicKeyOf key ≠ pk then
    throw (.secureStorageMissingDataError
      ("Incorrect sk saved for " ++ hexEncode pk ++ " the expected pk"))
  else pure key

end PersistentSafetyStorage

/-- A cached copy is the stored value. -/
def Session.Coherent (session : Session) : Prop :=
  ∀ cached, session.rules.persistentStorage.cachedSafetyData = some cached →
    session.store.safetyData = some cached

/-- Only the storage differs, which is coherent and holds the safety data `stored`. -/
structure Session.Holds (stored : Option SafetyData) (earlier later : Session) : Prop where
  validatorSigner : later.rules.validatorSigner = earlier.rules.validatorSigner
  epochState : later.rules.epochState = earlier.rules.epochState
  skipSigVerify : later.rules.skipSigVerify = earlier.rules.skipSigVerify
  currentTs : later.currentTs = earlier.currentTs
  safetyData : later.store.safetyData = stored
  coherent : later.Coherent

namespace PersistentSafetyStorage

open Guarded

variable {start : Session} {stored : Option SafetyData}

theorem nextOutcome_triple {failed : Session → Prop} : Triple (start.Holds stored) nextOutcome
    (fun _ => start.Holds stored) failed := by
  refine Triple.reads fun session holds => ?_
  refine Triple.seq (fun _ => start.Holds stored)
    (Triple.updates ?_) fun _ => Triple.returns fun _ later => later
  rintro _ rfl
  exact ⟨holds.1, holds.2, holds.3, holds.4, holds.5, holds.6⟩

theorem fetch_triple {α : Type} {key : String} {value : InternalStore → Option α} :
    Triple (start.Holds stored) (fetch key value) (fun found session => start.Holds stored session ∧
        value session.store = some found)
      (start.Holds stored) := by
  refine Triple.seq _ nextOutcome_triple fun outcome => ?_
  refine Triple.reads fun session holds => ?_
  cases outcome with
  | completed =>
    cases found : value session.store with
    | none =>
      refine Triple.fails ?_
      rintro _ rfl
      exact holds
    | some =>
      refine Triple.returns ?_
      rintro _ rfl
      exact ⟨holds, found⟩
  | failed error | appliedThenFailed error =>
    refine Triple.fails ?_
    rintro _ rfl
    exact holds

theorem put_triple {update : InternalStore → InternalStore} (applied : Session → Prop)
    (applies : ∀ session, start.Holds stored session →
      applied (session.setStore (update session.store))) :
    Triple (start.Holds stored) (put update) (fun _ => applied)
      (fun session => start.Holds stored session ∨ applied session) := by
  refine Triple.seq _ nextOutcome_triple fun outcome => ?_
  cases outcome with
  | completed => exact Triple.updates applies
  | failed => exact Triple.fails fun _ holds => .inl holds
  | appliedThenFailed =>
    refine Triple.seq (fun _ => applied) (Triple.updates applies) fun _ => ?_
    exact Triple.fails fun _ holds => .inr holds

theorem safetyData_learns :
    Learns (start.Holds stored) safetyData fun data => stored = some data := by
  have direct : Learns (start.Holds stored) (orThrow (fetch "safety_data" InternalStore.safetyData))
      fun data => stored = some data := by
    refine Triple.renamed (Triple.weaken fetch_triple ?_ fun _ holds => holds)
    rintro data session ⟨holds, found⟩
    exact ⟨holds, holds.safetyData ▸ found⟩
  refine Learns.reads fun session holds => ?_
  split
  · split
    · rename_i cached isCached
      exact Learns.returns (holds.safetyData ▸ holds.coherent cached isCached)
    · refine Learns.seq direct fun data found => ?_
      refine Learns.seq (Learns.updates fun state later => ?_) fun _ _ => Learns.returns found
      refine ⟨later.1, later.2, later.3, later.4, later.5, ?_⟩
      rintro cached isCached
      cases isCached
      exact later.safetyData.trans found
  · exact direct

/-- A write that reports a failure leaves the old or the new data, and no cached copy. -/
theorem setSafetyData_triple (data : SafetyData) : Triple (start.Holds stored) (setSafetyData data)
    (fun _ => start.Holds (some data))
    (fun session =>
      start.Holds stored session ∨ start.Holds (some data) session) := by
  have applies : ∀ session, start.Holds stored session → ∀ cache,
      (cache = none ∨ cache = some data) → start.Holds (some data) ((session.setStore
          { session.store with safetyData := some data }).setCache cache) := by
    rintro session holds cache choice
    refine ⟨holds.1, holds.2, holds.3, holds.4, rfl, ?_⟩
    rintro cached isCached
    rcases choice with rfl | rfl
    · cases isCached
    · exact isCached
  refine Triple.seq _ (Triple.attempted (put_triple
    (fun session => ∀ cache, (cache = none ∨ cache = some data) →
      start.Holds (some data) (session.setCache cache)) applies))
    fun outcome => ?_
  cases outcome with
  | ok => exact Triple.updates fun _ applied => applied _ (.inr rfl)
  | error =>
    refine Triple.seq (fun _ session =>
      start.Holds stored session ∨ start.Holds (some data) session)
      (Triple.updates ?_) fun _ => Triple.fails fun _ after => after
    rintro session (holds | applied)
    · refine .inl ⟨holds.1, holds.2, holds.3, holds.4, holds.5, ?_⟩
      rintro cached isCached
      cases isCached
    · exact .inr (applied _ (.inl rfl))

end PersistentSafetyStorage

end LumioNode
