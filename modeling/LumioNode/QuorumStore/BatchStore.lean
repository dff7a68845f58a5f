import LumioNode.ConsensusTypes.Block
import LumioNode.Library.Table
import LumioNode.QuorumStore.TimeExpirations

/-! # The batch store

Cached batches are charged to their author.  Cache and heap are under different locks,
so that an action is what a concurrent call does under one of them. -/

namespace LumioNode.QuorumStore

open Library List

/-! ## Quotas -/

inductive StorageMode where
  | persistedOnly
  | memoryAndPersisted
deriving DecidableEq

structure PersistedValue (P : Type) where
  info : BatchInfo
  maybePayload : Option P

namespace PersistedValue

variable {P : Type} (value : PersistedValue P)

def digest : HashValue := value.info.digest

def author : AccountAddress := value.info.author

def expiration : Nat := value.info.expiration

def numBytes : Nat := value.info.numBytes

def payloadStorageMode : StorageMode := match value.maybePayload with
  | some _ => .memoryAndPersisted
  | none => .persistedOnly

end PersistedValue

/-- What an author may use of the store. -/
inductive Quota where
  | memory
  | db
  | batch
deriving DecidableEq

/-- What a value of some size is charged. -/
def Quota.charge (numBytes : Nat) (mode : StorageMode) : Quota → Nat
  | .memory => if mode = .memoryAndPersisted then numBytes else 0
  | .db => numBytes
  | .batch => 1

structure QuotaManager where
  memoryBalance : Nat
  dbBalance : Nat
  batchBalance : Nat
  memoryQuota : Nat
  dbQuota : Nat
  batchQuota : Nat

namespace QuotaManager

def new (dbQuota memoryQuota batchQuota : Nat) : Except Fault QuotaManager := do
  ensure (memoryQuota ≤ dbQuota) .panic
  return ⟨memoryQuota, dbQuota, batchQuota, memoryQuota, dbQuota, batchQuota⟩

variable (manager : QuotaManager)

/-- `update_quota`: an error is returned to the caller. -/
def updateQuota (numBytes : Nat) :
    Except String (StorageMode × QuotaManager) :=
  if manager.batchBalance = 0 then .error "Batch quota exceeded "
  else if numBytes ≤ manager.dbBalance then
    if numBytes ≤ manager.memoryBalance then
      .ok (.memoryAndPersisted,
        { manager with
          batchBalance := manager.batchBalance - 1
          dbBalance := manager.dbBalance - numBytes
          memoryBalance := manager.memoryBalance - numBytes })
    else
      .ok (.persistedOnly,
        { manager with
          batchBalance := manager.batchBalance - 1
          dbBalance := manager.dbBalance - numBytes })
  else .error "Storage quota exceeded "

def assertQuota (balance toFree quota : Nat) : Except Fault Unit :=
  ensure (balance + toFree ≤ quota) .panic

def freeQuota (numBytes : Nat)
    (storageMode : StorageMode) : Except Fault QuotaManager := do
  assertQuota manager.batchBalance 1 manager.batchQuota
  let manager := { manager with batchBalance := manager.batchBalance + 1 }
  assertQuota manager.dbBalance numBytes manager.dbQuota
  let manager := { manager with dbBalance := manager.dbBalance + numBytes }
  if storageMode = .memoryAndPersisted then do
    assertQuota manager.memoryBalance numBytes manager.memoryQuota
    return { manager with memoryBalance := manager.memoryBalance + numBytes }
  else return manager

def balance : Quota → Nat
  | .memory => manager.memoryBalance
  | .db => manager.dbBalance
  | .batch => manager.batchBalance

def quota : Quota → Nat
  | .memory => manager.memoryQuota
  | .db => manager.dbQuota
  | .batch => manager.batchQuota

/-- What is charged is taken from the balances. -/
theorem updateQuota_eq_ok {manager after : QuotaManager} {numBytes : Nat} {mode : StorageMode}
    (updated : manager.updateQuota numBytes = .ok (mode, after)) :
    (∀ kind, after.balance kind + kind.charge numBytes mode =
      manager.balance kind) ∧ ∀ kind, after.quota kind = manager.quota kind := by
  unfold updateQuota at updated
  split at updated
  · cases updated
  · rename_i hasBatch
    split at updated
    · rename_i hasDb
      split at updated
      · rename_i hasMemory
        cases updated
        refine ⟨?_, fun kind => by cases kind <;> rfl⟩
        intro kind
        cases kind with
        | memory =>
          simp only [balance, Quota.charge, if_true]
          omega
        | db | batch =>
          simp only [balance, Quota.charge]
          omega
      · cases updated
        refine ⟨?_, fun kind => by cases kind <;> rfl⟩
        intro kind
        cases kind with
        | memory => rfl
        | db | batch =>
          simp only [balance, Quota.charge]
          omega
    · cases updated

/-- Quotas are freed without a panic when they were charged. -/
theorem freeQuota_isOk {manager : QuotaManager} {numBytes : Nat} {mode : StorageMode}
    (isCharged : ∀ kind, manager.balance kind + kind.charge numBytes mode ≤ manager.quota kind) :
    ∃ after, manager.freeQuota numBytes mode = .ok after ∧ (∀ kind, after.balance kind =
        manager.balance kind + kind.charge numBytes mode) ∧
      ∀ kind, after.quota kind = manager.quota kind := by
  have ofBatch := isCharged .batch
  have ofDb := isCharged .db
  have ofMemory := isCharged .memory
  simp only [balance, quota, Quota.charge] at ofBatch ofDb ofMemory
  unfold freeQuota assertQuota
  rw [ensure_of ofBatch, ok_bind]
  dsimp only
  rw [ensure_of ofDb, ok_bind]
  split
  · rename_i inMemory
    rw [if_pos inMemory] at ofMemory
    rw [ensure_of ofMemory, ok_bind]
    refine ⟨_, rfl, ?_, fun kind => by cases kind <;> rfl⟩
    intro kind
    subst inMemory
    cases kind <;> rfl
  · rename_i notInMemory
    refine ⟨_, rfl, ?_, fun kind => by cases kind <;> rfl⟩
    intro kind
    cases kind with
    | memory => simp [balance, Quota.charge, notInMemory]
    | db | batch => rfl

end QuotaManager

/-! ## The store -/

structure StoreConfig where
  memoryQuota : Nat
  dbQuota : Nat
  batchQuota : Nat
  expirationBufferUsecs : Nat
  /-- Asserted by every `QuotaManager::new`. -/
  memory_le_db : memoryQuota ≤ dbQuota

def StoreConfig.quota (config : StoreConfig) : Quota → Nat
  | .memory => config.memoryQuota
  | .db => config.dbQuota
  | .batch => config.batchQuota

structure BatchStore (P : Type) where
  config : StoreConfig
  lastCertifiedTime : Nat
  dbCache : Table HashValue (PersistedValue P)
  peerQuota : Table AccountAddress QuotaManager
  expirations : TimeExpirations HashValue

/-- How the update of a cache entry ends. -/
inductive EntryOutcome where
  /-- The digest is cached with the same or a higher expiration. -/
  | unchanged
  | refused (message : String)
  | stored
deriving DecidableEq

namespace BatchStore

variable {P : Type}

variable (store : BatchStore P)

variable (value : PersistedValue P)

def freeQuota : Except Fault (BatchStore P) := do
  let manager ← expect .panic (store.peerQuota.lookup value.author)
  let freed ← manager.freeQuota value.numBytes value.payloadStorageMode
  return { store with peerQuota := store.peerQuota.insert value.author freed }

/-- A value without its payload when there is no memory for it. -/
def toBeStored : StorageMode → PersistedValue P
  | .persistedOnly => ⟨value.info, none⟩
  | .memoryAndPersisted => value

/-- The value is charged to its author, and the one that it replaces is freed. -/
def storeEntry
    (previous : Option (PersistedValue P)) : Except Fault (BatchStore P × EntryOutcome) := do
  let full ← QuotaManager.new store.config.dbQuota store.config.memoryQuota store.config.batchQuota
  let manager := (store.peerQuota.lookup value.author).getD full
  match manager.updateQuota value.numBytes with
  | .error message =>
    return ({ store with
      peerQuota := store.peerQuota.insert value.author manager }, .refused message)
  | .ok (mode, charged) => do
      let stored :=
        { store with
          peerQuota := store.peerQuota.insert value.author charged
          dbCache := store.dbCache.insert value.digest (toBeStored value mode) }
      match previous with
      | some replaced => do
          let freed ← stored.freeQuota replaced
          return (freed, .stored)
      | none => return (stored, .stored)

/-- `insert_to_cache` under the lock of the cache entry. -/
def updateEntry :
    Except Fault (BatchStore P × EntryOutcome) :=
  match store.dbCache.lookup value.digest with
  | some current =>
    if value.expiration ≤ current.expiration then .ok (store, .unchanged)
    else store.storeEntry value (some current)
  | none => store.storeEntry value none

def addExpiration (digest : HashValue)
    (expirationTime : Nat) : BatchStore P :=
  { store with
    expirations := store.expirations.addItem digest expirationTime }

/-- `insert_to_cache` at once, as at the start. -/
def insertToCache :
    Except Fault (BatchStore P × EntryOutcome) := do
  let (after, outcome) ← store.updateEntry value
  match outcome with
  | .stored =>
    return (after.addExpiration value.digest value.expiration, .stored)
  | _ => return (after, outcome)

def empty (config : StoreConfig) (lastCertifiedTime : Nat) : BatchStore P :=
  ⟨config, lastCertifiedTime, ∅, ∅, .new⟩

/-- The value is expired at the start, or it is cached, which must succeed. -/
def populate : Except Fault (BatchStore P) :=
  if value.expiration - store.config.expirationBufferUsecs ≤ store.lastCertifiedTime then .ok store
  else do
    let (after, outcome) ← store.insertToCache value
    match outcome with
    | .refused _ => .error .panic
    | _ => return after

/-- With the batches of the database, of which none count in a new epoch. -/
def new (config : StoreConfig) (lastCertifiedTime : Nat)
    (dbContent : List (PersistedValue P)) : Except Fault (BatchStore P) :=
  dbContent.foldlM populate (empty config lastCertifiedTime)

/-- The removal of one digest by `clear_expired_payload`. -/
def removeExpired (expirationTime : Nat)
    (digest : HashValue) : Except Fault (BatchStore P) :=
  match store.dbCache.lookup digest with
  | some value =>
    if value.expiration ≤ expirationTime then
      { store with dbCache := store.dbCache.erase digest }.freeQuota value
    else .ok store
  | none => .error .panic

end BatchStore

/-! ## Concurrent calls -/

/-- A call of `persist_inner` after its check of the expiration. -/
inductive PersistStage (P : Type) where
  | checked (value : PersistedValue P)
  /-- The cache has the value, the heap does not have it yet. -/
  | cached (digest : HashValue) (expiration : Nat)

namespace PersistStage

variable {P : Type}

def digest : PersistStage P → HashValue
  | checked value => value.digest
  | cached digest _ => digest

def expiration : PersistStage P → Nat
  | checked value => value.expiration
  | cached _ expiration => expiration

end PersistStage

/-- A call of `update_certified_timestamp` after its update of the time. -/
inductive UpdateStage where
  | started (certifiedTime : Nat)
  /-- Digests that were taken from the heap are removed from the cache. -/
  | removing (certifiedTime : Nat) (expirationTime : Nat)
      (pending : Finset HashValue)

structure BatchSystem (P : Type) where
  store : BatchStore P
  persists : Nat → Option (PersistStage P)
  updates : Nat → Option UpdateStage
  /-- The times of the completed updates; no action reads them. -/
  completed : List Nat

inductive BatchAction (P : Type) where
  | checkExpiration (call : Nat) (value : PersistedValue P)
  | updateCacheEntry (call : Nat)
  | insertExpiration (call : Nat)
  | raiseTime (call : Nat) (certifiedTime : Nat)
  | expireHeap (call : Nat)
  | removeDigest (call : Nat) (digest : HashValue)
  | finishUpdate (call : Nat)

namespace BatchSystem

variable {P : Type}

def start (store : BatchStore P) : BatchSystem P := ⟨store, fun _ => none, fun _ => none, []⟩

def notEnabled : Except Fault (BatchSystem P) := .error (.error "not enabled")

def setPersist (system : BatchSystem P) (call : Nat)
    (stage : Option (PersistStage P)) : BatchSystem P :=
  { system with persists := Function.update system.persists call stage }

def setUpdate (system : BatchSystem P) (call : Nat) (stage : Option UpdateStage) : BatchSystem P :=
  { system with updates := Function.update system.updates call stage }

def setStore (system : BatchSystem P) (store : BatchStore P) : BatchSystem P :=
  { system with store := store }

section Actions

variable (system : BatchSystem P)

/-- `save`: an expired value is refused. -/
def checkExpiration (call : Nat) (value : PersistedValue P) : Except Fault (BatchSystem P) := do
  ensure ((system.persists call).isNone) (.error "not enabled")
  if system.store.lastCertifiedTime < value.expiration then
    return system.setPersist call (some (.checked value))
  else return system

def updateCacheEntry (call : Nat) : Except Fault (BatchSystem P) := match system.persists call with
  | some (.checked value) => do
      let (store, outcome) ← system.store.updateEntry value
      return (system.setStore store).setPersist call (if outcome = .stored then
          some (.cached value.digest value.expiration) else none)
  | _ => notEnabled

def insertExpiration (call : Nat) : Except Fault (BatchSystem P) := match system.persists call with
  | some (.cached digest expiration) =>
    .ok ((system.setStore (system.store.addExpiration digest expiration)).setPersist call none)
  | _ => notEnabled

/-- The atomic maximum of the certified times. -/
def raiseTime (call certifiedTime : Nat) : Except Fault (BatchSystem P) := do
  ensure ((system.updates call).isNone) (.error "not enabled")
  return (system.setStore { system.store with
    lastCertifiedTime := max system.store.lastCertifiedTime certifiedTime }
      ).setUpdate call (some (.started certifiedTime))

def expireHeap (call : Nat) : Except Fault (BatchSystem P) := match system.updates call with
  | some (.started certifiedTime) =>
    let expirationTime := certifiedTime - system.store.config.expirationBufferUsecs
    let expired := system.store.expirations.expire expirationTime
    .ok ((system.setStore { system.store with expirations := expired.2 } ).setUpdate call
        (some (.removing certifiedTime expirationTime expired.1.toFinset)))
  | _ => notEnabled

def removeDigest (call : Nat) (digest : HashValue) : Except Fault (BatchSystem P) :=
  match system.updates call with
  | some (.removing certifiedTime expirationTime pending) => do
      ensure (digest ∈ pending) (.error "not enabled")
      let store ← system.store.removeExpired expirationTime digest
      return (system.setStore store).setUpdate call
        (some (.removing certifiedTime expirationTime (pending.erase digest)))
  | _ => notEnabled

def finishUpdate (call : Nat) : Except Fault (BatchSystem P) := match system.updates call with
  | some (.removing certifiedTime _ pending) => do
      ensure (pending = ∅) (.error "not enabled")
      return { system.setUpdate call none with
        completed := certifiedTime :: system.completed }
  | _ => notEnabled

def perform : BatchAction P → Except Fault (BatchSystem P)
  | .checkExpiration call value => system.checkExpiration call value
  | .updateCacheEntry call => system.updateCacheEntry call
  | .insertExpiration call => system.insertExpiration call
  | .raiseTime call certifiedTime => system.raiseTime call certifiedTime
  | .expireHeap call => system.expireHeap call
  | .removeDigest call digest => system.removeDigest call digest
  | .finishUpdate call => system.finishUpdate call

end Actions

end BatchSystem

end LumioNode.QuorumStore
