import LumioNode.QuorumStore.BatchStore

/-! # Quotas of the batch store

What an author has left and what is charged add up, so that charges are freed without a
panic. -/

namespace LumioNode.QuorumStore

open Library QuotaManager PersistedValue Option

variable {P : Type}

def StoreConfig.fullManager (config : StoreConfig) : QuotaManager :=
  ⟨config.memoryQuota, config.dbQuota, config.batchQuota, config.memoryQuota,
    config.dbQuota, config.batchQuota⟩

theorem StoreConfig.new_eq (config : StoreConfig) :
    new config.dbQuota config.memoryQuota config.batchQuota =
      .ok config.fullManager := by
  unfold new
  rw [ensure_of config.memory_le_db]
  rfl

def PersistedValue.chargeTo (value : PersistedValue P)
    (author : AccountAddress) (kind : Quota) : Nat :=
  if value.author = author then
    kind.charge value.numBytes value.payloadStorageMode
  else 0

namespace BatchStore

def managerOf (store : BatchStore P) (author : AccountAddress) : QuotaManager :=
  (store.peerQuota.lookup author).getD store.config.fullManager

def charged (store : BatchStore P) (author : AccountAddress) (kind : Quota) : Nat :=
  store.dbCache.total fun _ value => value.chargeTo author kind

/-- Balances, charges and what is about to be freed add up to the quotas. -/
structure BalancedWith (owed : Option (PersistedValue P)) (store : BatchStore P) : Prop where
  quotas : ∀ author kind, (store.managerOf author).quota kind = store.config.quota kind
  balances : ∀ author kind, (store.managerOf author).balance kind + store.charged author kind +
      (owed.map fun value => value.chargeTo author kind).getD 0 = store.config.quota kind

abbrev Balanced (store : BatchStore P) : Prop := store.BalancedWith none

/-- Everything but the quotas is as before. -/
structure SameButQuotas (store after : BatchStore P) : Prop where
  config : after.config = store.config
  lastCertifiedTime : after.lastCertifiedTime = store.lastCertifiedTime
  dbCache : after.dbCache = store.dbCache
  expirations : after.expirations = store.expirations

section Quotas

variable {store : BatchStore P}

theorem managerOf_insert (author other : AccountAddress) (manager : QuotaManager) :
    ({ store with peerQuota := store.peerQuota.insert author manager } :
        BatchStore P).managerOf other =
      if other = author then manager else store.managerOf other := by
  unfold managerOf
  rw [Table.lookup_insert_eq]
  by_cases same : other = author
  · simp [same]
  · simp [same]

variable {value : PersistedValue P}

/-- A charge is freed without a panic. -/
theorem BalancedWith.freeQuota (balanced : store.BalancedWith (some value)) :
    ∃ after, store.freeQuota value = .ok after ∧ after.Balanced ∧ store.SameButQuotas after := by
  have hasManager : ∃ manager, store.peerQuota.lookup value.author = some manager := by
    by_contra noManager
    have isNone : store.peerQuota.lookup value.author = none := by
      cases found : store.peerQuota.lookup value.author with
      | none => rfl
      | some manager => exact absurd ⟨manager, found⟩ noManager
    have full := balanced.balances value.author .batch
    simp only [managerOf, isNone, getD_none, map_some, getD_some, chargeTo, if_true, Quota.charge,
      balance, StoreConfig.quota, StoreConfig.fullManager] at full
    omega
  obtain ⟨manager, isManager⟩ := hasManager
  have managerEq : store.managerOf value.author = manager := by rw [managerOf, isManager, getD_some]
  have isCharged : ∀ kind, manager.balance kind +
      kind.charge value.numBytes value.payloadStorageMode ≤ manager.quota kind := by
    intro kind
    have owed := balanced.balances value.author kind
    have quotas := balanced.quotas value.author kind
    rw [managerEq] at owed quotas
    simp only [map_some, getD_some, chargeTo, if_true] at owed
    omega
  obtain ⟨freed, isFreed, balances, quotas⟩ := freeQuota_isOk isCharged
  refine ⟨{ store with
      peerQuota := store.peerQuota.insert value.author freed }, ?_, ?_,
    ⟨rfl, rfl, rfl, rfl⟩⟩
  · rw [BatchStore.freeQuota, isManager]
    simp only [expect, ok_bind, isFreed]
    rfl
  · refine ⟨?_, ?_⟩
    · intro author kind
      rw [managerOf_insert]
      split
      · rw [quotas, ← managerEq]
        exact balanced.quotas value.author kind
      · exact balanced.quotas author kind
    · intro author kind
      have before := balanced.balances author kind
      rw [managerOf_insert]
      simp only [map_some, getD_some, chargeTo] at before
      split
      · rename_i same
        subst same
        rw [managerEq, if_pos rfl] at before
        rw [balances]
        simp only [map_none, getD_none, charged] at before ⊢
        omega
      · rename_i different
        rw [if_neg (Ne.symm different)] at before
        exact before

theorem payloadStorageMode_toBeStored (hasPayload : value.maybePayload.isSome)
    (mode : StorageMode) : (toBeStored value mode).payloadStorageMode = mode := by
  cases mode with
  | persistedOnly => rfl
  | memoryAndPersisted =>
    obtain ⟨payload, isPayload⟩ := isSome_iff_exists.mp hasPayload
    simp [toBeStored, payloadStorageMode, isPayload]

variable (balanced : store.Balanced)

include balanced

/-- A stored value is charged to its author, and the value that it replaces is owed. -/
theorem Balanced.charge (hasPayload : value.maybePayload.isSome)
    {mode : StorageMode} {manager : QuotaManager}
    (updated : (store.managerOf value.author).updateQuota value.numBytes = .ok (mode, manager)) :
    ({ store with
      peerQuota := store.peerQuota.insert value.author manager
      dbCache := store.dbCache.insert value.digest
        (toBeStored value mode) } : BatchStore P).BalancedWith
          (store.dbCache.lookup value.digest) := by
  obtain ⟨balances, quotas⟩ := updateQuota_eq_ok updated
  refine ⟨?_, ?_⟩
  · intro author kind
    refine (congrArg (quota · kind)
      (managerOf_insert value.author author manager)).trans ?_
    split
    · rw [quotas]
      exact balanced.quotas value.author kind
    · exact balanced.quotas author kind
  · intro author kind
    have before := balanced.balances author kind
    have chargeEq : (toBeStored value mode).chargeTo author kind =
        if value.author = author then kind.charge value.numBytes mode
        else 0 := by
      rw [chargeTo, payloadStorageMode_toBeStored hasPayload]
      cases mode <;> rfl
    have totals : Table.total (fun _ value => value.chargeTo author kind)
          (store.dbCache.insert value.digest (toBeStored value mode)) +
        ((store.dbCache.lookup value.digest).map fun value => value.chargeTo author kind).getD 0 =
        store.charged author kind + (toBeStored value mode).chargeTo author kind := by
      cases found : store.dbCache.lookup value.digest with
      | none =>
        rw [Table.total_add _ found]
        rfl
      | some => exact Table.total_replace _ found _
    have managerEq : (({ store with
        peerQuota := store.peerQuota.insert value.author manager
        dbCache := store.dbCache.insert value.digest
          (toBeStored value mode) } : BatchStore P).managerOf author) =
        if author = value.author then manager else store.managerOf author :=
      managerOf_insert value.author author manager
    rw [managerEq]
    simp only [map_none, getD_none, charged] at before totals ⊢
    rw [chargeEq] at totals
    split
    · rename_i same
      subst same
      have given := balances kind
      rw [if_pos rfl] at totals
      omega
    · rename_i different
      rw [if_neg (Ne.symm different)] at totals
      omega

/-- The store keeps its balance, and a value is stored only over an earlier expiration. -/
structure EntryUpdated (store : BatchStore P) (value : PersistedValue P)
    (after : BatchStore P) (outcome : EntryOutcome) : Prop where
  balanced : after.Balanced
  config : after.config = store.config
  lastCertifiedTime : after.lastCertifiedTime = store.lastCertifiedTime
  expirations : after.expirations = store.expirations
  cache : (outcome ≠ .stored ∧ after.dbCache = store.dbCache) ∨
    (outcome = .stored ∧ ∃ stored, stored.expiration = value.expiration ∧
      after.dbCache = store.dbCache.insert value.digest stored ∧
      ∀ current, store.dbCache.lookup value.digest = some current →
        current.expiration < value.expiration)

theorem Balanced.storeEntry (hasPayload : value.maybePayload.isSome)
    (isEarlier : ∀ current, store.dbCache.lookup value.digest =
      some current → current.expiration < value.expiration) :
    ∃ after outcome, store.storeEntry value (store.dbCache.lookup value.digest) =
        .ok (after, outcome) ∧ store.EntryUpdated value after outcome := by
  unfold BatchStore.storeEntry
  rw [store.config.new_eq, ok_bind]
  have managerEq : (store.peerQuota.lookup value.author).getD
      store.config.fullManager = store.managerOf value.author := rfl
  dsimp only
  rw [managerEq]
  cases updated : (store.managerOf value.author).updateQuota value.numBytes with
  | error message =>
    refine ⟨_, _, rfl, ?_, rfl, rfl, rfl, .inl ⟨by simp, rfl⟩⟩
    have sameManager : ∀ author,
        ({ store with
          peerQuota := store.peerQuota.insert value.author
            (store.managerOf value.author) } : BatchStore P).managerOf
              author = store.managerOf author := by
      intro author
      rw [managerOf_insert]
      split
      · rename_i same
        rw [same]
      · rfl
    refine ⟨?_, ?_⟩
    · intro author kind
      exact (congrArg (quota · kind)
        (sameManager author)).trans (balanced.quotas author kind)
    · intro author kind
      have before := balanced.balances author kind
      rw [← sameManager author] at before
      exact before
  | ok given =>
    obtain ⟨mode, manager⟩ := given
    have stored := balanced.charge hasPayload updated
    have isStored : (toBeStored value mode).expiration =
        value.expiration := by
      cases mode <;> rfl
    cases found : store.dbCache.lookup value.digest with
    | none =>
      rw [found] at stored
      exact ⟨_, _, rfl, stored, rfl, rfl, rfl, .inr ⟨rfl, _, isStored, rfl, by simp [found]⟩⟩
    | some =>
      rw [found] at stored
      obtain ⟨after, isFreed, afterBalanced, same⟩ := stored.freeQuota
      refine ⟨after, .stored, ?_, afterBalanced, same.config,
        same.lastCertifiedTime, same.expirations,
        .inr ⟨rfl, _, isStored, same.dbCache, isEarlier⟩⟩
      exact bind_eq_ok.mpr ⟨after, isFreed, rfl⟩

theorem Balanced.updateEntry (hasPayload : value.maybePayload.isSome) :
    ∃ after outcome, store.updateEntry value = .ok (after, outcome) ∧
      store.EntryUpdated value after outcome := by
  unfold BatchStore.updateEntry
  cases found : store.dbCache.lookup value.digest with
  | none =>
    have stored := balanced.storeEntry hasPayload (by simp [found])
    rw [found] at stored
    exact stored
  | some current =>
    dsimp only
    split
    · exact ⟨store, .unchanged, rfl, balanced, rfl, rfl, rfl, .inl ⟨by simp, rfl⟩⟩
    · rename_i isLater
      have isEarlier : ∀ other, store.dbCache.lookup value.digest =
          some other → other.expiration < value.expiration := by
        intro other isOther
        rw [found] at isOther
        cases isOther
        omega
      have stored := balanced.storeEntry hasPayload isEarlier
      rw [found] at stored
      exact stored

structure EntryRemoved (store : BatchStore P) (digest : HashValue) (value : PersistedValue P)
    (expirationTime : Nat) (after : BatchStore P) : Prop where
  balanced : after.Balanced
  config : after.config = store.config
  lastCertifiedTime : after.lastCertifiedTime = store.lastCertifiedTime
  expirations : after.expirations = store.expirations
  cache : ∀ other, after.dbCache.lookup other =
    if other = digest ∧ value.expiration ≤ expirationTime then none
    else store.dbCache.lookup other

theorem Balanced.removeExpired {expirationTime : Nat}
    {digest : HashValue} (found : store.dbCache.lookup digest = some value) :
    ∃ after, store.removeExpired expirationTime digest = .ok after ∧
      store.EntryRemoved digest value expirationTime after := by
  unfold BatchStore.removeExpired
  rw [found]
  dsimp only
  split
  · have owed : ({ store with dbCache := store.dbCache.erase digest } :
        BatchStore P).BalancedWith (some value) := by
      refine ⟨balanced.quotas, ?_⟩
      intro author kind
      have before := balanced.balances author kind
      have total := Table.total_of_lookup (fun _ value => value.chargeTo author kind) found
      simp only [map_none, getD_none, map_some, getD_some, charged, managerOf] at before ⊢
      omega
    obtain ⟨after, isFreed, afterBalanced, same⟩ := owed.freeQuota
    refine ⟨after, isFreed, afterBalanced, same.config,
      same.lastCertifiedTime, same.expirations, ?_⟩
    simp [same.dbCache, Table.lookup_erase_eq, *]
  · exact ⟨store, rfl, balanced, rfl, rfl, rfl, by simp [*]⟩

end Quotas

end BatchStore

end LumioNode.QuorumStore
