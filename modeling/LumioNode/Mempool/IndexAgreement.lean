import LumioNode.Mempool.TransactionStore
import Mathlib.Data.List.MinMax

/-! # The indexes agree with the stored transactions

Within a call the described table also has what was taken from the main store and not
yet from the indexes, and expired keys are hidden. -/

namespace LumioNode.Mempool

open Library Table MempoolTransaction ParkingLotIndex List

namespace TransactionStore

/-- The indexes are those of a table of transactions. -/
structure Indexed (store : TransactionStore) (table : Table TxnKey MempoolTransaction)
    (hiddenTtl hiddenExpiration : List TTLOrderingKey) : Prop where
  keyed : ∀ key txn, table.lookup key = some txn → txn.key = key
  systemTtl : ∀ key, key ∈ store.systemTtlIndex ↔ key ∉ hiddenTtl ∧
    ∃ txn, table.lookup (key.address, key.replayProtector) = some txn ∧ txn.systemTtlKey = key
  expirationTime : ∀ key, key ∈ store.expirationTimeIndex ↔ key ∉ hiddenExpiration ∧
      ∃ txn, table.lookup (key.address, key.replayProtector) = some txn ∧
        txn.expirationTimeKey = key
  hash : ∀ hash key, store.hashIndex.lookup hash = some key ↔
    ∃ txn, table.lookup key = some txn ∧ txn.getCommittedHash = hash
  priority : ∀ key ∈ store.priorityIndex,
    ∃ txn, table.lookup (key.address, key.replayProtector) = some txn ∧ txn.orderedQueueKey = key
  timeline : ∀ which timelineId key,
    (store.timelineIndex which).timeline.lookup timelineId = some key ↔
      ∃ txn, table.lookup key = some txn ∧ store.config.timelineOf txn = which ∧
        txn.timelineState = .ready timelineId
  fresh : ∀ which timelineId key,
    (store.timelineIndex which).timeline.lookup timelineId = some key →
      timelineId < (store.timelineIndex which).nextTimelineId
  parkingLot : store.parkingLotIndex.Agrees
  parked : ∀ account replayProtector hash,
    store.parkingLotIndex.contains account replayProtector hash = true →
      ∃ txn, table.lookup (account, replayProtector) = some txn ∧ txn.getCommittedHash = hash
  size : store.sizeBytes = total (fun _ txn => store.config.getEstimatedBytes txn) table

variable {store : TransactionStore} {table : Table TxnKey MempoolTransaction}
  {hiddenTtl hiddenExpiration : List TTLOrderingKey} {key : TxnKey} {txn : MempoolTransaction}

theorem lookup_timelineRemove (indexed : store.Indexed table hiddenTtl hiddenExpiration)
    (isTxn : table.lookup key = some txn) (which : Nat × Nat) (timelineId : Nat) (other : TxnKey) :
    (store.timelineRemove txn which).timeline.lookup timelineId = some other ↔
      (store.timelineIndex which).timeline.lookup timelineId = some other ∧ other ≠ key := by
  have ofOther := indexed.timeline which timelineId other
  unfold timelineRemove
  rw [Function.update_apply]
  split
  · rename_i isWhich
    subst isWhich
    unfold TimelineIndex.remove
    split
    · rename_i ownId isReady
      have ofKey := (indexed.timeline _ ownId key).mpr ⟨txn, isTxn, rfl, isReady⟩
      rw [lookup_erase_eq]
      split <;> grind
    · grind
  · grind

theorem nextTimelineId_timelineRemove (which : Nat × Nat) :
    (store.timelineRemove txn which).nextTimelineId =
      (store.timelineIndex which).nextTimelineId := by
  unfold timelineRemove
  rw [Function.update_apply]
  split
  · rename_i isWhich
    subst isWhich
    unfold TimelineIndex.remove
    split <;> rfl
  · rfl

/-! ## Removing -/

theorem Indexed.dropEmptyAccount (indexed : store.Indexed table hiddenTtl hiddenExpiration)
    (address : AccountAddress) :
    (store.dropEmptyAccount address).Indexed table hiddenTtl hiddenExpiration := by
  unfold TransactionStore.dropEmptyAccount
  split
  · exact { indexed with }
  · exact indexed

theorem Indexed.indexRemove (indexed : store.Indexed table hiddenTtl hiddenExpiration)
    (isTxn : table.lookup key = some txn) :
    (store.indexRemove txn).Indexed (table.erase key) hiddenTtl hiddenExpiration := by
  have isKeyed := indexed.keyed key txn isTxn
  have isKey : key = (txn.getSender, txn.getReplayProtector) := isKeyed.symm
  have timelines := lookup_timelineRemove indexed isTxn
  apply Indexed.dropEmptyAccount
  constructor
  case keyed =>
    intro other found isFound
    rw [lookup_erase_eq] at isFound
    exact indexed.keyed other found (by grind)
  case systemTtl =>
    intro other
    have before := indexed.systemTtl other
    rw [lookup_erase_eq, Finset.mem_erase]
    grind [systemTtlKey]
  case expirationTime =>
    intro other
    have before := indexed.expirationTime other
    rw [lookup_erase_eq, Finset.mem_erase]
    grind [expirationTimeKey]
  case hash =>
    intro hash other
    have before := indexed.hash hash other
    have ofTxn := (indexed.hash txn.getCommittedHash key).mpr ⟨txn, isTxn, rfl⟩
    rw [lookup_erase_eq, lookup_erase_eq]
    grind
  case priority =>
    intro other isMember
    obtain ⟨different, isMember⟩ := Finset.mem_erase.mp isMember
    have before := indexed.priority other isMember
    rw [lookup_erase_eq]
    grind [orderedQueueKey]
  case timeline =>
    intro which timelineId other
    have before := indexed.timeline which timelineId other
    rw [timelines, lookup_erase_eq]
    grind
  case fresh =>
    intro which timelineId other isFound
    rw [nextTimelineId_timelineRemove]
    exact indexed.fresh which timelineId other ((timelines which timelineId other).mp isFound).1
  case parkingLot => exact indexed.parkingLot.remove txn
  case parked =>
    intro account replayProtector hash isParked
    rw [contains_remove indexed.parkingLot] at isParked
    have before := indexed.parked account replayProtector hash isParked.1
    rw [lookup_erase_eq]
    grind
  case size =>
    have total := total_of_lookup (fun _ txn => store.config.getEstimatedBytes txn) isTxn
    have before := indexed.size
    dsimp only at total ⊢
    omega

/-! ## Accounts -/

def HasTxns (store : TransactionStore) (address : AccountAddress) : Prop := ∃ replayProtector txn,
    store.transactions.lookup (address, replayProtector) = some txn

/-- The indexes are those of the main store, and the accounts have a transaction. -/
structure Consistent (store : TransactionStore)
    (hiddenTtl hiddenExpiration : List TTLOrderingKey) : Prop where
  indexed : store.Indexed store.transactions hiddenTtl hiddenExpiration
  accounts : ∀ address, address ∈ store.accounts ↔ store.HasTxns address

variable {address : AccountAddress} {after : TransactionStore} {fuel : Nat}

theorem mem_accountTxns {condition : ReplayProtector → Bool} :
    txn ∈ store.accountTxns address condition ↔
      ∃ replayProtector, condition replayProtector = true ∧
        store.transactions.lookup (address, replayProtector) = some txn := by
  simp only [accountTxns, mem_map, mem_filter, Table.lookup_eq_some_iff]
  constructor
  · rintro ⟨⟨⟨other, replayProtector⟩, found⟩, ⟨isMember, meets⟩, rfl⟩
    simp only [Bool.and_eq_true, decide_eq_true_eq] at meets
    obtain ⟨rfl, meets⟩ := meets
    exact ⟨replayProtector, meets, isMember⟩
  · rintro ⟨replayProtector, meets, isMember⟩
    exact ⟨_, ⟨isMember, by simpa using meets⟩, rfl⟩

theorem mem_accounts_dropEmptyAccount {other : AccountAddress} :
    other ∈ (store.dropEmptyAccount address).accounts ↔ other ∈ store.accounts ∧
        (other = address → store.HasTxns address) := by
  have isEmpty : store.accountTxns address (fun _ => true) = [] ↔
      ¬ store.HasTxns address := by
    rw [eq_nil_iff_forall_not_mem]
    simp only [mem_accountTxns, HasTxns]
    grind
  unfold dropEmptyAccount
  split
  · simp only [Finset.mem_erase]
    grind
  · grind

theorem mem_accounts_indexRemove :
    address ∈ (store.indexRemove txn).accounts ↔ address ∈ store.accounts ∧
        (address = txn.getSender → store.HasTxns txn.getSender) :=
  mem_accounts_dropEmptyAccount

theorem transactions_indexRemove : (store.indexRemove txn).transactions = store.transactions := by
  unfold indexRemove dropEmptyAccount
  split <;> rfl

theorem Consistent.remove (consistent : store.Consistent hiddenTtl hiddenExpiration)
    (isTxn : store.transactions.lookup key = some txn) :
    (store.remove key txn).Consistent hiddenTtl hiddenExpiration := by
  have isKeyed : (txn.getSender, txn.getReplayProtector) = key :=
    consistent.indexed.keyed key txn isTxn
  have taken : Indexed { store with transactions := store.transactions.erase key }
      store.transactions hiddenTtl hiddenExpiration :=
    { consistent.indexed with }
  refine ⟨?_, ?_⟩
  · rw [TransactionStore.remove, transactions_indexRemove]
    exact taken.indexRemove isTxn
  · intro address
    have before := consistent.accounts address
    rw [TransactionStore.remove, mem_accounts_indexRemove]
    simp only [HasTxns, transactions_indexRemove, lookup_erase_eq] at before ⊢
    grind

/-! ## Promoting and parking -/

section

variable (consistent : store.Consistent hiddenTtl hiddenExpiration)

include consistent

theorem Consistent.relist {priorityIndex : Finset OrderedQueueKey}
    {parkingLotIndex : ParkingLotIndex}
    (priority : ∀ other ∈ priorityIndex, other ∈ store.priorityIndex ∨ ∃ txn,
      store.transactions.lookup (other.address, other.replayProtector) = some txn ∧
        txn.orderedQueueKey = other)
    (agrees : parkingLotIndex.Agrees)
    (parked : ∀ account replayProtector hash, parkingLotIndex.contains account replayProtector hash
      = true → store.parkingLotIndex.contains account replayProtector hash = true ∨ ∃ txn,
      store.transactions.lookup (account, replayProtector) = some txn ∧
        txn.getCommittedHash = hash) :
    { store with
      priorityIndex := priorityIndex
      parkingLotIndex := parkingLotIndex }.Consistent hiddenTtl hiddenExpiration :=
  have indexed := consistent.indexed
  ⟨{ indexed with
    priority := fun other isMember => (priority other isMember).elim (indexed.priority other) id
    parkingLot := agrees
    parked := fun account replayProtector hash isParked =>
      (parked account replayProtector hash isParked).elim
        (indexed.parked account replayProtector hash) id }, consistent.accounts⟩

theorem Consistent.restate (isTxn : store.transactions.lookup key = some txn)
    {timelineState : TimelineState} {wasParked : Bool}
    {timelineIndex : Nat × Nat → TimelineIndex}
    (timeline : ∀ which timelineId other, (timelineIndex which).timeline.lookup timelineId = some
      other ↔ if other = key then store.config.timelineOf txn = which ∧ timelineState = .ready
      timelineId else (store.timelineIndex which).timeline.lookup timelineId = some other)
    (fresh : ∀ which timelineId other, (timelineIndex which).timeline.lookup timelineId = some other
      → timelineId < (timelineIndex which).nextTimelineId) :
    { store with
      timelineIndex := timelineIndex
      transactions := store.transactions.insert key
        { txn with timelineState, wasParked } }.Consistent hiddenTtl hiddenExpiration := by
  have ⟨indexed, accounts⟩ := consistent
  constructor
  case accounts =>
    intro address
    rw [accounts]
    simp only [HasTxns, lookup_insert_eq]
    grind
  constructor
  case keyed =>
    intro other found isFound
    rw [lookup_insert_eq] at isFound
    have before := indexed.keyed other
    grind [MempoolTransaction.key, getSender, getReplayProtector]
  case systemTtl =>
    intro other
    rw [lookup_insert_eq, indexed.systemTtl other]
    grind [systemTtlKey, getSender, getReplayProtector]
  case expirationTime =>
    intro other
    rw [lookup_insert_eq, indexed.expirationTime other]
    grind [expirationTimeKey, getSender, getReplayProtector]
  case hash =>
    intro hash other
    rw [lookup_insert_eq, indexed.hash hash other]
    grind [getCommittedHash]
  case priority =>
    intro other isMember
    have before := indexed.priority other isMember
    rw [lookup_insert_eq]
    grind [orderedQueueKey, getSender, getReplayProtector, getCommittedHash]
  case timeline =>
    intro which timelineId other
    have before := indexed.timeline which timelineId other
    rw [timeline, lookup_insert_eq]
    grind [MempoolConfig.timelineOf, getSender]
  case fresh => exact fresh
  case parkingLot => exact indexed.parkingLot
  case parked =>
    intro account replayProtector hash isParked
    have before := indexed.parked account replayProtector hash isParked
    rw [lookup_insert_eq]
    grind [getCommittedHash]
  case size =>
    have total := total_replace (fun _ txn => store.config.getEstimatedBytes txn) isTxn
      { txn with timelineState, wasParked }
    have before := indexed.size
    simp only [MempoolConfig.getEstimatedBytes] at total before ⊢
    omega

theorem Consistent.promote (isTxn : store.transactions.lookup key = some txn) :
    (store.promote key txn).Consistent hiddenTtl hiddenExpiration := by
  have ⟨indexed, _⟩ := consistent
  have isStored : store.transactions.lookup txn.key = some txn := by
    rw [indexed.keyed key txn isTxn]
    exact isTxn
  have listed : Consistent
      { store with
        priorityIndex := Insert.insert txn.orderedQueueKey store.priorityIndex
        parkingLotIndex := store.parkingLotIndex.remove txn } hiddenTtl hiddenExpiration := by
    refine consistent.relist ?_ (indexed.parkingLot.remove txn) ?_
    · intro other isMember
      rcases Finset.mem_insert.mp isMember with rfl | wasMember
      · exact .inr ⟨txn, isStored, rfl⟩
      · exact .inl wasMember
    · intro account replayProtector hash isParked
      rw [contains_remove indexed.parkingLot] at isParked
      exact .inl isParked.1
  unfold TransactionStore.promote
  split
  · rename_i notReady
    have fresh := indexed.fresh (store.config.timelineOf txn)
    refine listed.restate isTxn ?_ ?_
    · intro which timelineId other
      have before := indexed.timeline which timelineId other
      rw [Function.update_apply]
      simp only [TimelineIndex.insert]
      grind [lookup_insert_eq]
    · intro which timelineId other
      have before := indexed.fresh which timelineId other
      rw [Function.update_apply]
      simp only [TimelineIndex.insert]
      grind [lookup_insert_eq]
  · exact listed

variable (isTxn : store.transactions.lookup txn.key = some txn)

include isTxn

variable {number : Nat}

theorem Consistent.insertParked (isNumber : txn.getReplayProtector = .sequenceNumber number)
    {priorityIndex : Finset OrderedQueueKey} (fewer : priorityIndex ⊆ store.priorityIndex) :
    { store with
      priorityIndex := priorityIndex
      parkingLotIndex := store.parkingLotIndex.insert txn }.Consistent hiddenTtl
        hiddenExpiration := by
  have agrees := consistent.indexed.parkingLot
  refine consistent.relist (fun other isMember => .inl (fewer isMember)) (agrees.insert txn) ?_
  intro account replayProtector hash isParked
  rw [contains_insert agrees isNumber] at isParked
  rcases isParked with wasParked | ⟨rfl, rfl, rfl⟩
  · exact .inl wasParked
  · exact .inr ⟨txn, isTxn, rfl⟩

theorem Consistent.park : (store.park txn).Consistent hiddenTtl hiddenExpiration := by
  unfold TransactionStore.park
  split
  · exact consistent
  · rename_i number isNumber
    refine (consistent.insertParked isTxn isNumber subset_rfl).restate isTxn ?_
      consistent.indexed.fresh
    intro which timelineId other
    have before := consistent.indexed.timeline which timelineId other
    grind

theorem Consistent.demote (isNumber : txn.getReplayProtector = .sequenceNumber number) :
    (store.demote txn).Consistent hiddenTtl hiddenExpiration := by
  have ⟨indexed, _⟩ := consistent
  have timelines := lookup_timelineRemove indexed isTxn
  have parked := consistent.insertParked isTxn isNumber
    (Finset.erase_subset txn.orderedQueueKey store.priorityIndex)
  refine parked.restate isTxn ?_ ?_
  · intro which timelineId other
    rw [timelines]
    split
    · simp_all
      grind [TimelineState.isReady]
    · simp_all
  · intro which timelineId other isFound
    rw [nextTimelineId_timelineRemove]
    exact indexed.fresh which timelineId other ((timelines which timelineId other).mp isFound).1

end

theorem Indexed.addTxn (indexed : store.Indexed store.transactions [] [])
    (isNew : store.transactions.lookup txn.key = none)
    (notReady : txn.timelineState.isReady = false)
    (noCollision : ∀ other found, store.transactions.lookup other = some found →
      found.getCommittedHash ≠ txn.getCommittedHash) (accountSequenceNumber : Option Nat) :
    (store.addTxn txn accountSequenceNumber).Indexed
      (store.transactions.insert txn.key txn) [] [] := by
  constructor
  case keyed =>
    intro other found isFound
    rw [lookup_insert_eq] at isFound
    have before := indexed.keyed other found
    grind
  case systemTtl =>
    intro other
    have before := indexed.systemTtl other
    simp only [TransactionStore.addTxn, Finset.mem_insert,
      lookup_insert_eq, not_mem_nil, not_false_eq_true, true_and]
      at before ⊢
    grind [systemTtlKey, MempoolTransaction.key]
  case expirationTime =>
    intro other
    have before := indexed.expirationTime other
    simp only [TransactionStore.addTxn, Finset.mem_insert,
      lookup_insert_eq, not_mem_nil, not_false_eq_true, true_and]
      at before ⊢
    grind [expirationTimeKey, MempoolTransaction.key]
  case hash =>
    intro hash other
    have before := indexed.hash hash other
    simp only [TransactionStore.addTxn, lookup_insert_eq]
    grind
  case priority =>
    intro other isMember
    have before := indexed.priority other isMember
    rw [lookup_insert_eq]
    grind
  case timeline =>
    intro which timelineId other
    have before := indexed.timeline which timelineId other
    simp only [TransactionStore.addTxn, lookup_insert_eq]
    grind [TimelineState.isReady]
  case fresh => exact indexed.fresh
  case parkingLot => exact indexed.parkingLot
  case parked =>
    intro account replayProtector hash isParked
    have before := indexed.parked account replayProtector hash isParked
    rw [lookup_insert_eq]
    grind
  case size =>
    have total := total_add (fun _ txn => store.config.getEstimatedBytes txn) isNew txn
    have before := indexed.size
    simp only [TransactionStore.addTxn] at total ⊢
    omega

/-! ## Loops over the transactions of an account -/

theorem keys_accountTxns
    (keyed : ∀ key txn, store.transactions.lookup key = some txn → txn.key = key)
    (address : AccountAddress) (condition : ReplayProtector → Bool) :
    ((store.accountTxns address condition).map MempoolTransaction.key).Nodup := by
  rw [accountTxns, map_map]
  have isFst : ∀ entry ∈ store.transactions.entries.filter (fun entry =>
      decide (entry.1.1 = address) && condition entry.1.2),
      (MempoolTransaction.key ∘ (·.2)) entry = entry.1 := by
    intro entry isMember
    exact keyed entry.1 entry.2 (Table.lookup_eq_some_iff.mpr (mem_filter.mp isMember).1)
  rw [map_congr_left isFst]
  exact store.transactions.nodupKeys.sublist filter_sublist

/-- A loop over transactions keeps what every round keeps. -/
theorem foldl_keeps (keeps : TransactionStore → Prop)
    {step : TransactionStore → MempoolTransaction → TransactionStore}
    {txns : List MempoolTransaction}
    (round : ∀ store, ∀ txn ∈ txns, keeps store → store.transactions.lookup txn.key = some txn →
      keeps (step store txn) ∧ ∀ key ≠ txn.key, (step store txn).transactions.lookup key =
      store.transactions.lookup key) (distinct : (txns.map MempoolTransaction.key).Nodup)
    (areTxns : ∀ txn ∈ txns, store.transactions.lookup txn.key = some txn) (starts : keeps store) :
    keeps (txns.foldl step store) := by
  induction txns generalizing store with
  | nil => exact starts
  | cons txn rest inductionHypothesis =>
    rw [map_cons, nodup_cons] at distinct
    obtain ⟨kept, others⟩ := round store txn mem_cons_self starts
      (areTxns txn mem_cons_self)
    refine inductionHypothesis
      (fun store other isOther => round store other (mem_cons_of_mem _ isOther)) distinct.2 ?_ kept
    intro other isOther
    have different : other.key ≠ txn.key :=
      fun same => distinct.1 (same ▸ mem_map_of_mem isOther)
    rw [others other.key different]
    exact areTxns other (mem_cons_of_mem _ isOther)

theorem Indexed.congr (indexed : store.Indexed table hiddenTtl hiddenExpiration)
    {other : Table TxnKey MempoolTransaction} (same : ∀ key, table.lookup key = other.lookup key) :
    store.Indexed other hiddenTtl hiddenExpiration := by
  have size := indexed.size
  rw [total_eq_of_lookup_eq _ same] at size
  have ⟨keyed, systemTtl, expirationTime, hash, priority, timeline, fresh,
    parkingLot, parked, _⟩ := indexed
  simp only [same] at keyed systemTtl expirationTime hash
  simp only [same] at priority timeline parked
  exact ⟨keyed, systemTtl, expirationTime, hash, priority, timeline, fresh,
    parkingLot, parked, size⟩

theorem Indexed.foldl_indexRemove {txns : List MempoolTransaction}
    {rest : Table TxnKey MempoolTransaction}
    (indexed : store.Indexed table hiddenTtl hiddenExpiration)
    (areTxns : ∀ txn ∈ txns, table.lookup txn.key = some txn)
    (distinct : (txns.map MempoolTransaction.key).Nodup)
    (isRest : ∀ key, rest.lookup key = if key ∈ txns.map MempoolTransaction.key then none
      else table.lookup key) :
    (txns.foldl TransactionStore.indexRemove store).Indexed rest hiddenTtl hiddenExpiration := by
  induction txns generalizing store table with
  | nil => exact indexed.congr fun key => by simp [isRest]
  | cons txn others inductionHypothesis =>
    rw [map_cons, nodup_cons] at distinct
    refine inductionHypothesis (indexed.indexRemove (areTxns txn mem_cons_self)) ?_ distinct.2 ?_
    · intro other isOther
      have different : other.key ≠ txn.key :=
        fun same => distinct.1 (same ▸ mem_map_of_mem isOther)
      rw [lookup_erase_eq, if_neg different]
      exact areTxns other (mem_cons_of_mem _ isOther)
    · intro key
      simp only [isRest, lookup_erase_eq, map_cons, mem_cons]
      grind

theorem lookup_of_mem_accountTxns
    (indexed : store.Indexed store.transactions hiddenTtl hiddenExpiration)
    (address : AccountAddress) (condition : ReplayProtector → Bool) :
    ∀ txn ∈ store.accountTxns address condition, store.transactions.lookup txn.key = some txn ∧
        txn.getSender = address ∧
        condition txn.getReplayProtector = true := by
  intro txn isMember
  obtain ⟨replayProtector, meets, isTxn⟩ := mem_accountTxns.mp isMember
  have isKeyed : (txn.getSender, txn.getReplayProtector) = _ := indexed.keyed _ txn isTxn
  cases isKeyed
  exact ⟨isTxn, rfl, meets⟩

theorem foldl_indexRemove_accounts {txns : List MempoolTransaction}
    (areOf : ∀ txn ∈ txns, txn.getSender = address) :
    (txns.foldl indexRemove store).transactions = store.transactions ∧
      ∀ other, other ∈ (txns.foldl indexRemove store).accounts ↔ other ∈ store.accounts ∧
          (txns ≠ [] → other = address → store.HasTxns address) := by
  induction txns generalizing store with
  | nil => simp
  | cons txn rest inductionHypothesis =>
    obtain ⟨transactions, accounts⟩ :=
      @inductionHypothesis (store.indexRemove txn) (forall_mem_cons.mp areOf).2
    have isOf := areOf txn mem_cons_self
    refine ⟨transactions.trans transactions_indexRemove, ?_⟩
    intro other
    rw [foldl_cons, accounts, mem_accounts_indexRemove, isOf]
    simp only [HasTxns, transactions_indexRemove]
    grind

theorem lookup_clean (indexed : store.Indexed store.transactions hiddenTtl hiddenExpiration)
    (address : AccountAddress) (stop : Nat) (key : TxnKey) : (store.transactions.retain fun key _ =>
        !(decide (key.1 = address) && belowNumber stop key.2)).lookup key =
      if key ∈ (store.accountTxns address (belowNumber stop)).map MempoolTransaction.key then none
      else store.transactions.lookup key := by
  have areTxns := lookup_of_mem_accountTxns indexed address (belowNumber stop)
  rw [lookup_retain]
  cases isTxn : store.transactions.lookup key with
  | none => simp
  | some txn =>
    have isKeyed := indexed.keyed key txn isTxn
    have isMember : key ∈ (store.accountTxns address (belowNumber stop)).map
        MempoolTransaction.key ↔ key.1 = address ∧ belowNumber stop key.2 = true := by
      rw [mem_map]
      constructor
      · rintro ⟨other, isOther, rfl⟩
        exact (areTxns other isOther).2
      · rintro ⟨rfl, isBelow⟩
        exact ⟨txn, mem_accountTxns.mpr ⟨key.2, isBelow, isTxn⟩, isKeyed⟩
    simp only [isMember, Option.filter_some]
    grind

theorem Consistent.clean (consistent : store.Consistent hiddenTtl hiddenExpiration)
    (address : AccountAddress) (accountSequenceNumber : Nat) :
    (store.cleanCommittedTransactionsBelowAccountSeqNum address
      accountSequenceNumber).Consistent hiddenTtl hiddenExpiration := by
  have ⟨indexed, occupied⟩ := consistent
  have areTxns := lookup_of_mem_accountTxns indexed address (belowNumber accountSequenceNumber)
  have lookups := lookup_clean indexed address accountSequenceNumber
  unfold cleanCommittedTransactionsBelowAccountSeqNum
  generalize store.transactions.retain _ = retained at lookups ⊢
  have taken : Indexed { store with transactions := retained }
      store.transactions hiddenTtl hiddenExpiration := { indexed with }
  obtain ⟨same, accounts⟩ := @foldl_indexRemove_accounts
    { store with transactions := retained } address _
    (fun txn isTxn => (areTxns txn isTxn).2.1)
  refine ⟨?_, ?_⟩
  · rw [same]
    exact taken.foldl_indexRemove (fun txn isTxn => (areTxns txn isTxn).1)
      (keys_accountTxns indexed.keyed _ _) lookups
  · intro other
    rw [accounts]
    simp only [HasTxns, same] at occupied ⊢
    constructor
    · rintro ⟨isAccount, hasLeft⟩
      obtain ⟨replayProtector, txn, isTxn⟩ := (occupied other).mp isAccount
      by_cases isMember : (other, replayProtector) ∈ (store.accountTxns address
            (belowNumber accountSequenceNumber)).map MempoolTransaction.key
      · obtain ⟨removed, isRemoved, isKey⟩ := mem_map.mp isMember
        have isOf : other = address :=
          (congrArg Prod.fst isKey).symm.trans (areTxns removed isRemoved).2.1
        rw [isOf]
        exact hasLeft (ne_nil_of_mem isRemoved) isOf
      · exact ⟨replayProtector, txn, by rw [lookups, if_neg isMember, isTxn]⟩
    · rintro ⟨replayProtector, txn, isTxn⟩
      have isLeft := isTxn
      refine ⟨(occupied other).mpr ⟨replayProtector, txn, ?_⟩, ?_⟩
      · grind
      · rintro _ rfl
        exact ⟨replayProtector, txn, isLeft⟩

/-! ## Sequence numbers -/

def Listed (store : TransactionStore) : Prop :=
  ∀ address ∈ store.accountSequenceNumbers, address ∈ store.accounts

structure Sound (store : TransactionStore) (numbered : Prop)
    (hiddenTtl hiddenExpiration : List TTLOrderingKey) : Prop extends
    store.Consistent hiddenTtl hiddenExpiration where
  listed : numbered → store.Listed

theorem Listed.indexRemove (listed : store.Listed) : (store.indexRemove txn).Listed := by
  unfold TransactionStore.indexRemove dropEmptyAccount
  split
  · intro other isEntry
    obtain ⟨different, wasEntry⟩ := AList.mem_erase.mp isEntry
    exact Finset.mem_erase.mpr ⟨different, listed other wasEntry⟩
  · exact listed

variable {numbered : Prop}

section

variable (sound : store.Sound numbered hiddenTtl hiddenExpiration)

include sound

theorem Sound.remove (isTxn : store.transactions.lookup key = some txn) :
    (store.remove key txn).Sound numbered hiddenTtl hiddenExpiration := by
  refine ⟨sound.toConsistent.remove isTxn, fun isNumbered => ?_⟩
  apply Listed.indexRemove
  exact sound.listed isNumbered

theorem Sound.promote (isTxn : store.transactions.lookup key = some txn) :
    (store.promote key txn).Sound numbered hiddenTtl hiddenExpiration := by
  refine ⟨sound.toConsistent.promote isTxn, ?_⟩
  unfold TransactionStore.promote
  split <;> exact sound.listed

theorem Sound.park (isTxn : store.transactions.lookup txn.key = some txn) :
    (store.park txn).Sound numbered hiddenTtl hiddenExpiration := by
  refine ⟨sound.toConsistent.park isTxn, ?_⟩
  unfold TransactionStore.park
  split <;> exact sound.listed

theorem Sound.clean (address : AccountAddress) (accountSequenceNumber : Nat) :
    (store.cleanCommittedTransactionsBelowAccountSeqNum address
      accountSequenceNumber).Sound numbered hiddenTtl hiddenExpiration :=
  ⟨sound.toConsistent.clean address accountSequenceNumber, fun isNumbered =>
    List.foldlRecOn (motive := Listed) _ _ (sound.listed isNumbered)
      fun _ listed _ _ => listed.indexRemove⟩

end

/-! ## Calls -/

theorem Sound.promoteFrom {minSeq : Nat} (sound : store.Sound numbered hiddenTtl hiddenExpiration) :
    (promoteFrom address fuel minSeq store).2.Sound numbered hiddenTtl hiddenExpiration := by
  induction fuel generalizing minSeq store with
  | zero => exact sound
  | succ fuel inductionHypothesis =>
    unfold TransactionStore.promoteFrom processReadyTransaction
    cases isTxn : store.transactions.lookup (address, .sequenceNumber minSeq) with
    | none => exact sound
    | some => exact inductionHypothesis (sound.promote isTxn)

theorem le_largestNumber {number : Nat}
    (keyed : ∀ key txn, store.transactions.lookup key = some txn → txn.key = key)
    (isTxn : store.transactions.lookup (address, .sequenceNumber number) = some txn) :
    number ≤ store.largestNumber address := by
  have isNumber : txn.getReplayProtector = .sequenceNumber number :=
    congrArg Prod.snd (keyed _ txn isTxn)
  refine List.le_max_of_le' 0 (mem_map_of_mem (mem_accountTxns.mpr ⟨_, rfl, isTxn⟩)) ?_
  rw [isNumber]

/-- The fuel suffices: promoting ends at a number that is not stored. -/
theorem promoteFrom_stops {minSeq : Nat} (enough : ∀ number txn,
      store.transactions.lookup (address, .sequenceNumber number) = some txn →
        number < minSeq + fuel) :
    (promoteFrom address fuel minSeq store).2.transactions.lookup
      (address, .sequenceNumber (promoteFrom address fuel minSeq store).1) = none := by
  induction fuel generalizing minSeq store with
  | zero => exact Option.eq_none_iff_forall_ne_some.mpr fun txn isTxn =>
      absurd (enough minSeq txn isTxn) (lt_irrefl _)
  | succ fuel inductionHypothesis =>
    cases isTxn : store.transactions.lookup (address, .sequenceNumber minSeq) with
    | none =>
      rw [TransactionStore.promoteFrom, processReadyTransaction, isTxn]
      exact isTxn
    | some txn =>
      rw [TransactionStore.promoteFrom, processReadyTransaction, isTxn]
      refine inductionHypothesis fun number other isOther => ?_
      by_cases isOwn : number = minSeq
      · omega
      · unfold promote timelineInsert at isOther
        have wasOther := enough number other
        grind [lookup_insert_eq]

theorem lookup_park_ne {other : TxnKey} (different : other ≠ txn.key) :
    (store.park txn).transactions.lookup other = store.transactions.lookup other := by
  unfold park
  split
  · rfl
  · exact AList.lookup_insert_ne different

section

variable (sound : store.Sound numbered hiddenTtl hiddenExpiration)

include sound

theorem Sound.processReady (address : AccountAddress) (accountSequenceNum : Nat) :
    (store.processReadySeqNumBasedTransactions address
      accountSequenceNum).Sound numbered hiddenTtl hiddenExpiration := by
  unfold processReadySeqNumBasedTransactions
  have promoted := @Sound.promoteFrom store hiddenTtl hiddenExpiration address
    (store.largestNumber address + 1) numbered accountSequenceNum sound
  generalize TransactionStore.promoteFrom address _ _ store = result at promoted
  obtain ⟨minSeq, promotedStore⟩ := result
  have areTxns := lookup_of_mem_accountTxns promoted.indexed address (betweenNumbers minSeq none)
  refine foldl_keeps (·.Sound numbered hiddenTtl hiddenExpiration) ?_
    (keys_accountTxns promoted.indexed.keyed _ _) (fun txn isTxn => (areTxns txn isTxn).1) promoted
  intro before txn _ kept isTxn
  unfold parkUnlessReady
  split
  · exact ⟨kept, fun _ _ => rfl⟩
  · exact ⟨kept.park isTxn, fun _ different => lookup_park_ne different⟩

theorem Sound.evict {draws : List Nat} :
    (evict fuel draws store).Sound numbered hiddenTtl hiddenExpiration := by
  induction fuel generalizing draws store with
  | zero => exact sound
  | succ fuel inductionHypothesis =>
    unfold TransactionStore.evict
    split
    · exact sound
    · split
      · exact sound
      · rename_i txn isTxn
        dsimp only
        split
        · exact inductionHypothesis (sound.remove isTxn)
        · exact sound.remove isTxn

end

theorem exists_number {start : Nat} {stop : Option Nat} {replayProtector : ReplayProtector}
    (isBetween : betweenNumbers start stop replayProtector = true) :
    ∃ number, replayProtector = .sequenceNumber number ∧ start < number ∧
      ∀ last ∈ stop, number < last := by
  cases replayProtector with
  | nonce => cases isBetween
  | sequenceNumber number =>
    simp only [betweenNumbers, Bool.and_eq_true, decide_eq_true_eq] at isBetween
    refine ⟨number, rfl, isBetween.1, ?_⟩
    rintro last rfl
    simpa using isBetween.2

section

variable (sound : store.Sound numbered hiddenTtl hiddenExpiration)

include sound

theorem Sound.removeKey (key : TxnKey) : (match store.transactions.lookup key with
    | some txn => store.remove key txn
    | none => store).Sound numbered hiddenTtl hiddenExpiration := by
  split
  · rename_i txn isTxn
    exact sound.remove isTxn
  · exact sound

theorem Sound.foldl_demote (address : AccountAddress) (start : Nat) (stop : Option Nat) :
    ((store.accountTxns address (betweenNumbers start stop)).foldl
      TransactionStore.demote store).Sound numbered hiddenTtl hiddenExpiration := by
  have areTxns := lookup_of_mem_accountTxns sound.indexed address (betweenNumbers start stop)
  refine foldl_keeps (·.Sound numbered hiddenTtl hiddenExpiration) ?_
    (keys_accountTxns sound.indexed.keyed _ _) (fun txn isTxn => (areTxns txn isTxn).1)
    sound
  intro before txn isMember kept isTxn
  obtain ⟨number, isNumber, _⟩ := exists_number (areTxns txn isMember).2.2
  exact ⟨⟨kept.toConsistent.demote isTxn isNumber, kept.listed⟩,
    fun _ different => AList.lookup_insert_ne different⟩

theorem Sound.gcKey (key : TTLOrderingKey) (next : Option TTLOrderingKey) :
    (store.gcKey key next).Sound numbered hiddenTtl hiddenExpiration := by
  apply Sound.removeKey
  split
  · exact sound.foldl_demote _ _ _
  · exact sound

end

theorem lookup_gcKey (key : TTLOrderingKey) (next : Option TTLOrderingKey) :
    (store.gcKey key next).transactions.lookup (key.address, key.replayProtector) = none := by
  unfold gcKey
  dsimp only
  split
  · rw [remove, transactions_indexRemove, AList.lookup_erase]
  · assumption

/-- What is not stored need not be hidden. -/
theorem Sound.unhide {key : TTLOrderingKey}
    (isGone : store.transactions.lookup (key.address, key.replayProtector) = none) :
    (store.Sound numbered (key :: hiddenTtl) hiddenExpiration →
      store.Sound numbered hiddenTtl hiddenExpiration) ∧
    (store.Sound numbered hiddenTtl (key :: hiddenExpiration) →
      store.Sound numbered hiddenTtl hiddenExpiration) := by
  refine ⟨fun sound => ⟨⟨{ sound.indexed with systemTtl := ?_ }, sound.accounts⟩, sound.listed⟩,
    fun sound => ⟨⟨{ sound.indexed with expirationTime := ?_ }, sound.accounts⟩, sound.listed⟩⟩
  · intro other
    rw [sound.indexed.systemTtl other]
    grind
  · intro other
    rw [sound.indexed.expirationTime other]
    grind

theorem Sound.gcLoop {keys : List TTLOrderingKey}
    (sound : store.Sound numbered keys [] ∨ store.Sound numbered [] keys) :
    (gcLoop keys store).Sound numbered [] [] := by
  induction keys generalizing store with
  | nil => exact sound.elim id id
  | cons key rest inductionHypothesis =>
    exact inductionHypothesis (sound.imp
      (fun before => (Sound.unhide (lookup_gcKey key _)).1 (before.gcKey key _))
      fun before => (Sound.unhide (lookup_gcKey key _)).2 (before.gcKey key _))

theorem mem_expiredKeys {index : Finset TTLOrderingKey} {now : Nat} {key : TTLOrderingKey} :
    key ∈ expiredKeys index now ↔ key ∈ index ∧ key < .limit now := by
  simp [expiredKeys]

section

variable (sound : store.Sound numbered [] [])

include sound

theorem Sound.gcBySystemTtl (now : Nat) : (store.gcBySystemTtl now).Sound numbered [] [] := by
  refine Sound.gcLoop (.inl ⟨⟨{ sound.indexed with systemTtl := ?_ }, sound.accounts⟩,
    sound.listed⟩)
  intro key
  have before := sound.indexed.systemTtl key
  rw [Finset.mem_filter, mem_expiredKeys]
  grind

theorem Sound.gcByExpirationTime (blockTime systemTime : Nat) :
    (store.gcByExpirationTime blockTime systemTime).Sound numbered [] [] := by
  refine Sound.gcLoop (.inr ⟨⟨{ sound.indexed with expirationTime := ?_ }, sound.accounts⟩,
    sound.listed⟩)
  intro key
  have before := sound.indexed.expirationTime key
  rw [Finset.mem_filter, mem_expiredKeys]
  grind

theorem Sound.commitTransaction (account : AccountAddress) (replayProtector : ReplayProtector)
    (isStored : numbered → ∀ number, replayProtector = .sequenceNumber number →
      store.HasTxns account) :
    (store.commitTransaction account replayProtector).Sound numbered [] [] := by
  unfold TransactionStore.commitTransaction
  split
  · refine (Sound.clean ?_ _ _).processReady _ _
    refine ⟨⟨{ sound.indexed with }, sound.accounts⟩, fun isNumbered address isEntry => ?_⟩
    rcases (AList.mem_insert _).mp isEntry with rfl | wasEntry
    · exact (sound.accounts _).mpr (isStored isNumbered _ rfl)
    · exact sound.listed isNumbered address wasEntry
  · exact sound.removeKey _

end

/-- Transactions are only taken out. -/
structure Shrinks (before after : TransactionStore) : Prop where
  config : after.config = before.config
  sub : ∀ key txn, after.transactions.lookup key = some txn →
    before.transactions.lookup key = some txn

theorem Shrinks.refl : Shrinks store store := ⟨rfl, fun _ _ isTxn => isTxn⟩

theorem Shrinks.trans {first second third : TransactionStore} (left : Shrinks first second)
    (right : Shrinks second third) : Shrinks first third :=
  ⟨right.config.trans left.config, fun key txn isTxn => left.sub key txn (right.sub key txn isTxn)⟩

theorem Shrinks.isNew (shrinks : Shrinks store after)
    (isNew : store.transactions.lookup key = none) : after.transactions.lookup key = none := by
  by_contra isStored
  obtain ⟨found, isFound⟩ := Option.ne_none_iff_exists'.mp isStored
  rw [shrinks.sub _ _ isFound] at isNew
  cases isNew

theorem indexRemove_shrinks : Shrinks store (store.indexRemove txn) := by
  refine ⟨?_, ?_⟩
  · unfold indexRemove dropEmptyAccount
    split <;> rfl
  · simp [transactions_indexRemove]

theorem remove_shrinks : Shrinks store (store.remove key txn) := by
  have taken : Shrinks store { store with transactions := store.transactions.erase key } := by
    refine ⟨rfl, ?_⟩
    intro other found isFound
    rw [lookup_erase_eq] at isFound
    grind
  exact taken.trans indexRemove_shrinks

theorem evict_shrinks {draws : List Nat} : Shrinks store (evict fuel draws store) := by
  induction fuel generalizing draws store with
  | zero => exact .refl
  | succ fuel inductionHypothesis =>
    unfold evict
    repeat' split
    · exact .refl
    · exact .refl
    · dsimp only
      split
      · exact remove_shrinks.trans inductionHypothesis
      · exact remove_shrinks

theorem clean_shrinks {stop : Nat} : Shrinks store
    (store.cleanCommittedTransactionsBelowAccountSeqNum address stop) := by
  have retained : Shrinks store { store with
      transactions := store.transactions.retain fun key _ =>
        !(decide (key.1 = address) && belowNumber stop key.2) } := by
    refine ⟨rfl, ?_⟩
    intro key txn isTxn
    rw [lookup_retain] at isTxn
    exact (Option.filter_eq_some_iff.mp isTxn).1
  exact List.foldlRecOn _ _ retained fun _ shrinks _ _ => shrinks.trans indexRemove_shrinks

/-- In no timeline yet, of a hash of its own, and accounts may have transactions. -/
structure Insertable (store : TransactionStore) (txn : MempoolTransaction) : Prop where
  notReady : txn.timelineState.isReady = false
  noCollision : ∀ key found, store.transactions.lookup key = some found →
    found.getCommittedHash = txn.getCommittedHash → key = txn.key
  capacity : 0 < store.config.capacityPerUser
  orderlessCapacity : 0 < store.config.orderlessTxnCapacityPerUser

theorem Insertable.shrink (insertable : store.Insertable txn) (shrinks : Shrinks store after) :
    after.Insertable txn := by
  have ⟨notReady, noCollision, capacity, orderlessCapacity⟩ := insertable
  refine ⟨notReady, fun key found isFound => noCollision key found
    (shrinks.sub key found isFound), ?_, ?_⟩
  · rw [shrinks.config]
    exact capacity
  · rw [shrinks.config]
    exact orderlessCapacity

theorem checkIsFullAfterEviction_eq_ok {accountSequenceNumber : Option Nat} {draws : List Nat}
    (isOk : store.checkIsFullAfterEviction txn accountSequenceNumber draws = .ok after) :
    after = store ∨ after = evict store.parkingLotIndex.size draws store := by
  unfold checkIsFullAfterEviction at isOk
  split at isOk
  · obtain ⟨isReady, _, isOk⟩ := of_bind isOk
    split at isOk <;> cases isOk
    · exact .inr rfl
    · exact .inl rfl
  · cases isOk
    exact .inl rfl

theorem Sound.addTxn (sound : store.Sound numbered [] []) (insertable : store.Insertable txn)
    (isNew : store.transactions.lookup txn.key = none) (accountSequenceNumber : Option Nat) :
    (addTxn { store with
        accounts := Insert.insert txn.getSender store.accounts } txn
      accountSequenceNumber).Sound numbered [] [] := by
  have entered : Indexed { store with
      accounts := Insert.insert txn.getSender store.accounts }
      store.transactions [] [] := { sound.indexed with }
  refine ⟨⟨entered.addTxn isNew insertable.notReady ?_ _, ?_⟩, fun isNumbered address isEntry => ?_⟩
  · intro other found isFound sameHash
    rw [insertable.noCollision other found isFound sameHash, isNew] at isFound
    cases isFound
  · intro address
    have before := sound.accounts address
    simp only [TransactionStore.addTxn, HasTxns, Finset.mem_insert, lookup_insert_eq] at before ⊢
    rw [before]
    constructor
    · rintro (rfl | ⟨replayProtector, found, isFound⟩)
      · exact ⟨txn.getReplayProtector, txn, if_pos rfl⟩
      · exact ⟨replayProtector, _, by rw [isFound, ← apply_ite some]⟩
    · rintro ⟨replayProtector, found, isFound⟩
      grind [MempoolTransaction.key]
  · have before := sound.listed isNumbered address
    refine Finset.mem_insert.mpr ?_
    cases accountSequenceNumber with
    | none => exact .inr (before isEntry)
    | some => exact ((AList.mem_insert _).mp isEntry).imp_right before

/-- An account at its capacity has transactions. -/
theorem hasTxns_of_used (insertable : store.Insertable txn)
    (isFull : (store.usage txn).2 ≤ (store.usage txn).1) : store.HasTxns txn.getSender := by
  have hasTxns (condition : ReplayProtector → Bool)
      (some : 0 < (store.accountTxns txn.getSender condition).length) :
      store.HasTxns txn.getSender := by
    obtain ⟨found, isMember⟩ := exists_mem_of_length_pos some
    obtain ⟨replayProtector, _, isFound⟩ := mem_accountTxns.mp isMember
    exact ⟨replayProtector, found, isFound⟩
  unfold usage at isFull
  split at isFull
  · exact hasTxns _ (insertable.capacity.trans_le isFull)
  · exact hasTxns _ (insertable.orderlessCapacity.trans_le isFull)

section

variable {accountSequenceNumber : Option Nat} {draws : List Nat}
  {result : MempoolStatus × TransactionStore} (sound : store.Sound numbered [] [])
  (insertable : store.Insertable txn)

include sound insertable

theorem Sound.insertChecked (isNew : store.transactions.lookup txn.key = none)
    (isOk : store.insertChecked txn accountSequenceNumber draws = .ok result) :
    result.2.Sound numbered [] [] := by
  obtain ⟨evicted, isEvicted, isOk⟩ := of_bind isOk
  have ⟨shrinks, kept⟩ : Shrinks store evicted ∧ evicted.Sound numbered [] [] := by
    rcases checkIsFullAfterEviction_eq_ok isEvicted with rfl | rfl
    · exact ⟨.refl, sound⟩
    · exact ⟨evict_shrinks, sound.evict⟩
  have stillInsertable := insertable.shrink shrinks
  have stillNew := shrinks.isNew isNew
  split at isOk
  · cases isOk
    exact kept
  dsimp only at isOk
  split at isOk
  · rename_i isFull
    cases isOk
    have hasTxns := hasTxns_of_used stillInsertable isFull
    refine ⟨⟨{ kept.indexed with }, ?_⟩, fun isNumbered address isEntry =>
      Finset.mem_insert_of_mem (kept.listed isNumbered address isEntry)⟩
    intro address
    have before := kept.accounts address
    simp only [HasTxns, Finset.mem_insert] at before hasTxns ⊢
    grind
  · obtain ⟨after, isAfter, isOk⟩ := of_bind isOk
    cases isOk
    have added := kept.addTxn stillInsertable stillNew accountSequenceNumber
    unfold TransactionStore.processReady at isAfter
    split at isAfter
    · obtain ⟨number, _, isAfter⟩ := of_bind isAfter
      cases isAfter
      exact added.processReady _ _
    · cases isAfter
      unfold processReadyTransaction
      cases isTxn : (TransactionStore.addTxn _ txn
          accountSequenceNumber).transactions.lookup txn.key with
      | none => exact added
      | some found => exact added.promote isTxn

theorem Sound.insertNew (isNew : store.transactions.lookup txn.key = none)
    (isOk : store.insertNew txn accountSequenceNumber draws = .ok result) :
    result.2.Sound numbered [] [] := by
  unfold TransactionStore.insertNew at isOk
  split at isOk
  · exact sound.insertChecked insertable isNew isOk
  · obtain ⟨accSeqNum, _, isOk⟩ := of_bind isOk
    have cleaned := sound.clean txn.getSender accSeqNum
    split at isOk
    · cases isOk
      exact cleaned
    · exact cleaned.insertChecked (insertable.shrink clean_shrinks) (clean_shrinks.isNew isNew) isOk

theorem Sound.insert (isOk : store.insert txn accountSequenceNumber draws = .ok result) :
    result.2.Sound numbered [] [] := by
  unfold TransactionStore.insert at isOk
  split at isOk
  · rename_i isNew
    exact sound.insertNew insertable isNew isOk
  · rename_i current isCurrent
    split at isOk
    · cases isOk
      exact sound
    split at isOk
    · cases isOk
      exact sound
    split at isOk
    · cases isOk
      exact sound
    split at isOk
    · refine (sound.remove isCurrent).insertNew (insertable.shrink remove_shrinks) ?_ isOk
      rw [TransactionStore.remove, transactions_indexRemove, AList.lookup_erase]
    split at isOk
    · cases isOk
      exact sound
    · cases isOk
      split
      · exact sound.processReady _ _
      · exact sound

end

/-- What is asked of a call. -/
def Admissible (store : TransactionStore) : Call → Prop
  | .insert txn _ _ => store.Insertable txn
  | _ => True

def CommitsStored (store : TransactionStore) : Call → Prop
  | .commitTransaction account (.sequenceNumber _) => store.HasTxns account
  | _ => True

theorem Sound.perform (sound : store.Sound numbered [] []) {call : Call}
    (admissible : store.Admissible call) (isStored : numbered → store.CommitsStored call)
    (isOk : store.perform call = .ok after) : after.Sound numbered [] [] := by
  cases call with
  | insert =>
    obtain ⟨result, isResult, rfl⟩ := map_eq_ok.mp isOk
    exact sound.insert admissible isResult
  | commitTransaction account replayProtector =>
    cases isOk
    refine sound.commitTransaction account replayProtector ?_
    rintro isNumbered number rfl
    exact isStored isNumbered
  | rejectTransaction account replayProtector hash =>
    cases isOk
    unfold TransactionStore.rejectTransaction
    split
    · exact sound.removeKey _
    · exact sound
  | gcBySystemTtl gcTime =>
    cases isOk
    exact sound.gcBySystemTtl gcTime
  | gcByExpirationTime blockTime systemTime =>
    cases isOk
    exact sound.gcByExpirationTime blockTime systemTime

theorem new_sound (config : MempoolConfig) : (new config).Sound numbered [] [] := by
  refine ⟨⟨⟨?_, ?_, ?_, ?_, ?_, ?_, ?_, ParkingLotIndex.new_agrees, ?_, rfl⟩, ?_⟩, ?_⟩
    <;> simp [new, TimelineIndex.new, HasTxns, Listed, contains_iff,
      parked, Positions.find, ParkingLotIndex.new]

theorem run_sound {condition : TransactionStore → Call → Prop} (asks : ∀ store call,
      condition store call → store.Admissible call ∧ (numbered → store.CommitsStored call))
    {config : MempoolConfig} {calls : List Call} {reached : TransactionStore}
    (meets : RunMeets perform condition (new config) calls)
    (ran : runAll perform (new config) calls = .ok reached) : reached.Sound numbered [] [] := by
  have step (before : TransactionStore) (call : Call) (_ : call ∈ calls)
      (sound : before.Sound numbered [] []) (isMet : condition before call)
      (after : TransactionStore) (isOk : before.perform call = .ok after) :
      after.Sound numbered [] [] :=
    sound.perform (asks before call isMet).1 (asks before call isMet).2 isOk
  exact meets.invariant_of_ok (new_sound config) step ran

/-- After every run the indexes are those of the stored transactions. -/
theorem indexes_agree {config : MempoolConfig} {calls : List Call} {reached : TransactionStore}
    (meets : RunMeets perform Admissible (new config) calls)
    (ran : runAll perform (new config) calls = .ok reached) : reached.Consistent [] [] := by
  have sound : reached.Sound False [] [] :=
    run_sound (fun _ _ admissible => ⟨admissible, False.elim⟩) meets ran
  exact sound.toConsistent

/-- Unless numbers are committed for accounts without transactions, every account with a number
has one. -/
theorem numbered_accounts_have_txns {config : MempoolConfig} {calls : List Call}
    {reached : TransactionStore} (meets : RunMeets perform (fun store call =>
      store.Admissible call ∧ store.CommitsStored call) (new config) calls)
    (ran : runAll perform (new config) calls = .ok reached) {address : AccountAddress}
    (isEntry : address ∈ reached.accountSequenceNumbers) : reached.HasTxns address := by
  have sound : reached.Sound True [] [] :=
    run_sound (fun _ _ isMet => ⟨isMet.1, fun _ => isMet.2⟩) meets ran
  exact (sound.accounts address).mp (sound.listed trivial address isEntry)

end TransactionStore

/-! ## Runs on small stores -/

namespace Toy

open TransactionStore

def config : MempoolConfig := ⟨10, 1000, 5, 5, 1, [0], 10, none, 0⟩

def txn (replayProtector : ReplayProtector) (hash : HashValue)
    (timelineState : TimelineState) : MempoolTransaction :=
  ⟨⟨7, replayProtector, 0, 1, 10, 1, 20, hash⟩, 100, 1, timelineState, 0, false⟩

def first : MempoolTransaction := txn (.sequenceNumber 0) 3 .notReady

theorem first_insertable : (new config).Insertable first := by
  refine ⟨rfl, ?_, by decide, by decide⟩
  intro key found isFound
  cases isFound

/-- Its successor, which expires later. -/
def second : MempoolTransaction := ⟨(txn (.sequenceNumber 1) 4 .notReady).txn, 300, 1, .notReady, 0,
  false⟩

def insertAndCollect : List Call :=
  [.insert first (some 0) [], .insert second (some 0) [], .gcBySystemTtl 200]

/-- The successor is parked when the first transaction is collected. -/
theorem insertAndCollect_agrees :
    ∃ reached, runAll perform (new config) insertAndCollect = .ok reached ∧
      (reached.transactions.lookup second.key).isSome ∧ reached.Consistent [] [] := by
  have meets : RunMeets perform Admissible (new config) insertAndCollect := by
    refine .cons rfl first_insertable (.cons rfl ?_ (.cons rfl trivial trivial))
    refine ⟨rfl, ?_, by decide, by decide⟩
    intro key found isFound sameHash
    cases mem_singleton.mp (Table.lookup_eq_some_iff.mp isFound)
    cases sameHash
  exact ⟨_, rfl, by decide +kernel, indexes_agree meets rfl⟩

theorem insert_numbers_account :
    ∃ reached, runAll perform (new config) [.insert first (some 0) []] = .ok reached ∧
      7 ∈ reached.accountSequenceNumbers ∧ reached.HasTxns 7 := by
  have meets : RunMeets perform (fun store call => store.Admissible call ∧
      store.CommitsStored call) (new config) [.insert first (some 0) []] :=
    .cons rfl ⟨first_insertable, trivial⟩ trivial
  exact ⟨_, rfl, by decide, numbered_accounts_have_txns meets rfl (by decide)⟩

/-- A commit for an account without transactions leaves a number behind. -/
theorem commit_leaves_number :
    ∃ reached, runAll perform (new config) [.commitTransaction 9 (.sequenceNumber 0)] =
        .ok reached ∧
      9 ∈ reached.accountSequenceNumbers ∧ ¬ reached.HasTxns 9 := by
  refine ⟨_, rfl, by decide, ?_⟩
  rintro ⟨replayProtector, found, isFound⟩
  cases isFound

/-- An account without transactions keeps its entry, a transaction that comes as ready is in no
timeline, and of two with one hash the index names one. -/
theorem indexes_disagree : (∃ reached, runAll perform (new { config with capacityPerUser := 0 })
        [.insert first (some 0) []] = .ok reached ∧
      7 ∈ reached.accounts ∧ ¬ reached.HasTxns 7) ∧
    (∃ reached, runAll perform (new config)
        [.insert (txn (.nonce 0) 3 (.ready 5)) none []] = .ok reached ∧
      reached.transactions.lookup (7, .nonce 0) = some (txn (.nonce 0) 3 (.ready 5)) ∧
      ∀ which, (reached.timelineIndex which).timeline.lookup 5 = none) ∧
    (∃ reached, runAll perform (new config) [.insert first (some 0) [],
          .insert (txn (.nonce 0) 3 .notReady) none []] = .ok reached ∧
      (reached.transactions.lookup first.key).isSome = true ∧
      reached.hashIndex.lookup first.getCommittedHash = some (7, .nonce 0)) := by
  refine ⟨⟨_, rfl, by decide, ?_⟩, ⟨_, rfl, rfl, fun _ => rfl⟩, ⟨_, rfl, rfl, rfl⟩⟩
  rintro ⟨replayProtector, found, isFound⟩
  cases isFound

end Toy

end LumioNode.Mempool
