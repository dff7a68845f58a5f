import LumioNode.Mempool.Index
import LumioNode.Library.Fallible

/-! # The transaction store

The maps of all accounts are one table, with the accounts that have a map; random draws
and times are arguments. -/

namespace LumioNode.Mempool

open Library

structure MempoolConfig where
  capacity : Nat
  capacityBytes : Nat
  capacityPerUser : Nat
  orderlessTxnCapacityPerUser : Nat
  numSenderBuckets : Nat
  broadcastBuckets : List Nat
  /-- What the size of a transaction is estimated to be beside its bytes. -/
  txnOverheadBytes : Nat
  eagerExpireThreshold : Option Nat
  eagerExpireTime : Nat

namespace MempoolConfig

variable (config : MempoolConfig) (txn : MempoolTransaction)

def getEstimatedBytes : Nat := txn.txn.rawTxnBytesLen + config.txnOverheadBytes

def timelineOf : Nat × Nat := (senderBucket txn.getSender config.numSenderBuckets,
    bucketIndex config.broadcastBuckets txn.rankingScore)

end MempoolConfig

structure TransactionStore where
  config : MempoolConfig
  accounts : Finset AccountAddress
  transactions : Table TxnKey MempoolTransaction
  accountSequenceNumbers : Table AccountAddress Nat
  priorityIndex : Finset OrderedQueueKey
  expirationTimeIndex : Finset TTLOrderingKey
  systemTtlIndex : Finset TTLOrderingKey
  timelineIndex : Nat × Nat → TimelineIndex
  parkingLotIndex : ParkingLotIndex
  hashIndex : Table HashValue TxnKey
  sizeBytes : Nat

inductive MempoolStatusCode where
  | accepted
  | invalidUpdate
  | invalidSeqNumber
  | mempoolIsFull
  | tooManyTransactions

structure MempoolStatus where
  code : MempoolStatusCode
  message : String

namespace TransactionStore

def new (config : MempoolConfig) : TransactionStore :=
  ⟨config, ∅, ∅, ∅, ∅, ∅, ∅, fun _ => .new, .new, ∅, 0⟩

variable (store : TransactionStore)

/-! ## Reading -/

variable (address : AccountAddress)

def accountTxns
    (condition : ReplayProtector → Bool) : List MempoolTransaction :=
  (store.transactions.entries.filter fun entry =>
    decide (entry.1.1 = address) && condition entry.1.2).map (·.2)

/-- A range of sequence numbers, both bounds excluded. -/
def betweenNumbers (start : Nat) (stop : Option Nat) : ReplayProtector → Bool
  | .sequenceNumber number => decide (start < number) && stop.all (number < ·)
  | .nonce _ => false

def belowNumber (stop : Nat) : ReplayProtector → Bool
  | .sequenceNumber number => decide (number < stop)
  | .nonce _ => false

def seqNumTxnsLen : Nat := (store.accountTxns address
    fun | .sequenceNumber _ => true | .nonce _ => false).length

def orderlessTxnsLen : Nat := (store.accountTxns address
    fun | .sequenceNumber _ => false | .nonce _ => true).length

def isFull : Bool := decide (store.config.capacity ≤ store.systemTtlIndex.card) ||
    decide (store.config.capacityBytes ≤ store.sizeBytes)

/-! ## Removing -/

variable (txn : MempoolTransaction)

def timelineRemove : Nat × Nat → TimelineIndex :=
  Function.update store.timelineIndex (store.config.timelineOf txn)
    ((store.timelineIndex (store.config.timelineOf txn)).remove txn.timelineState)

/-- The account's structures are removed with its last transaction. -/
def dropEmptyAccount : TransactionStore := if address ∈ store.accounts ∧
      store.accountTxns address (fun _ => true) = [] then
    { store with
      accounts := store.accounts.erase address
      accountSequenceNumbers := store.accountSequenceNumbers.erase address }
  else store

def indexRemove : TransactionStore :=
  { store with
    systemTtlIndex := store.systemTtlIndex.erase txn.systemTtlKey
    expirationTimeIndex := store.expirationTimeIndex.erase txn.expirationTimeKey
    priorityIndex := store.priorityIndex.erase txn.orderedQueueKey
    timelineIndex := store.timelineRemove txn
    parkingLotIndex := store.parkingLotIndex.remove txn
    hashIndex := store.hashIndex.erase txn.getCommittedHash
    sizeBytes := store.sizeBytes - store.config.getEstimatedBytes txn
    : TransactionStore }.dropEmptyAccount txn.getSender

def remove (key : TxnKey) (txn : MempoolTransaction) : TransactionStore :=
  { store with transactions := store.transactions.erase key }.indexRemove txn

def cleanCommittedTransactionsBelowAccountSeqNum
    (accountSequenceNumber : Nat) : TransactionStore :=
  let txnsForRemoval := store.accountTxns address (belowNumber accountSequenceNumber)
  txnsForRemoval.foldl indexRemove
    { store with
      transactions := store.transactions.retain fun key _ =>
        !(decide (key.1 = address) && belowNumber accountSequenceNumber key.2) }

/-! ## Promoting and parking -/

/-- Puts a stored transaction into its timeline, which gives it an id. -/
def timelineInsert (key : TxnKey) (txn : MempoolTransaction) : TransactionStore :=
  let timeline := store.timelineIndex (store.config.timelineOf txn)
  { store with
    timelineIndex := Function.update store.timelineIndex
      (store.config.timelineOf txn) (timeline.insert key)
    transactions := store.transactions.insert key
      { txn with timelineState := .ready timeline.nextTimelineId } }

def promote (key : TxnKey) (txn : MempoolTransaction) : TransactionStore :=
  let listed := { store with
    priorityIndex := insert txn.orderedQueueKey store.priorityIndex
    parkingLotIndex := store.parkingLotIndex.remove txn }
  if txn.timelineState = .notReady then listed.timelineInsert key txn
  else listed

def processReadyTransaction (key : TxnKey) : Option TransactionStore :=
  (store.transactions.lookup key).map (store.promote key)

/-- `parking_lot_index.insert`, which also marks the transaction. -/
def park : TransactionStore := match txn.getReplayProtector with
  | .nonce _ => store
  | .sequenceNumber _ =>
    { store with
      parkingLotIndex := store.parkingLotIndex.insert txn
      transactions := store.transactions.insert txn.key { txn with wasParked := true } }

/-- No sequence number of the account is larger. -/
def largestNumber (address : AccountAddress) : Nat :=
  ((store.accountTxns address fun _ => true).map fun txn =>
    match txn.getReplayProtector with
    | .sequenceNumber number => number
    | .nonce _ => 0).foldr max 0

/-- Promotes from a number on, up to the first that is not stored. -/
def promoteFrom (address : AccountAddress) :
    (fuel : Nat) → Nat → TransactionStore → Nat × TransactionStore
  | 0, minSeq, store => (minSeq, store)
  | fuel + 1, minSeq, store =>
    match store.processReadyTransaction (address, .sequenceNumber minSeq) with
    | some after => promoteFrom address fuel (minSeq + 1) after
    | none => (minSeq, store)

def parkUnlessReady : TransactionStore :=
  if txn.timelineState.isReady then store else store.park txn

def processReadySeqNumBasedTransactions
    (accountSequenceNum : Nat) : TransactionStore :=
  let (minSeq, store) := promoteFrom address
    (store.largestNumber address + 1) accountSequenceNum store
  (store.accountTxns address (betweenNumbers minSeq none)).foldl parkUnlessReady store

/-! ## Inserting -/

variable (accountSequenceNumber : Option Nat)

def checkTxnReady : Except Fault Bool :=
  match txn.getReplayProtector with
  | .nonce _ => .ok true
  | .sequenceNumber number => do
      let accountSequenceNumber ← expect Fault.panic accountSequenceNumber
      if number = accountSequenceNumber then return true
      else do
        ensure (number ≠ 0) .panic
        return (store.transactions.lookup (txn.getSender, .sequenceNumber (number - 1))).any
            (·.timelineState.isReady)

/-- Every round takes one transaction from the parking lot, whose size is the fuel. -/
def evict : (fuel : Nat) → List Nat → TransactionStore → TransactionStore
  | 0, _, store => store
  | fuel + 1, draws, store =>
    match store.parkingLotIndex.getPoppable draws.headI with
    | none => store
    | some key =>
      match store.transactions.lookup key with
      | none => store
      | some txn =>
        let after := store.remove key txn
        if after.isFull then evict fuel draws.tail after else after

def checkIsFullAfterEviction
    (draws : List Nat) : Except Fault TransactionStore :=
  if store.isFull then do
    let isReady ← store.checkTxnReady txn accountSequenceNumber
    if isReady then return evict store.parkingLotIndex.size draws store
    else return store
  else return store

def addTxn : TransactionStore :=
  { store with
    systemTtlIndex := insert txn.systemTtlKey store.systemTtlIndex
    expirationTimeIndex := insert txn.expirationTimeKey store.expirationTimeIndex
    hashIndex := store.hashIndex.insert txn.getCommittedHash txn.key
    accountSequenceNumbers := match accountSequenceNumber with
      | some number => store.accountSequenceNumbers.insert txn.getSender number
      | none => store.accountSequenceNumbers
    sizeBytes := store.sizeBytes + store.config.getEstimatedBytes txn
    transactions := store.transactions.insert txn.key txn }

/-- The transactions of this kind that an account has, and may have. -/
def usage : Nat × Nat := match txn.getReplayProtector with
  | .sequenceNumber _ =>
    (store.seqNumTxnsLen txn.getSender, store.config.capacityPerUser)
  | .nonce _ => (store.orderlessTxnsLen txn.getSender,
      store.config.orderlessTxnCapacityPerUser)

def kindName : ReplayProtector → String
  | .sequenceNumber _ => "seq number"
  | .nonce _ => "orderless"

def processReady : Except Fault TransactionStore :=
  match txn.getReplayProtector with
  | .sequenceNumber _ => do
      let number ← expect Fault.panic accountSequenceNumber
      return store.processReadySeqNumBasedTransactions txn.getSender number
  | .nonce _ => return (store.processReadyTransaction txn.key).getD store

def insertChecked
    (draws : List Nat) : Except Fault (MempoolStatus × TransactionStore) := do
  let store ← store.checkIsFullAfterEviction txn accountSequenceNumber draws
  if store.isFull then
    return (⟨.mempoolIsFull, s!"Mempool is full. Mempool size: {
      store.systemTtlIndex.card}, Capacity: {store.config.capacity}"⟩, store)
  else do
    let entered := { store with accounts := insert txn.getSender store.accounts }
    let (used, capacity) := entered.usage txn
    if capacity ≤ used then
      return (⟨.tooManyTransactions, s!"Mempool over capacity for account. Number of {
        kindName txn.getReplayProtector} transactions from account: {
        used} Capacity per account: {capacity}"⟩, entered)
    else do
      let after ← (entered.addTxn txn accountSequenceNumber).processReady txn accountSequenceNumber
      return (⟨.accepted, ""⟩, after)

def insertNew (draws : List Nat) :
    Except Fault (MempoolStatus × TransactionStore) :=
  match txn.getReplayProtector with
  | .nonce _ => store.insertChecked txn accountSequenceNumber draws
  | .sequenceNumber number => do
      let accSeqNum ← expect Fault.panic accountSequenceNumber
      let store := store.cleanCommittedTransactionsBelowAccountSeqNum txn.getSender accSeqNum
      if number < accSeqNum then
        return (⟨.invalidSeqNumber, s!"transaction sequence number is {
          number}, current sequence number is  {accSeqNum}"⟩, store)
      else store.insertChecked txn accountSequenceNumber draws

/-- The account's sequence number never goes back. -/
def raised (address : AccountAddress) (accountSequenceNumber : Option Nat) : Option Nat :=
  accountSequenceNumber.map fun number =>
    max number ((store.accountSequenceNumbers.lookup address).getD 0)

/-- A transaction that is already stored may only raise its gas price. -/
def insert
    (draws : List Nat) : Except Fault (MempoolStatus × TransactionStore) :=
  let accountSequenceNumber := store.raised txn.getSender accountSequenceNumber
  match store.transactions.lookup txn.key with
  | none => store.insertNew txn accountSequenceNumber draws
  | some current =>
    if current.txn.payload ≠ txn.txn.payload then
      .ok (⟨.invalidUpdate, "Transaction already in mempool with a different payload"⟩, store)
    else if current.txn.expirationTimestampSecs ≠ txn.txn.expirationTimestampSecs then
      .ok (⟨.invalidUpdate, "Transaction already in mempool with a different expiration timestamp"⟩,
        store)
    else if current.txn.maxGasAmount ≠ txn.txn.maxGasAmount then
      .ok (⟨.invalidUpdate, "Transaction already in mempool with a different max gas amount"⟩,
        store)
    else if current.getGasPrice < txn.getGasPrice then
      (store.remove txn.key current).insertNew txn accountSequenceNumber draws
    else if txn.getGasPrice < current.getGasPrice then
      .ok (⟨.invalidUpdate, "Transaction already in mempool with a higher gas price"⟩, store)
    else
      .ok (⟨.accepted, ""⟩, match accountSequenceNumber with
        | some number =>
          store.processReadySeqNumBasedTransactions txn.getSender number
        | none => store)

/-! ## Committing, rejecting and collecting -/

def commitTransaction (account : AccountAddress)
    (replayProtector : ReplayProtector) : TransactionStore :=
  match replayProtector with
  | .sequenceNumber number =>
    let next := max ((store.accountSequenceNumbers.lookup account).getD 0) (number + 1)
    (cleanCommittedTransactionsBelowAccountSeqNum
      { store with accountSequenceNumbers := store.accountSequenceNumbers.insert account next }
      account next).processReadySeqNumBasedTransactions account next
  | .nonce _ =>
    match store.transactions.lookup (account, replayProtector) with
    | some txn => store.remove (account, replayProtector) txn
    | none => store

def rejectTransaction (account : AccountAddress) (replayProtector : ReplayProtector)
    (hash : HashValue) : TransactionStore :=
  if store.hashIndex.lookup hash = some (account, replayProtector) then
    match store.transactions.lookup (account, replayProtector) with
    | some txn => store.remove (account, replayProtector) txn
    | none => store
  else store

/-- Parks a transaction that follows one that is collected. -/
def demote : TransactionStore :=
  { store with
    parkingLotIndex := store.parkingLotIndex.insert txn
    priorityIndex := store.priorityIndex.erase txn.orderedQueueKey
    timelineIndex := store.timelineRemove txn
    transactions := store.transactions.insert txn.key
      { txn with
        wasParked := true
        timelineState := if txn.timelineState.isReady then .notReady
          else txn.timelineState } }

/-- Where parking ends: at the next key that is collected. -/
def parkRangeEnd (key : TTLOrderingKey) : Option TTLOrderingKey → Option Nat
  | some ⟨_, address, .sequenceNumber number⟩ =>
    if key.address = address then some number else none
  | _ => none

def gcKey (key : TTLOrderingKey) (next : Option TTLOrderingKey) : TransactionStore :=
  let parked := match key.replayProtector with
    | .sequenceNumber number =>
      (store.accountTxns key.address
        (betweenNumbers number (parkRangeEnd key next))).foldl demote store
    | .nonce _ => store
  match parked.transactions.lookup (key.address, key.replayProtector) with
  | some txn => parked.remove (key.address, key.replayProtector) txn
  | none => parked

def gcLoop : List TTLOrderingKey → TransactionStore → TransactionStore
  | [], store => store
  | key :: rest, store => gcLoop rest (store.gcKey key rest.head?)

def expiredKeys (index : Finset TTLOrderingKey) (now : Nat) : List TTLOrderingKey :=
  ((index.filter (· < .limit now)).sort (· ≤ ·)).mergeSort TTLOrderingKey.byReplayProtector

def gcBySystemTtl (now : Nat) : TransactionStore := gcLoop (expiredKeys store.systemTtlIndex now)
    { store with systemTtlIndex := store.systemTtlIndex.filter fun key => ¬ key < .limit now }

/-- Under a backlog transactions expire earlier; the oldest of the first twenty tells. -/
def eagerExpireTime (gcTime systemTime : Nat) : Nat := match store.config.eagerExpireThreshold with
  | none => gcTime
  | some threshold =>
    let oldest := ((store.systemTtlIndex.sort (· ≤ ·)).take 20).findSome? fun key =>
        match store.transactions.lookup (key.address, key.replayProtector) with
        | some txn => if txn.wasParked then none else some txn.insertionTime
        | none => none
    match oldest with
    | some insertionTime =>
      if insertionTime + threshold < systemTime then
        gcTime + store.config.eagerExpireTime
      else gcTime
    | none => gcTime

def gcByExpirationTime (blockTime systemTime : Nat) : TransactionStore :=
  let now := store.eagerExpireTime blockTime systemTime
  gcLoop (expiredKeys store.expirationTimeIndex now)
    { store with expirationTimeIndex :=
        store.expirationTimeIndex.filter fun key => ¬ key < .limit now }

/-! ## Calls -/

end TransactionStore

inductive Call where
  | insert (txn : MempoolTransaction) (accountSequenceNumber : Option Nat)
      (draws : List Nat)
  | commitTransaction (account : AccountAddress)
      (replayProtector : ReplayProtector)
  | rejectTransaction (account : AccountAddress)
      (replayProtector : ReplayProtector) (hash : HashValue)
  | gcBySystemTtl (gcTime : Nat)
  | gcByExpirationTime (blockTime systemTime : Nat)

def TransactionStore.perform (store : TransactionStore) : Call → Except Fault TransactionStore
  | .insert txn accountSequenceNumber draws =>
    (store.insert txn accountSequenceNumber draws).map (·.2)
  | .commitTransaction account replayProtector =>
    .ok (store.commitTransaction account replayProtector)
  | .rejectTransaction account replayProtector hash =>
    .ok (store.rejectTransaction account replayProtector hash)
  | .gcBySystemTtl gcTime => .ok (store.gcBySystemTtl gcTime)
  | .gcByExpirationTime blockTime systemTime =>
    .ok (store.gcByExpirationTime blockTime systemTime)

end LumioNode.Mempool
