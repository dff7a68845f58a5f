import LumioNode.ConsensusTypes.Block
import LumioNode.Library.Table
import LumioNode.QuorumStore.TimeExpirations
import Mathlib.Data.Prod.Lex

/-! # The queue of batches and proofs

Items by author and batch id, a queue of infos per author, and a heap of expirations.  A
subtraction below zero panics. -/

namespace LumioNode

open Library

inductive ReplayProtector where
  | nonce (value : Nat)
  | sequenceNumber (value : Nat)
deriving DecidableEq

structure TxnSummaryWithExpiration where
  sender : AccountAddress
  replayProtector : ReplayProtector
  expirationTimestampSecs : Nat
  hash : HashValue
deriving DecidableEq

structure BatchKey where
  author : AccountAddress
  batchId : Nat
deriving DecidableEq

def BatchKey.fromInfo (info : BatchInfo) : BatchKey := ⟨info.author, info.batchId⟩

structure BatchSortKey where
  batchKey : BatchKey
  gasBucketStart : Nat

namespace BatchSortKey

def fromInfo (info : BatchInfo) : BatchSortKey := ⟨.fromInfo info, info.gasBucketStart⟩

def author (key : BatchSortKey) : AccountAddress := key.batchKey.author

/-- Ascending in the gas bucket, then descending in the batch id; the source compares no more. -/
def rank (key : BatchSortKey) : Nat ×ₗ (Natᵒᵈ ×ₗ AccountAddress) := toLex (key.gasBucketStart,
    toLex (OrderDual.toDual key.batchKey.batchId, key.batchKey.author))

theorem rank_injective : Function.Injective rank := by
  rintro ⟨⟨author, batchId⟩, bucket⟩ ⟨⟨author', batchId'⟩, bucket'⟩ same
  have pairs := Prod.mk.inj (toLex.injective same)
  simp_all

instance : LinearOrder BatchSortKey := LinearOrder.lift' rank rank_injective

end BatchSortKey

/-- What the queue knows of one batch. -/
structure QueueItem where
  info : BatchInfo
  txnSummaries : Option (List TxnSummaryWithExpiration)
  proof : Option ProofOfStore
  proofInsertionTime : Option Nat
deriving DecidableEq

namespace QueueItem

def isCommitted (item : QueueItem) : Bool := item.proof.isNone && item.proofInsertionTime.isNone &&
    item.txnSummaries.isNone

def markCommitted (item : QueueItem) : QueueItem :=
  { item with proof := none, proofInsertionTime := none,
              txnSummaries := none }

/-- The entry for a batch after its proof is inserted. -/
def withProof (known : Option QueueItem) (proof : ProofOfStore) (instant : Nat) : QueueItem :=
  match known with
  | some item =>
    { item with proof := some proof, proofInsertionTime := some instant }
  | none =>
    { info := proof.info, proof := some proof
      proofInsertionTime := some instant, txnSummaries := none }

def withSummaries (known : Option QueueItem) (info : BatchInfo)
    (txnSummaries : List TxnSummaryWithExpiration) : QueueItem :=
  match known with
  | some item => { item with txnSummaries := some txnSummaries }
  | none =>
    { info := info, proof := none, proofInsertionTime := none
      txnSummaries := some txnSummaries }

end QueueItem

/-- The order in which a hash set is iterated or a vector is shuffled. -/
structure Shuffle (α : Type) where
  run : Nat → List α → List α
  perm : ∀ round items, (run round items).Perm items

def Shuffle.keepOrder (α : Type) : Shuffle α := ⟨fun _ items => items, fun _ _ => .rfl⟩

abbrev BatchQueue := SortedMap BatchSortKey BatchInfo

structure BatchProofQueue where
  myPeerId : AccountAddress
  authorToBatches : Table AccountAddress BatchQueue
  items : Table BatchKey QueueItem
  txnSummaryNumOccurrences : Table TxnSummaryWithExpiration Nat
  expirations : TimeExpirations BatchSortKey
  latestBlockTimestamp : Nat
  remainingTxnsWithDuplicates : Nat
  remainingProofs : Nat
  remainingLocalTxns : Nat
  remainingLocalProofs : Nat
  batchExpiryGapWhenInitUsecs : Nat

namespace BatchProofQueue

def new (myPeerId : AccountAddress) (batchExpiryGapWhenInitUsecs : Nat) : BatchProofQueue where
  myPeerId := myPeerId
  authorToBatches := ∅
  items := ∅
  txnSummaryNumOccurrences := ∅
  expirations := .new
  latestBlockTimestamp := 0
  remainingTxnsWithDuplicates := 0
  remainingProofs := 0
  remainingLocalTxns := 0
  remainingLocalProofs := 0
  batchExpiryGapWhenInitUsecs := batchExpiryGapWhenInitUsecs

variable (queue : BatchProofQueue)

def incRemainingProofs (author : AccountAddress)
    (numTxns : Nat) : BatchProofQueue :=
  let isLocal := author = queue.myPeerId
  { queue with
    remainingTxnsWithDuplicates := queue.remainingTxnsWithDuplicates + numTxns
    remainingProofs := queue.remainingProofs + 1
    remainingLocalTxns := queue.remainingLocalTxns + if isLocal then numTxns else 0
    remainingLocalProofs := queue.remainingLocalProofs + if isLocal then 1 else 0 }

def decRemainingProofs (author : AccountAddress)
    (numTxns : Nat) : Except Fault BatchProofQueue := do
  let isLocal := author = queue.myPeerId
  let txns ← checkedSub queue.remainingTxnsWithDuplicates numTxns
  let proofs ← checkedSub queue.remainingProofs 1
  let localTxns ← checkedSub queue.remainingLocalTxns (if isLocal then numTxns else 0)
  let localProofs ← checkedSub queue.remainingLocalProofs (if isLocal then 1 else 0)
  return { queue with
    remainingTxnsWithDuplicates := txns
    remainingProofs := proofs
    remainingLocalTxns := localTxns
    remainingLocalProofs := localProofs }

/-- `author_to_batches.get(author)`, empty where the author has no queue. -/
def batchesOf (author : AccountAddress) : BatchQueue :=
  (queue.authorToBatches.lookup author).getD .empty

/-- `author_to_batches.entry(author).or_default().insert(sort_key, info)`. -/
def enqueue (info : BatchInfo) : BatchProofQueue :=
  { queue with
    authorToBatches := queue.authorToBatches.insert info.author
      ((queue.batchesOf info.author).insert (.fromInfo info) info) }

def addExpiration (info : BatchInfo) : BatchProofQueue :=
  { queue with
    expirations := queue.expirations.addItem (.fromInfo info) info.expiration }

/-- `*num_occurrences.entry(summary).or_insert(0) += 1` for each summary. -/
def addOccurrences (occurrences : Table TxnSummaryWithExpiration Nat) :
    List TxnSummaryWithExpiration → Table TxnSummaryWithExpiration Nat
  | [] => occurrences
  | summary :: rest =>
    addOccurrences (occurrences.insert summary ((occurrences.lookup summary).getD 0 + 1)) rest

/-- A count of zero is removed, and a summary without a count is passed over. -/
def removeOccurrences (occurrences : Table TxnSummaryWithExpiration Nat) :
    List TxnSummaryWithExpiration → Except Fault (Table TxnSummaryWithExpiration Nat)
  | [] => .ok occurrences
  | summary :: rest =>
    match occurrences.lookup summary with
    | none => removeOccurrences occurrences rest
    | some count => do
        let left ← checkedSub count 1
        if left = 0 then removeOccurrences (occurrences.erase summary) rest
        else removeOccurrences (occurrences.insert summary left) rest

/-- Whether an item is only a summary that the wall clock has passed. -/
def isExpiredSummary (timestamp : Nat) (item : QueueItem) : Bool :=
  !(item.isCommitted || item.proof.isSome || decide (timestamp < item.info.expiration))

def dequeue (authorToBatches : Table AccountAddress BatchQueue)
    (info : BatchInfo) : Table AccountAddress BatchQueue :=
  match authorToBatches.lookup info.author with
  | none => authorToBatches
  | some batches =>
    authorToBatches.insert info.author (batches.erase (.fromInfo info))

def gcExpiredBatchSummariesWithoutProofs
    (timestamp : Nat) : BatchProofQueue :=
  { queue with
    items := queue.items.retain fun _ item =>
      !isExpiredSummary timestamp item
    authorToBatches := ((queue.items.entries.map fun entry =>
        entry.2).filter (isExpiredSummary timestamp)).foldl
      (fun batches item => dequeue batches item.info)
      queue.authorToBatches }

/-- The collection is sampled: it runs when the call is told the time. -/
def sampleGc (collectAt : Option Nat) : BatchProofQueue :=
  match collectAt with
  | none => queue
  | some timestamp => queue.gcExpiredBatchSummariesWithoutProofs timestamp

def insertProof (proof : ProofOfStore)
    (instant : Nat) (collectAt : Option Nat) : BatchProofQueue :=
  let batchKey := BatchKey.fromInfo proof.info
  let known := queue.items.lookup batchKey
  if proof.info.expiration ≤ queue.latestBlockTimestamp then queue
  else if known.any fun item => item.proof.isSome || item.isCommitted then
    queue
  else
    let queued := (queue.enqueue proof.info).addExpiration proof.info
    let summaries := (known.bind QueueItem.txnSummaries).getD []
    let inserted := { queued with
      txnSummaryNumOccurrences := addOccurrences queued.txnSummaryNumOccurrences summaries
      items := queued.items.insert batchKey (QueueItem.withProof known proof instant) }
    (inserted.incRemainingProofs proof.info.author proof.info.numTxns).sampleGc collectAt

/-- One turn of the loop of `insert_batches`. -/
def insertBatch (info : BatchInfo)
    (txnSummaries : List TxnSummaryWithExpiration) : BatchProofQueue :=
  let batchKey := BatchKey.fromInfo info
  let known := queue.items.lookup batchKey
  if known.any fun item => item.isCommitted || item.txnSummaries.isSome then
    queue
  else
    let queued := (queue.enqueue info).addExpiration info
    { queued with
      txnSummaryNumOccurrences := if known.any fun item => item.proof.isSome then
          addOccurrences queued.txnSummaryNumOccurrences txnSummaries
        else queued.txnSummaryNumOccurrences
      items := queued.items.insert batchKey (QueueItem.withSummaries known info txnSummaries) }

def insertBatches
    (batchesWithTxnSummaries : List (BatchInfo × List TxnSummaryWithExpiration))
    (collectAt : Option Nat) : BatchProofQueue :=
  (batchesWithTxnSummaries.foldl
    (fun queue batch => queue.insertBatch batch.1 batch.2) queue).sampleGc
    collectAt

def removeProof (item : QueueItem)
    (batch : BatchInfo) : Except Fault BatchProofQueue := do
  let occurrences ← removeOccurrences queue.txnSummaryNumOccurrences (item.txnSummaries.getD [])
  { queue with txnSummaryNumOccurrences := occurrences }.decRemainingProofs
    batch.author batch.numTxns

def removeExpired (blockTimestamp : Nat) (key : BatchSortKey)
    (batch : BatchInfo) : Except Fault BatchProofQueue := do
  let item ← expect .panic (queue.items.lookup key.batchKey)
  let queue ← if item.proof.isSome then do
      let _ ← checkedSub blockTimestamp batch.expiration
      queue.removeProof item batch
    else .ok queue
  .ok { queue with items := queue.items.erase key.batchKey }

/-- One turn of the loop of `handle_updated_block_timestamp`; an empty queue is dropped. -/
def expireKey (blockTimestamp : Nat)
    (key : BatchSortKey) : Except Fault BatchProofQueue :=
  match queue.authorToBatches.lookup key.author with
  | none => .ok queue
  | some batches => do
      let queue ← match batches.get? key with
        | none => .ok queue
        | some batch => queue.removeExpired blockTimestamp key batch
      let rest := batches.erase key
      let others := queue.authorToBatches.erase key.author
      .ok { queue with
        authorToBatches := if rest.isEmpty then others else others.insert key.author rest }

def expireKeys (queue : BatchProofQueue) (blockTimestamp : Nat) :
    List BatchSortKey → Except Fault BatchProofQueue
  | [] => .ok queue
  | key :: rest => do
      let queue ← queue.expireKey blockTimestamp key
      queue.expireKeys blockTimestamp rest

def handleUpdatedBlockTimestamp (blockTimestamp : Nat)
    (iteration : Shuffle BatchSortKey) : Except Fault BatchProofQueue :=
  if blockTimestamp < queue.latestBlockTimestamp then .ok queue
  else
    let expired := queue.expirations.expire blockTimestamp
    { queue with
      latestBlockTimestamp := blockTimestamp
      expirations := expired.2 }.expireKeys blockTimestamp (iteration.run 0 expired.1)

/-- One turn of the loop of `mark_committed`. -/
def markBatchCommitted (batch : BatchInfo) :
    Except Fault BatchProofQueue :=
  let batchKey := BatchKey.fromInfo batch
  match queue.items.lookup batchKey with
  | some item => do
      let queue ← if item.proof.isSome then do
          let _ ← expect .panic item.proofInsertionTime
          queue.removeProof item batch
        else .ok queue
      .ok { queue with
        items := queue.items.insert batchKey item.markCommitted }
  | none =>
    let queued := (queue.addExpiration batch).enqueue batch
    .ok { queued with
      items := queued.items.insert batchKey
        { info := batch, txnSummaries := none, proof := none
          proofInsertionTime := none } }

def markCommitted (queue : BatchProofQueue) : List BatchInfo → Except Fault BatchProofQueue
  | [] => .ok queue
  | batch :: rest => do
      let queue ← queue.markBatchCommitted batch
      queue.markCommitted rest

end BatchProofQueue

end LumioNode
