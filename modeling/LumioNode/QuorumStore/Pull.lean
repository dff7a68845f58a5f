import LumioNode.QuorumStore.BatchProofQueue

/-! # Pulling from the queue

A pull walks over the queues in rounds, one batch of each author per round, in a
shuffled order.  A request makes up to three pulls. -/

namespace LumioNode

open Library ProofOfStore

/-- The arguments of a pull, with the wall clock and the shuffles. -/
structure PullRequest where
  excludedBatches : List BatchInfo
  excludeAuthors : List AccountAddress
  maxTxns : PayloadTxnsSize
  maxTxnsAfterFiltering : Nat
  softMaxTxnsAfterFiltering : Nat
  returnNonFull : Bool
  blockTimestampSecs : Nat
  minBatchAgeUsecs : Option Nat
  clock : Nat
  shuffle : Shuffle (List (BatchSortKey × BatchInfo))

/-- The latest creation time of a batch that is old enough. -/
def PullRequest.maxBatchCreation (request : PullRequest) : Except Fault (Option Nat) :=
  match request.minBatchAgeUsecs with
  | none => .ok none
  | some minAge => (checkedSub request.clock minAge).map some

/-- The variables of the loop of `pull_internal`. -/
structure PullState where
  result : List QueueItem
  curUniqueTxns : Nat
  curAllTxns : PayloadTxnsSize
  filteredTxns : List TxnSummaryWithExpiration
  full : Bool

structure PullResult where
  items : List QueueItem
  allTxns : PayloadTxnsSize
  uniqueTxns : Nat
  isFull : Bool

namespace PullState

variable (request : PullRequest) (batchesWithoutProofs : Bool)

def isUnexpired (summary : TxnSummaryWithExpiration) : Bool :=
  decide (request.blockTimestampSecs < summary.expirationTimestampSecs)

def newTxns (state : PullState) (batch : BatchInfo) (item : QueueItem) : Nat :=
  match item.txnSummaries with
  | none => batch.numTxns
  | some summaries =>
    summaries.countP fun summary =>
      decide (summary ∉ state.filteredTxns) && isUnexpired request summary

/-- Counts the summaries that are new and unexpired. -/
def insertSummaries (filtered : List TxnSummaryWithExpiration) :
    List TxnSummaryWithExpiration → Nat × List TxnSummaryWithExpiration
  | [] => (0, filtered)
  | summary :: rest =>
    if summary ∈ filtered then insertSummaries filtered rest
    else
      let inserted := insertSummaries (summary :: filtered) rest
      (inserted.1 + (if isUnexpired request summary then 1 else 0), inserted.2)

def push (state : PullState) (batch : BatchInfo) (item : QueueItem) : PullState :=
  let inserted := match item.txnSummaries with
    | none => (batch.numTxns, state.filteredTxns)
    | some summaries => insertSummaries request state.filteredTxns summaries
  { state with
    curAllTxns := state.curAllTxns.add batch.size
    curUniqueTxns := state.curUniqueTxns + inserted.1
    filteredTxns := inserted.2
    result := state.result ++ [item] }

def atLimit (state : PullState) : Bool := decide (state.curAllTxns = request.maxTxns ∨
    state.curUniqueTxns = request.maxTxnsAfterFiltering ∨
    request.softMaxTxnsAfterFiltering ≤ state.curUniqueTxns)

/-- The flag says whether the author's iterator stays. -/
def offer (state : PullState) (batch : BatchInfo) (item : QueueItem) :
    Except Fault (PullState × Bool) :=
  if batch ∈ request.excludedBatches then .ok (state, true)
  else if (state.curAllTxns.add batch.size).exceeds request.maxTxns ∨
      request.maxTxnsAfterFiltering < state.curUniqueTxns + state.newTxns request batch item then
    .ok ({ state with full := true }, false)
  else do
    ensure (item.proof.isNone = batchesWithoutProofs) .panic
    let pushed := state.push request batch item
    if pushed.atLimit request then
      .ok ({ pushed with full := true }, false)
    else .ok (pushed, true)

end PullState

namespace BatchProofQueue

section Walk

variable (queue : BatchProofQueue) (request : PullRequest)
  (batchesWithoutProofs : Bool) (maxBatchCreation : Option Nat)

/-- `iter.next()`: the next entry that passes the filter, and the rest. -/
def nextBatch : List (BatchSortKey × BatchInfo) → Except Fault
        (Option ((BatchInfo × QueueItem) × List (BatchSortKey × BatchInfo)))
  | [] => .ok none
  | (sortKey, info) :: rest =>
    match queue.items.lookup sortKey.batchKey with
    | none => nextBatch rest
    | some item => do
        let batchCreate ← checkedSub item.info.expiration queue.batchExpiryGapWhenInitUsecs
        if maxBatchCreation.any (· < batchCreate) then nextBatch rest
        else if item.isCommitted then nextBatch rest
        else if batchesWithoutProofs = item.proof.isNone then
          .ok (some ((info, item), rest))
        else nextBatch rest

/-- One round of the walk: `iters.retain_mut(..)`. -/
def pullRound : List (List (BatchSortKey × BatchInfo)) → PullState →
      Except Fault (List (List (BatchSortKey × BatchInfo)) × PullState)
  | [], state => .ok ([], state)
  | iter :: rest, state =>
    if state.full then pullRound rest state
    else do
      match ← queue.nextBatch batchesWithoutProofs maxBatchCreation iter with
      | none => pullRound rest state
      | some ((batch, item), left) => do
          let (state, keep) ← state.offer request batchesWithoutProofs batch item
          let (kept, state) ← pullRound rest state
          .ok (if keep then left :: kept else kept, state)

/-- `while !iters.is_empty()`; each round shortens every iterator that it keeps. -/
def pullLoop : Nat → Nat → List (List (BatchSortKey × BatchInfo)) → PullState →
      Except Fault PullState
  | 0, _, _, state => .ok state
  | fuel + 1, round, iters, state =>
    if iters.isEmpty then .ok state
    else do
      let (kept, state) ← queue.pullRound request batchesWithoutProofs
        maxBatchCreation (request.shuffle.run round iters) state
      pullLoop fuel (round + 1) kept state

end Walk

variable (queue : BatchProofQueue)

def excludedTxns (excludedBatches : List BatchInfo) :
    List TxnSummaryWithExpiration :=
  excludedBatches.flatMap fun info =>
    ((queue.items.lookup (.fromInfo info)).bind QueueItem.txnSummaries).getD []

/-- The iterators of the authors that are not excluded, from the back of each queue. -/
def batchIters (excludeAuthors : List AccountAddress) :
    List (List (BatchSortKey × BatchInfo)) :=
  (queue.authorToBatches.entries.filter fun entry =>
    decide (entry.1 ∉ excludeAuthors)).map fun entry =>
      entry.2.entries.reverse

/-- A number of rounds after which no iterator is left. -/
def walkFuel (iters : List (List (BatchSortKey × BatchInfo))) : Nat :=
  (iters.map fun iter => iter.length + 1).sum

def pullInternal (batchesWithoutProofs : Bool)
    (request : PullRequest) : Except Fault PullResult := do
  let maxBatchCreation ← request.maxBatchCreation
  let iters := queue.batchIters request.excludeAuthors
  let state ← queue.pullLoop request batchesWithoutProofs maxBatchCreation (walkFuel iters) 0 iters
    { result := [], curUniqueTxns := 0, curAllTxns := .zero
      filteredTxns := queue.excludedTxns request.excludedBatches
      full := false }
  if state.full || request.returnNonFull then
    .ok {
      items := state.result.insertionSort fun left right =>
        right.info.gasBucketStart ≤ left.info.gasBucketStart
      allTxns := state.curAllTxns
      uniqueTxns := state.curUniqueTxns
      isFull := state.full }
  else
    .ok { items := [], allTxns := .zero, uniqueTxns := 0
          isFull := state.full }

def proofOf (item : QueueItem) : Except Fault ProofOfStore := do
  let proof ← expect .panic item.proof
  let _ ← expect .panic item.proofInsertionTime
  return proof

/-- The proofs, their size, the unique transactions, and whether all was pulled. -/
def pullProofs (request : PullRequest) :
    Except Fault (List ProofOfStore × PayloadTxnsSize × Nat × Bool) := do
  let pulled ← queue.pullInternal false
    { request with excludeAuthors := [], minBatchAgeUsecs := none }
  let proofs ← pulled.items.mapM proofOf
  return (proofs, pulled.allTxns, pulled.uniqueTxns, !pulled.isFull)

def pullBatches (request : PullRequest) :
    Except Fault (List BatchInfo × PayloadTxnsSize × Nat) := do
  let pulled ← queue.pullInternal true request
  return (pulled.items.map QueueItem.info, pulled.allTxns, pulled.uniqueTxns)

/-- `get_batch_from_local(digest)` and the payload it holds. -/
abbrev LocalBatches := HashValue → Option (Option (List SignedTransaction))

/-- Batches whose transactions are not stored are left out. -/
def withTransactions (store : LocalBatches) (batches : List BatchInfo) :
    List (BatchInfo × List SignedTransaction) :=
  batches.filterMap fun batch =>
    (store batch.digest).bind fun payload =>
      payload.map fun txns => (batch, txns)

def pullBatchesWithTransactions
    (store : LocalBatches) (request : PullRequest) :
    Except Fault (List (BatchInfo × List SignedTransaction) × PayloadTxnsSize × Nat) := do
  let (batches, pulledTxns, uniqueTxns) ← queue.pullBatches
    { request with excludeAuthors := [], minBatchAgeUsecs := none }
  return (withTransactions store batches, pulledTxns, uniqueTxns)

end BatchProofQueue

/-- `DirectMempool` never reaches the quorum store. -/
inductive PayloadFilter where
  | directMempool
  | inQuorumStore (batches : List BatchInfo)
  | empty

structure OptQSPayloadPullParams where
  excludeAuthors : List AccountAddress
  minimumBatchAgeUsecs : Nat

structure GetPayloadRequest where
  maxTxns : PayloadTxnsSize
  maxTxnsAfterFiltering : Nat
  softMaxTxnsAfterFiltering : Nat
  maybeOptqsPayloadPullParams : Option OptQSPayloadPullParams
  maxInlineTxns : PayloadTxnsSize
  returnNonFull : Bool
  filter : PayloadFilter
  blockTimestampSecs : Nat

/-- The wall clock, the stored batches and the shuffles of the three pulls. -/
structure ProposalEnv where
  clock : Nat
  store : BatchProofQueue.LocalBatches
  proofShuffle : Shuffle (List (BatchSortKey × BatchInfo))
  optShuffle : Shuffle (List (BatchSortKey × BatchInfo))
  inlineShuffle : Shuffle (List (BatchSortKey × BatchInfo))

structure ProofManager where
  batchProofQueue : BatchProofQueue
  allowBatchesWithoutPosInProposal : Bool
  enablePayloadV2 : Bool

namespace PayloadFilter

def excludedBatches : PayloadFilter → Except Fault (List BatchInfo)
  | empty => .ok []
  | directMempool => .error .panic
  | inQuorumStore batches => .ok batches

end PayloadFilter

namespace GetPayloadRequest

variable (request : GetPayloadRequest) (env : ProposalEnv)

end GetPayloadRequest

namespace ProofManager

variable (manager : ProofManager) (env : ProposalEnv) (request : GetPayloadRequest)

end ProofManager

namespace Payload

end Payload

end LumioNode
