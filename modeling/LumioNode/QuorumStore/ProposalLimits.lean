import LumioNode.QuorumStore.HonestAuthors
import Mathlib.Algebra.Order.BigOperators.Group.List

/-! # The limits of a proposal payload

A subtraction may raise the bytes that are left to the number of transactions, and the
inline pull does not know the unique transactions of the optimistic one. -/

namespace LumioNode

open Library BatchProofQueue PayloadTxnsSize ProofOfStore BatchInfo ProofManager List

section

variable (txnsOf : BatchInfo → List TxnSummaryWithExpiration)

def BatchProofQueue.Queues (queue : BatchProofQueue) (info : BatchInfo) : Prop :=
  ∃ author key, entryAt queue.authorToBatches author key = some info

/-- An info is not contradicted by the item that is stored under its key. -/
def BatchProofQueue.Agrees (queue : BatchProofQueue) (info : BatchInfo) : Prop :=
  ∀ item, queue.items.lookup (.fromInfo info) = some item → item.info = info

/-- Different queued batches outside of `excluded`. -/
structure Selected (queue : BatchProofQueue) (excluded batches : List BatchInfo) : Prop where
  nodup : batches.Nodup
  queued : ∀ info ∈ batches, queue.Queues info ∧ queue.Agrees info
  notExcluded : ∀ info ∈ batches, info ∉ excluded

variable {txnsOf} {queue : BatchProofQueue}

section Parts

variable {request : PullRequest} {batchesWithoutProofs : Bool}
  {taken : List (QueueEntry × QueueItem)} {pulled : PullResult}

end Parts

namespace Selected

variable {excluded first second : List BatchInfo}

theorem nil (queue : BatchProofQueue) (excluded : List BatchInfo) : Selected queue excluded [] := by
  constructor <;> simp

theorem append (isFirst : Selected queue excluded first)
    (isSecond : Selected queue (excluded ++ first) second) :
    Selected queue excluded (first ++ second) where
  nodup := by
    refine nodup_append.mpr ⟨isFirst.nodup, isSecond.nodup, ?_⟩
    intro info inFirst other inSecond same
    subst same
    exact isSecond.notExcluded info inSecond (mem_append_right _ inFirst)
  queued := by
    intro info member
    rcases mem_append.mp member with inFirst | inSecond
    · exact isFirst.queued info inFirst
    · exact isSecond.queued info inSecond
  notExcluded := by
    intro info member
    rcases mem_append.mp member with inFirst | inSecond
    · exact isFirst.notExcluded info inFirst
    · intro inExcluded
      exact isSecond.notExcluded info inSecond (mem_append_left _ inExcluded)

theorem sublist (isFirst : Selected queue excluded first)
    (isSublist : second.Sublist first) : Selected queue excluded second where
  nodup := isSublist.nodup isFirst.nodup
  queued := fun info member => isFirst.queued info (isSublist.subset member)
  notExcluded := fun info member =>
    isFirst.notExcluded info (isSublist.subset member)

end Selected

namespace Budgeted

variable {manager : ProofManager} {env : ProposalEnv} {request : GetPayloadRequest}
  {excluded proofs : List BatchInfo} {proofSize : PayloadTxnsSize} {proofUnique : Nat}

end Budgeted

end

namespace ToyProposal

def batch (author : AccountAddress) (numBytes : Nat) : BatchInfo where
  author := author
  batchId := 1
  epoch := 1
  expiration := 20
  digest := author
  numTxns := 1
  numBytes := numBytes
  gasBucketStart := 0

def env : ProposalEnv where
  clock := 15
  store := fun _ => some (some [])
  proofShuffle := .keepOrder _
  optShuffle := .keepOrder _
  inlineShuffle := .keepOrder _

def manager (queue : BatchProofQueue) : ProofManager where
  batchProofQueue := queue
  allowBatchesWithoutPosInProposal := true
  enablePayloadV2 := true

def request (maxTxns : PayloadTxnsSize) (maxTxnsAfterFiltering : Nat)
    (excludeAuthors : List AccountAddress) : GetPayloadRequest where
  maxTxns := maxTxns
  maxTxnsAfterFiltering := maxTxnsAfterFiltering
  softMaxTxnsAfterFiltering := 100
  maybeOptqsPayloadPullParams := some ⟨excludeAuthors, 0⟩
  maxInlineTxns := .new 10 100
  returnNonFull := true
  filter := .empty
  blockTimestampSecs := 0

end ToyProposal

end LumioNode
