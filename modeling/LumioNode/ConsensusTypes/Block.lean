import LumioNode.ConsensusTypes.QuorumCert

/-! # Blocks, vote proposals and the sizes of payloads

Transactions are opaque byte strings.  A block's id is the hash of its data, computed
here with a given hash function. -/

namespace LumioNode

open Library

abbrev SignedTransaction := List UInt8

abbrev ValidatorTransaction := List UInt8

structure BatchInfo where
  author : AccountAddress
  batchId : Nat
  epoch : Nat
  expiration : Nat
  digest : HashValue
  numTxns : Nat
  numBytes : Nat
  gasBucketStart : Nat
deriving DecidableEq

structure ProofOfStore where
  info : BatchInfo
  multiSignature : AggregateSignature
deriving DecidableEq

def ProofOfStore.epoch (proof : ProofOfStore) : Nat := proof.info.epoch

inductive PayloadExecutionLimit where
  | none
  | maxTransactionsToExecute (limit : Nat)
  | txnAndGasLimits (transactionLimit gasLimit : Option Nat)
deriving DecidableEq

structure InlineBatch where
  batchInfo : BatchInfo
  transactions : List SignedTransaction
deriving DecidableEq

structure OptQuorumStorePayload where
  inlineBatches : List InlineBatch
  optBatches : List BatchInfo
  proofs : List ProofOfStore
  executionLimits : PayloadExecutionLimit
deriving DecidableEq

inductive Payload where
  | directMempool (txns : List SignedTransaction)
  | inQuorumStore (proofs : List ProofOfStore)
  | inQuorumStoreWithLimit (proofs : List ProofOfStore)
      (maxTxnsToExecute : Option Nat)
  | quorumStoreInlineHybrid
      (inlineBatches : List (BatchInfo × List SignedTransaction))
      (proofs : List ProofOfStore) (maxTxnsToExecute : Option Nat)
  | optQuorumStore (payload : OptQuorumStorePayload)
  | quorumStoreInlineHybridV2
      (inlineBatches : List (BatchInfo × List SignedTransaction))
      (proofs : List ProofOfStore) (limit : PayloadExecutionLimit)
deriving DecidableEq

namespace Payload

def isEmpty : Payload → Bool
  | directMempool txns => txns.isEmpty
  | inQuorumStore proofs => proofs.isEmpty
  | inQuorumStoreWithLimit proofs _ => proofs.isEmpty
  | quorumStoreInlineHybrid inlineBatches proofs _ =>
    proofs.isEmpty && inlineBatches.isEmpty
  | optQuorumStore payload =>
    payload.optBatches.isEmpty && payload.proofs.isEmpty && payload.inlineBatches.isEmpty
  | quorumStoreInlineHybridV2 inlineBatches proofs _ =>
    proofs.isEmpty && inlineBatches.isEmpty

def checkHybridEpoch (epoch : Nat) (inlineBatches : List (BatchInfo × List SignedTransaction))
    (proofs : List ProofOfStore) : Except String Unit := do
  ensure (proofs.all fun proof => proof.epoch == epoch)
    "Payload proof epoch doesn't match given epoch"
  ensure (inlineBatches.all fun batch => batch.1.epoch == epoch)
    "Payload inline batch epoch doesn't match given epoch"

def verifyEpoch (epoch : Nat) : Payload → Except String Unit
  | directMempool _ => .ok ()
  | inQuorumStore proofs | inQuorumStoreWithLimit proofs _ =>
    ensure (proofs.all fun proof => proof.epoch == epoch) "Payload epoch doesn't match given epoch"
  | quorumStoreInlineHybrid inlineBatches proofs _ =>
    checkHybridEpoch epoch inlineBatches proofs
  | quorumStoreInlineHybridV2 inlineBatches proofs _ =>
    checkHybridEpoch epoch inlineBatches proofs
  | optQuorumStore payload => do
      ensure (payload.inlineBatches.all fun batch =>
          batch.batchInfo.epoch == epoch)
        "OptQS InlineBatch epoch doesn't match given epoch"
      ensure (payload.optBatches.all fun batch => batch.epoch == epoch)
        "OptQS OptBatch epoch doesn't match given epoch"
      ensure (payload.proofs.all fun proof => proof.epoch == epoch)
        "OptQS Proof epoch doesn't match given epoch"

end Payload

inductive BlockType where
  | proposal (payload : Payload) (author : Author)
      (failedAuthors : List (Nat × Author))
  | nilBlock (failedAuthors : List (Nat × Author))
  | genesis
  | proposalExt (validatorTxns : List ValidatorTransaction)
      (payload : Payload) (author : Author)
      (failedAuthors : List (Nat × Author))
  | optimisticProposal (validatorTxns : List ValidatorTransaction)
      (payload : Payload) (author : Author) (grandparentQc : QuorumCert)
  | dagBlock (author : Author) (failedAuthors : List (Nat × Author))
      (validatorTxns : List ValidatorTransaction) (payload : Payload)
      (nodeDigests : List HashValue) (parentBlockId : HashValue)
      (parentsBitvec : ValidatorBitVec)
deriving DecidableEq

structure BlockData where
  epoch : Nat
  round : Nat
  timestampUsecs : Nat
  quorumCert : QuorumCert
  blockType : BlockType
deriving DecidableEq

/-- What `CryptoHash for BlockData` hashes; optimistic blocks leave signatures out. -/
inductive BlockHashInput where
  | whole (data : BlockData)
  | optBlockDataForHash (epoch : Nat) (round : Nat) (timestampUsecs : Nat)
      (quorumCertVoteData : VoteData) (blockType : BlockType)
deriving DecidableEq

namespace BlockData

def author (data : BlockData) : Option Author := match data.blockType with
  | .proposal _ author _ => some author
  | .dagBlock author .. => some author
  | .proposalExt _ _ author _ => some author
  | .optimisticProposal _ _ author _ => some author
  | .nilBlock _ | .genesis => none

variable (data : BlockData)

def parentId : HashValue := match data.blockType with
  | .dagBlock _ _ _ _ _ parentBlockId _ => parentBlockId
  | _ => data.quorumCert.certifiedBlock.id

def payload (data : BlockData) : Option Payload := match data.blockType with
  | .proposal payload _ _ => some payload
  | .dagBlock _ _ _ payload _ _ _ => some payload
  | .proposalExt _ payload _ _ => some payload
  | .optimisticProposal _ payload _ _ => some payload
  | .nilBlock _ | .genesis => none

def isGenesisBlock : Bool := match data.blockType with
  | .genesis => true
  | _ => false

def isNilBlock : Bool := match data.blockType with
  | .nilBlock _ => true
  | _ => false

def isOptBlock : Bool := match data.blockType with
  | .optimisticProposal .. => true
  | _ => false

def failedAuthors (data : BlockData) : Option (List (Nat × Author)) := match data.blockType with
  | .proposal _ _ failedAuthors => some failedAuthors
  | .nilBlock failedAuthors => some failedAuthors
  | .dagBlock _ failedAuthors .. => some failedAuthors
  | .proposalExt _ _ _ failedAuthors => some failedAuthors
  | .optimisticProposal .. | .genesis => none

def hashInput : BlockHashInput := if data.isOptBlock then
    .optBlockDataForHash data.epoch data.round data.timestampUsecs
      data.quorumCert.voteData data.blockType
  else .whole data

/-- Blocks with one hash input agree up to the signatures of an optimistic block's certificate. -/
theorem eq_of_hashInput_eq {first second : BlockData} (same : first.hashInput = second.hashInput) :
    first.round = second.round ∧ first.quorumCert.voteData = second.quorumCert.voteData ∧
      first.blockType = second.blockType := by
  unfold hashInput at same
  split at same <;> split at same
  · injection same with _ roundEq _ voteDataEq typeEq
    exact ⟨roundEq, voteDataEq, typeEq⟩
  · cases same
  · cases same
  · injection same with dataEq
    subst dataEq
    exact ⟨rfl, rfl, rfl⟩

theorem parentId_eq_of_hashInput_eq {first second : BlockData}
    (same : first.hashInput = second.hashInput) : first.parentId = second.parentId := by
  obtain ⟨_, voteDataEq, typeEq⟩ := eq_of_hashInput_eq same
  unfold parentId QuorumCert.certifiedBlock
  rw [typeEq, voteDataEq]

end BlockData

structure Block where
  blockData : BlockData
  signature : Option Signature
deriving DecidableEq

/-- The hash functions of the consensus types. -/
structure ConsensusHash where
  voteData : VoteData → HashValue
  blockData : BlockHashInput → HashValue
  waypoint : Ledger2WaypointConverter → HashValue

namespace Block

def id (hash : ConsensusHash) (block : Block) : HashValue :=
  hash.blockData block.blockData.hashInput

def epoch (block : Block) : Nat := block.blockData.epoch

def round (block : Block) : Nat := block.blockData.round

def quorumCert (block : Block) : QuorumCert := block.blockData.quorumCert

def parentId (block : Block) : HashValue := block.blockData.parentId

def genBlockInfo (hash : ConsensusHash) (block : Block) (executedStateId : HashValue)
    (version : Nat) (nextEpochState : Option EpochState) : BlockInfo :=
  ⟨block.epoch, block.round, block.id hash, executedStateId, version,
    block.blockData.timestampUsecs, nextEpochState⟩

def validateProposalSignature (blsLedgerInfo : Bls LedgerInfo) (blsBlockData : Bls BlockData)
    (hash : ConsensusHash) (block : Block) (author : Author)
    (validator : ValidatorVerifier) : Except String Unit :=
  match block.signature with
  | none => .error "Missing signature in Proposal"
  | some signature => do
      (validator.verify blsBlockData author block.blockData signature).mapError VerifyError.message
      block.quorumCert.verify blsLedgerInfo hash.voteData validator

def validateSignature (blsLedgerInfo : Bls LedgerInfo) (blsBlockData : Bls BlockData)
    (hash : ConsensusHash) (block : Block) (validator : ValidatorVerifier) : Except String Unit :=
  match block.blockData.blockType with
  | .genesis => .error "We should not accept genesis from others"
  | .nilBlock _ =>
    block.quorumCert.verify blsLedgerInfo hash.voteData validator
  | .proposal _ author _ =>
    block.validateProposalSignature blsLedgerInfo blsBlockData hash author validator
  | .proposalExt _ _ author _ =>
    block.validateProposalSignature blsLedgerInfo blsBlockData hash author validator
  | .optimisticProposal _ _ _ grandparentQc => do
      grandparentQc.verify blsLedgerInfo hash.voteData validator
      block.quorumCert.verify blsLedgerInfo hash.voteData validator
  | .dagBlock .. => .error "We should not accept DAG block from others"

/-- The rounds of failed authors increase strictly from the parent's to the next round. -/
def checkFailedRounds (succRound : Nat) : Nat → List (Nat × Author) → Except String Unit
  | _, [] => .ok ()
  | bound, (round, _) :: rest => do
      ensure (bound < round ∧ round < succRound) "Incorrect round in failed authors"
      checkFailedRounds succRound round rest

def checkFailedAuthors (block : Block) (parentRound : Nat)
    (failedAuthors : List (Nat × Author)) : Except String Unit :=
  match checkedAdd block.round (if block.blockData.isNilBlock then 1 else 0) with
  | none => .error "attempt to add with overflow"
  | some succRound => do
      ensure (parentRound + 1 ≤ succRound) "Block round is smaller than block's parent round"
      ensure (failedAuthors.length ≤ succRound - (parentRound + 1))
        "Block has more failed authors than missed rounds"
      checkFailedRounds succRound parentRound failedAuthors

def timebound : Nat := 300000000

def saturatingAdd (left right : Nat) : Nat := min (left + right) u64Max

/-- `Block::verify_well_formed` at the local time `currentTs`. -/
def verifyWellFormed (currentTs : Nat) (block : Block) : Except String Unit := do
  ensure (block.blockData.isGenesisBlock = false) "We must not accept genesis from others"
  let parent := block.quorumCert.certifiedBlock
  ensure (parent.round < block.round) "Block must have a greater round than parent's block"
  ensure (parent.epoch = block.epoch) "block's parent should be in the same epoch"
  if parent.hasReconfiguration then
    ensure (block.blockData.payload.all Payload.isEmpty)
      "Reconfiguration suffix should not carry payload"
  match block.blockData.payload with
  | some payload => payload.verifyEpoch block.epoch
  | none => pure ()
  match block.blockData.failedAuthors with
  | some failedAuthors => block.checkFailedAuthors parent.round failedAuthors
  | none => pure ()
  if block.blockData.isNilBlock || parent.hasReconfiguration then
    ensure (block.blockData.timestampUsecs = parent.timestampUsecs)
      "Nil/reconfig suffix block must have same timestamp as parent"
  else do
    ensure (block.blockData.timestampUsecs > parent.timestampUsecs)
      "Blocks must have strictly increasing timestamps"
    ensure (block.blockData.timestampUsecs ≤ saturatingAdd currentTs timebound)
      "Blocks must not be too far in the future"
  ensure (block.quorumCert.endsEpoch = false) "Block cannot be proposed in an epoch that has ended"

/-- What the safety rules use of a well-formed block. -/
theorem round_lt_of_verifyWellFormed {currentTs : Nat} {block : Block}
    (wellFormed : block.verifyWellFormed currentTs = .ok ()) :
    block.quorumCert.certifiedBlock.round < block.round ∧
      block.quorumCert.certifiedBlock.epoch = block.epoch := by
  unfold verifyWellFormed at wellFormed
  simp only [bind_eq_ok, ensure_eq_ok] at wellFormed
  obtain ⟨_, _, _, roundLess, _, epochEq, _⟩ := wellFormed
  exact ⟨roundLess, epochEq⟩

end Block

/-- The frozen subtree roots, the size and the new leaves of an accumulator. -/
structure AccumulatorExtensionProof where
  frozenSubtreeRoots : List HashValue
  numLeaves : Nat
  leaves : List HashValue
deriving DecidableEq

structure VoteProposal where
  accumulatorExtensionProof : AccumulatorExtensionProof
  block : Block
  nextEpochState : Option EpochState
  decoupledExecution : Bool
deriving DecidableEq

namespace VoteProposal

/-- `VoteProposal::gen_vote_data`; `verifyExtension` checks the accumulator extension proof. -/
def genVoteData (hash : ConsensusHash)
    (verifyExtension : AccumulatorExtensionProof → HashValue → Except String (HashValue × Nat))
    (proposal : VoteProposal) : Except String VoteData :=
  let parent := proposal.block.quorumCert.certifiedBlock
  if proposal.decoupledExecution then
    .ok ⟨proposal.block.genBlockInfo hash accumulatorPlaceholderHash 0
      proposal.nextEpochState, parent⟩
  else
    (verifyExtension proposal.accumulatorExtensionProof
      parent.executedStateId).map fun (rootHash, version) =>
        ⟨proposal.block.genBlockInfo hash rootHash version proposal.nextEpochState, parent⟩

/-- The vote names the block by id, round and epoch, and its parent as certified. -/
theorem genVoteData_eq_ok {hash : ConsensusHash}
    {verifyExtension : AccumulatorExtensionProof → HashValue → Except String (HashValue × Nat)}
    {proposal : VoteProposal} {voteData : VoteData}
    (generated : proposal.genVoteData hash verifyExtension = .ok voteData) :
    voteData.proposed.id = proposal.block.id hash ∧ voteData.proposed.round = proposal.block.round ∧
      voteData.proposed.epoch = proposal.block.epoch ∧
      voteData.parent = proposal.block.quorumCert.certifiedBlock := by
  unfold genVoteData at generated
  split at generated
  · cases generated
    exact ⟨rfl, rfl, rfl, rfl⟩
  · obtain ⟨_, _, rfl⟩ := map_eq_ok.mp generated
    exact ⟨rfl, rfl, rfl, rfl⟩

end VoteProposal

structure OrderVoteProposal where
  block : Block
  blockInfo : BlockInfo
  quorumCert : QuorumCert
deriving DecidableEq

@[ext]
structure PayloadTxnsSize where
  count : Nat
  bytes : Nat
  count_le_bytes : count ≤ bytes
  bytes_eq_zero : count = 0 → bytes = 0
deriving DecidableEq

namespace PayloadTxnsSize

variable (count bytes : Nat)

def newNormalized : PayloadTxnsSize where
  count := count
  bytes := if count = 0 then 0 else max count bytes
  count_le_bytes := by
    split
    · omega
    · exact Nat.le_max_left _ _
  bytes_eq_zero := by
    intro isZero
    rw [if_pos isZero]

def tryNew : Option PayloadTxnsSize := if valid : count ≤ bytes ∧
      (0 < count ∧ 0 < bytes ∨ count = 0 ∧ bytes = 0) then
    some {
      count := count
      bytes := bytes
      count_le_bytes := valid.1
      bytes_eq_zero := by
        intro isZero
        omega }
  else
    none

def new : PayloadTxnsSize :=
  (tryNew count bytes).getD (newNormalized count bytes)

def zero : PayloadTxnsSize := newNormalized 0 0

variable (left right : PayloadTxnsSize)

def add : PayloadTxnsSize :=
  newNormalized (left.count + right.count) (left.bytes + right.bytes)

def sub : Except Fault PayloadTxnsSize := do
  let count ← checkedSub left.count right.count
  let bytes ← checkedSub left.bytes right.bytes
  return newNormalized count bytes

def partialCmp : Option Ordering :=
  if left.count = right.count ∧ left.bytes = right.bytes then some .eq
  else if right.count < left.count ∨ right.bytes < left.bytes then some .gt
  else if left.count < right.count ∧ left.bytes < right.bytes then some .lt
  else none

/-- The operator `>`. -/
def exceeds : Bool := left.partialCmp right = some .gt

theorem bytes_newNormalized : (newNormalized count bytes).bytes =
    if count = 0 then 0 else max count bytes :=
  rfl

@[simp]
theorem count_new : (new count bytes).count = count := by
  unfold new tryNew
  split <;> rfl

@[simp]
theorem count_add :
    (left.add right).count = left.count + right.count :=
  rfl

/-- The sum of two normalized sizes is normalized. -/
@[simp]
theorem bytes_add :
    (left.add right).bytes = left.bytes + right.bytes := by
  have leftLe := left.count_le_bytes
  have rightLe := right.count_le_bytes
  have leftZero := left.bytes_eq_zero
  have rightZero := right.bytes_eq_zero
  rw [add, bytes_newNormalized]
  split
  · omega
  · omega

@[simp]
theorem count_zero : zero.count = 0 := rfl

@[simp]
theorem bytes_zero : zero.bytes = 0 := rfl

variable {right left : PayloadTxnsSize}

theorem exceeds_eq_false_iff : left.exceeds right = false ↔
    left.count ≤ right.count ∧ left.bytes ≤ right.bytes := by
  unfold exceeds partialCmp
  split
  · simp
    omega
  · split
    · simp
      omega
    · have within : left.count ≤ right.count ∧ left.bytes ≤ right.bytes := by omega
      split <;> simp [within]

end PayloadTxnsSize

def BatchInfo.size (info : BatchInfo) : PayloadTxnsSize := .new info.numTxns info.numBytes

end LumioNode
