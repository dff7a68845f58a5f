import LumioNode.Library.TwoChain
import LumioNode.SafetyRules.Network

/-! # Agreement of 2-chain ordering within one epoch

On the certificates and blocks in use, signatures are unforgeable and hashes
collision-free; honest validators then keep the rules of the 2-chain protocol. -/

namespace LumioNode.SafetyRules

open Library ValidatorVerifier List

namespace Committee

variable (committee : Committee)

/-- A quorum of `ValidatorVerifier::new`; an empty validator set has none. -/
def IsQuorum (quorum : Finset AccountAddress) : Prop := ∃ nonempty : committee.infos ≠ [],
    (quorumSystem nonempty committee.distinct
      committee.byzantine committee.byzantineBound).IsQuorum quorum

variable {committee}

/-- Two quorums share an honest validator. -/
theorem exists_common_honest {first second : Finset AccountAddress}
    (firstQuorum : committee.IsQuorum first) (secondQuorum : committee.IsQuorum second) :
    ∃ author ∈ first, author ∈ second ∧ committee.Honest author := by
  obtain ⟨nonempty, isFirst⟩ := firstQuorum
  obtain ⟨_, isSecond⟩ := secondQuorum
  obtain ⟨author, inFirst, inSecond, notFaulty⟩ := WeightedQuorum.exists_common _ isFirst isSecond
  exact ⟨author, inFirst, inSecond, isFirst.1 inFirst, notFaulty⟩

theorem infos_ne_nil {author : Author} (isMember : author ∈ committee.verifier.members) :
    committee.infos ≠ [] := by
  intro isEmpty
  obtain ⟨info, isInfo, _⟩ := mem_members.mp isMember
  have inInfos : info ∈ committee.infos := isInfo
  rw [isEmpty] at inInfos
  cases inInfos

/-- Unless there are no validators at all. -/
theorem isQuorum_of_quorumSigners {signature : AggregateSignature}
    {signers : List ValidatorConsensusInfo}
    (accepted : committee.verifier.quorumSigners signature.validatorBitmask = .ok signers)
    (nonempty : signers ≠ [] ∨ committee.infos ≠ []) :
    committee.IsQuorum (committee.verifier.aggregateSignatureAuthors signature).toFinset := by
  have distinct : committee.verifier.Distinct := committee.distinct
  obtain ⟨authorsEq, areMembers, reached⟩ := quorumSigners_eq_ok distinct accepted
  rcases nonempty with someSigner | someInfo
  · obtain ⟨signer, rest, rfl⟩ := exists_cons_of_ne_nil someSigner
    have isAuthor : signer.address ∈ (committee.verifier.aggregateSignatureAuthors
        signature).toFinset := by
      rw [authorsEq]
      simp
    exact ⟨infos_ne_nil (areMembers isAuthor), areMembers, reached⟩
  · exact ⟨someInfo, areMembers, reached⟩

end Committee

/-! ## What is in use -/

namespace Call

def blocks : Call → List Block
  | .vote proposal _ => [proposal.block]
  | .orderVote proposal => [proposal.block]
  | _ => []

def quorumCerts : Call → List QuorumCert
  | .vote proposal _ => [proposal.block.quorumCert]
  | .orderVote proposal => [proposal.quorumCert]
  | _ => []

def timeoutCerts : Call → List TwoChainTimeoutCertificate
  | .vote _ maybeTc => maybeTc.toList
  | _ => []

end Call

/-- An aggregated order vote, or a quorum certificate that commits the block. -/
inductive Decision where
  | ordered (signed : LedgerInfoWithSignatures)
  | committed (qc : QuorumCert)

namespace Decision

def signedLedgerInfo : Decision → LedgerInfoWithSignatures
  | ordered signed => signed
  | committed qc => qc.signedLedgerInfo

def quorumCerts : Decision → List QuorumCert
  | ordered _ => []
  | committed qc => [qc]

/-- An order vote signs a ledger info without consensus data. -/
def Decides (committee : Committee) (block : Block) : Decision → Prop
  | ordered signed =>
    signed.verifySignatures committee.env.blsLedgerInfo committee.verifier = .ok () ∧
      signed.ledgerInfo.consensusDataHash = HashValue.zero ∧
      signed.ledgerInfo.commitInfo.id = block.id committee.env.hash
  | committed qc =>
    qc.verify committee.env.blsLedgerInfo committee.env.hash.voteData committee.verifier = .ok () ∧
      qc.commitInfo.isEmpty = false ∧
      qc.commitInfo.id = block.id committee.env.hash

end Decision

structure View (committee : Committee) where
  execution : Execution committee
  genesis : Block
  genesisQc : QuorumCert
  decided : List (Block × Decision)

variable {vote : Vote} {voteData : VoteData}

namespace View

variable {committee : Committee} (view : View committee)

def calls : List Call := view.execution.inputs.map fun entry => entry.2.call

/-- Blocks honest validators were asked to vote for. -/
def proposedBlocks : List Block := view.calls.flatMap Call.blocks

def blocks : List Block := view.genesis :: view.decided.map Prod.fst ++ view.proposedBlocks

def quorumCerts : List QuorumCert := view.decided.flatMap (fun entry => entry.2.quorumCerts) ++
    view.calls.flatMap Call.quorumCerts

def signedLedgerInfos : List LedgerInfoWithSignatures :=
  view.decided.map (fun entry => entry.2.signedLedgerInfo) ++
    view.quorumCerts.map QuorumCert.signedLedgerInfo

def UsesVoteData (voteData : VoteData) : Prop := (∃ qc ∈ view.quorumCerts, qc.voteData = voteData) ∨
    ∃ author vote, committee.Honest author ∧
      view.execution.CastVote author vote ∧ vote.voteData = voteData

def SignedLedgerInfo (author : Author) (ledgerInfo : LedgerInfo) : Prop :=
  (∃ vote, view.execution.CastVote author vote ∧ vote.ledgerInfo = ledgerInfo) ∨
    ∃ vote, view.execution.CastOrderVote author vote ∧ vote.ledgerInfo = ledgerInfo

def SignedTimeout (author : Author) (message : TimeoutSigningRepr) : Prop :=
  ∃ timeout, view.execution.CastTimeout author timeout ∧ timeout.signingFormat = message

/-- Honest signatures in accepted certificates come from the execution. -/
structure Unforgeable : Prop where
  /-- The signature scheme does not aggregate an empty list of keys. -/
  noKeys : committee.env.bls.aggregateKeys [] = none
  ledgerInfo : ∀ signed ∈ view.signedLedgerInfos,
    signed.verifySignatures committee.env.blsLedgerInfo committee.verifier = .ok () →
      ∀ author ∈ committee.verifier.aggregateSignatureAuthors signed.signatures,
        committee.Honest author → view.SignedLedgerInfo author signed.ledgerInfo
  timeout : ∀ tc ∈ view.calls.flatMap Call.timeoutCerts,
    committee.verifier.verifyAggregateSignatures committee.env.blsTimeout
        (tc.timeoutMessages committee.verifier)
        tc.signaturesWithRounds.sig = .ok () →
      List.Forall₂ (fun author message => committee.Honest author →
          view.SignedTimeout author message)
        (committee.verifier.aggregateSignatureAuthors tc.signaturesWithRounds.sig)
        (tc.timeoutMessages committee.verifier)

/-- No collisions among the blocks and vote data in use, and no vote data hash to zero. -/
structure CollisionFree : Prop where
  blocks : ∀ first ∈ view.blocks, ∀ second ∈ view.blocks,
    first.id committee.env.hash = second.id committee.env.hash →
      first.blockData.hashInput = second.blockData.hashInput
  voteData : ∀ first second, view.UsesVoteData first → view.UsesVoteData second →
      committee.env.hash.voteData first = committee.env.hash.voteData second → first = second
  nonzero : ∀ voteData, view.UsesVoteData voteData →
    committee.env.hash.voteData voteData ≠ HashValue.zero

/-- The genesis certificate is the only one of round zero. -/
structure GenesisOnly : Prop where
  genesisRound : view.genesis.round = 0
  certifies : view.genesisQc.certifiedBlock.id = view.genesis.id committee.env.hash
  only : ∀ qc ∈ view.quorumCerts, qc.certifiedBlock.round = 0 → qc = view.genesisQc

structure Assumptions : Prop where
  unforgeable : view.Unforgeable
  collisionFree : view.CollisionFree
  genesisOnly : view.GenesisOnly

/-! ## The protocol of a view -/

def blockOf (blockId : HashValue) : Option Block :=
  view.blocks.find? fun block => block.id committee.env.hash == blockId

def roundOf (blockId : HashValue) : Nat := ((view.blockOf blockId).map Block.round).getD 0

def parentOf (blockId : HashValue) : HashValue :=
  ((view.blockOf blockId).map Block.parentId).getD HashValue.zero

def twoChain : TwoChain Author HashValue where
  honest := committee.Honest
  IsQuorum := committee.IsQuorum
  round := view.roundOf
  parent := view.parentOf
  voted author blockId := ∃ vote, view.execution.CastVote author vote ∧
    vote.voteData.proposed.id = blockId
  orderVoted author blockId := ∃ vote, view.execution.CastOrderVote author vote ∧
      vote.ledgerInfo.commitInfo.id = blockId
  timedOut author round highest := ∃ timeout, view.execution.CastTimeout author timeout ∧
      timeout.round = round ∧ timeout.hqcRound = highest

/-- Along the parent links of the blocks honest validators were asked to vote for. -/
def Ancestor : HashValue → HashValue → Prop := Relation.ReflTransGen fun parent child =>
    ∃ block ∈ view.proposedBlocks, block.id committee.env.hash = child ∧ block.parentId = parent

/-! ## Certificates in use -/

section Certificates

variable {view}

theorem proposed_subset : view.proposedBlocks ⊆ view.blocks := by
  intro block member
  exact mem_append_right _ member

variable {author : Author}

theorem call_mem {input : Input} (asked : (author, input) ∈ view.execution.inputs) :
    input.call ∈ view.calls :=
  mem_map.mpr ⟨(author, input), asked, rfl⟩

variable {qc : QuorumCert} {call : Call}

theorem qc_mem (asked : call ∈ view.calls) (carried : qc ∈ call.quorumCerts) :
    qc ∈ view.quorumCerts :=
  mem_append_right _ (mem_flatMap.mpr ⟨call, asked, carried⟩)

theorem block_mem {block : Block} (asked : call ∈ view.calls) (carried : block ∈ call.blocks) :
    block ∈ view.proposedBlocks :=
  mem_flatMap.mpr ⟨call, asked, carried⟩

variable (assumptions : view.Assumptions)
include assumptions

theorem roundOf_id {block : Block} (member : block ∈ view.blocks) :
    view.roundOf (block.id committee.env.hash) = block.round ∧
      view.parentOf (block.id committee.env.hash) = block.parentId := by
  have isFound : (view.blockOf (block.id committee.env.hash)).isSome := by
    apply List.find?_isSome.mpr
    exact ⟨block, member, by simp⟩
  obtain ⟨found, foundEq⟩ := Option.isSome_iff_exists.mp isFound
  have sameId : found.id committee.env.hash = block.id committee.env.hash := by
    simpa using List.find?_some foundEq
  have sameInput := assumptions.collisionFree.blocks found
    (mem_of_find?_eq_some foundEq) block member sameId
  have roundEq : found.round = block.round := (BlockData.eq_of_hashInput_eq sameInput).1
  have parentEq : found.parentId = block.parentId := BlockData.parentId_eq_of_hashInput_eq sameInput
  rw [roundOf, parentOf, foundEq]
  exact ⟨roundEq, parentEq⟩

/-- The honest members of a quorum signed an accepted ledger info. -/
theorem quorumOf_signed {signed : LedgerInfoWithSignatures}
    (inUse : signed ∈ view.signedLedgerInfos)
    (accepted : signed.verifySignatures committee.env.blsLedgerInfo committee.verifier = .ok ()) :
    view.twoChain.QuorumOf fun author =>
      view.SignedLedgerInfo author signed.ledgerInfo := by
  obtain ⟨signers, multiSig, aggregatedKey, isQuorum, _, keyEq, _⟩ :=
    verifyMultiSignatures_eq_ok accepted
  have someSigner : signers ≠ [] := by
    intro isEmpty
    have noKey : committee.env.bls.aggregateKeys [] = some aggregatedKey := by
      rw [isEmpty] at keyEq
      exact keyEq
    rw [assumptions.unforgeable.noKeys] at noKey
    cases noKey
  refine ⟨_, Committee.isQuorum_of_quorumSigners isQuorum (.inl someSigner), ?_⟩
  intro author member isHonest
  exact assumptions.unforgeable.ledgerInfo signed inUse accepted author
    (mem_toFinset.mp member) isHonest

theorem vote_of_signed {ledgerInfo : LedgerInfo} (isHonest : committee.Honest author)
    (inUse : view.UsesVoteData voteData) (signed : view.SignedLedgerInfo author ledgerInfo)
    (hashEq : ledgerInfo.consensusDataHash = committee.env.hash.voteData voteData) :
    ∃ vote, view.execution.CastVote author vote ∧
      vote.ledgerInfo = ledgerInfo ∧ vote.voteData = voteData := by
  rcases signed with ⟨vote, cast, ledgerInfoEq⟩ | ⟨vote, cast, ledgerInfoEq⟩
  · obtain ⟨proposal, maybeTc, input, asked, callEq, justified⟩ := cast.justified isHonest
    have voteHash : vote.ledgerInfo.consensusDataHash = committee.env.hash.voteData vote.voteData :=
      (constructLedgerInfo2chain_eq_ok justified.ledgerInfoEq).1
    refine ⟨vote, cast, ledgerInfoEq, ?_⟩
    apply assumptions.collisionFree.voteData
    · exact .inr ⟨author, vote, isHonest, cast, rfl⟩
    · exact inUse
    · rw [← voteHash, ← hashEq, ledgerInfoEq]
  · obtain ⟨proposal, input, asked, callEq, justified, _⟩ := cast.justified isHonest
    have isZero : ledgerInfo.consensusDataHash = HashValue.zero := by
      rw [← ledgerInfoEq, justified.ledgerInfoEq]
    exact absurd (hashEq.symm.trans isZero) (assumptions.collisionFree.nonzero voteData inUse)

/-- Its block is certified, and honest voters exist, all with its vote data and ledger info. -/
theorem certified_of_accepted (inUse : qc ∈ view.quorumCerts)
    (accepted : qc.verify committee.env.blsLedgerInfo committee.env.hash.voteData committee.verifier
      = .ok ()) (positive : qc.certifiedBlock.round ≠ 0) :
    view.twoChain.Certified qc.certifiedBlock.id ∧ ∃ author vote, committee.Honest author ∧
        view.execution.CastVote author vote ∧
        vote.ledgerInfo = qc.signedLedgerInfo.ledgerInfo ∧
        vote.voteData = qc.voteData := by
  rw [QuorumCert.verify, if_neg positive] at accepted
  simp only [bind_eq_ok, ensure_eq_ok, mapError_eq_ok] at accepted
  obtain ⟨_, hashEq, _, signaturesAccepted, _⟩ := accepted
  have signedInUse : qc.signedLedgerInfo ∈ view.signedLedgerInfos :=
    mem_append_right _ (mem_map.mpr ⟨qc, inUse, rfl⟩)
  obtain ⟨quorum, isQuorum, signed⟩ := quorumOf_signed assumptions signedInUse signaturesAccepted
  have votes : ∀ author ∈ quorum, committee.Honest author →
      ∃ vote, view.execution.CastVote author vote ∧
        vote.ledgerInfo = qc.signedLedgerInfo.ledgerInfo ∧
        vote.voteData = qc.voteData := by
    intro author member isHonest
    exact vote_of_signed assumptions isHonest (.inl ⟨qc, inUse, rfl⟩)
      (signed author member isHonest) hashEq
  constructor
  · refine ⟨quorum, isQuorum, ?_⟩
    intro author member isHonest
    obtain ⟨vote, cast, _, voteDataEq⟩ := votes author member isHonest
    exact ⟨vote, cast, by rw [voteDataEq]; rfl⟩
  · obtain ⟨author, member, _, isHonest⟩ := Committee.exists_common_honest isQuorum isQuorum
    obtain ⟨vote, cast, ledgerInfoEq, voteDataEq⟩ := votes author member isHonest
    exact ⟨author, vote, isHonest, cast, ledgerInfoEq, voteDataEq⟩

/-- A vote of an honest validator names a block in use, and its parent. -/
theorem voted_block (isHonest : committee.Honest author)
    (cast : view.execution.CastVote author vote) :
    view.roundOf vote.voteData.proposed.id = vote.round ∧
      view.parentOf vote.voteData.proposed.id = vote.voteData.parent.id ∧
      ∃ block ∈ view.proposedBlocks, block.id committee.env.hash = vote.voteData.proposed.id ∧
          block.parentId = vote.voteData.parent.id := by
  obtain ⟨proposal, maybeTc, input, asked, callEq, justified⟩ := cast.justified isHonest
  have isProposed : proposal.block ∈ view.proposedBlocks :=
    block_mem (call_mem asked) (callEq ▸ mem_singleton_self _)
  obtain ⟨roundEq, parentEq⟩ := roundOf_id assumptions (proposed_subset isProposed)
  have parentId : proposal.block.parentId = vote.voteData.parent.id := by
    rw [justified.parentId, justified.parentEq]
  rw [justified.proposedId]
  exact ⟨roundEq.trans justified.roundEq.symm, parentEq.trans parentId,
    proposal.block, isProposed, rfl, parentId⟩

theorem roundOf_certified (inUse : qc ∈ view.quorumCerts)
    (accepted : qc.verify committee.env.blsLedgerInfo committee.env.hash.voteData committee.verifier
      = .ok ()) : view.roundOf qc.certifiedBlock.id = qc.certifiedBlock.round := by
  by_cases isGenesis : qc.certifiedBlock.round = 0
  · have qcEq := assumptions.genesisOnly.only qc inUse isGenesis
    have genesisMember : view.genesis ∈ view.blocks :=
      mem_append_left _ (mem_cons_self ..)
    have roundEq := (roundOf_id assumptions genesisMember).1
    rw [isGenesis, qcEq, assumptions.genesisOnly.certifies, roundEq]
    exact assumptions.genesisOnly.genesisRound
  · obtain ⟨_, author, vote, isHonest, cast, _, voteDataEq⟩ :=
      certified_of_accepted assumptions inUse accepted isGenesis
    have roundEq := (voted_block assumptions isHonest cast).1
    rw [Vote.round, voteDataEq] at roundEq
    exact roundEq

/-- The honest members of a quorum signed the certificate, none with a higher round. -/
theorem timeoutCertified_of_accepted {tc : TwoChainTimeoutCertificate}
    (inUse : tc ∈ view.calls.flatMap Call.timeoutCerts)
    (accepted : tc.verify committee.env.blsLedgerInfo committee.env.blsTimeout
      committee.env.hash.voteData committee.verifier = .ok ()) (nonempty : committee.infos ≠ []) :
    view.twoChain.TimeoutCertified tc.round tc.highestHqcRound := by
  obtain ⟨_, signaturesAccepted, highest⟩ := TwoChainTimeoutCertificate.verify_eq_ok.mp accepted
  obtain ⟨signers, isQuorum, _⟩ := of_bind signaturesAccepted
  obtain ⟨sameLength, signed⟩ := forall₂_iff_zip.mp <|
    assumptions.unforgeable.timeout tc inUse signaturesAccepted
  refine ⟨_, Committee.isQuorum_of_quorumSigners isQuorum (.inr nonempty), ?_⟩
  intro author member isHonest
  obtain ⟨message, paired⟩ : ∃ message, (author, message) ∈
    (committee.verifier.aggregateSignatureAuthors tc.signaturesWithRounds.sig).zip
      (tc.timeoutMessages committee.verifier) := by
    have asFirst := mem_toFinset.mp member
    rw [← map_fst_zip sameLength.le] at asFirst
    obtain ⟨pair, pairMember, rfl⟩ := mem_map.mp asFirst
    exact ⟨pair.2, pairMember⟩
  obtain ⟨timeout, expired, rfl⟩ := signed paired isHonest
  obtain ⟨voter, voterMember, messageEq⟩ := mem_map.mp (of_mem_zip paired).2
  have roundMember : voter.2 ∈ tc.signaturesWithRounds.rounds := (of_mem_zip voterMember).2
  have notAbove : voter.2 ≤ tc.highestHqcRound :=
    (List.max?_eq_some_iff.mp highest).2 voter.2 roundMember
  have roundEq : tc.round = timeout.round := congrArg TimeoutSigningRepr.round messageEq
  have hqcEq : voter.2 = timeout.hqcRound := congrArg TimeoutSigningRepr.hqcRound messageEq
  exact ⟨voter.2, notAbove, timeout, expired, roundEq.symm, hqcEq.symm⟩

end Certificates

/-! ## The rules of the protocol -/

section Protocol

variable {view} (assumptions : view.Assumptions)
include assumptions

variable {author : Author}

section

variable (isHonest : committee.Honest author)

include isHonest

theorem safe_of_cast (cast : view.execution.CastVote author vote) :
    vote.round = vote.voteData.parent.round + 1 ∨
      ∃ round highest, view.twoChain.TimeoutCertified round highest ∧
        vote.round = round + 1 ∧ highest ≤ vote.voteData.parent.round := by
  obtain ⟨proposal, maybeTc, input, asked, callEq, justified⟩ := cast.justified isHonest
  rw [justified.roundEq, justified.parentEq]
  rcases safeToVote_eq_ok justified.safe with
    follows | ⟨followsTc, notAbove⟩
  · exact .inl follows
  · cases maybeTc with
    | none =>
      have parentRound := justified.parentRound
      simp only [Option.elim_none] at followsTc
      omega
    | some tc =>
      right
      have inUse : tc ∈ view.calls.flatMap Call.timeoutCerts := by
        apply mem_flatMap.mpr
        exact ⟨_, call_mem asked, callEq ▸ mem_singleton_self _⟩
      exact ⟨tc.round, tc.highestHqcRound, timeoutCertified_of_accepted assumptions inUse
          (justified.tcAccepted tc rfl)
          (Committee.infos_ne_nil isHonest.1),
        followsTc, notAbove⟩

theorem parent_of_cast (cast : view.execution.CastVote author vote) :
    view.roundOf vote.voteData.parent.id = vote.voteData.parent.round ∧
      vote.voteData.parent.round < vote.round ∧
      (vote.voteData.parent.round ≠ 0 → view.twoChain.Certified vote.voteData.parent.id) := by
  obtain ⟨proposal, maybeTc, input, asked, callEq, justified⟩ := cast.justified isHonest
  have inUse : proposal.block.quorumCert ∈ view.quorumCerts :=
    qc_mem (call_mem asked) (callEq ▸ mem_singleton_self _)
  rw [justified.parentEq, justified.roundEq]
  refine ⟨roundOf_certified assumptions inUse justified.qcAccepted, justified.parentRound, ?_⟩
  intro positive
  exact (certified_of_accepted assumptions inUse justified.qcAccepted positive).1

theorem ordered_of_cast {vote : OrderVote} (cast : view.execution.CastOrderVote author vote) :
    (0 < view.roundOf vote.ledgerInfo.commitInfo.id →
        view.twoChain.Certified vote.ledgerInfo.commitInfo.id) ∧
      ∀ timeout, view.execution.CastTimeout author timeout →
        view.roundOf vote.ledgerInfo.commitInfo.id ≤ timeout.round →
          view.roundOf vote.ledgerInfo.commitInfo.id ≤
            timeout.hqcRound := by
  obtain ⟨proposal, input, asked, callEq, justified, beforeTimeout⟩ := cast.justified isHonest
  have inUse : proposal.quorumCert ∈ view.quorumCerts :=
    qc_mem (call_mem asked) (callEq ▸ mem_singleton_self _)
  have isProposed : proposal.block ∈ view.proposedBlocks :=
    block_mem (call_mem asked) (callEq ▸ mem_singleton_self _)
  have certifiedRound := roundOf_certified assumptions inUse justified.qcAccepted
  have blockRound := (roundOf_id assumptions (proposed_subset isProposed)).1
  rw [← justified.certifiedId] at blockRound
  have commitEq : vote.ledgerInfo.commitInfo = proposal.quorumCert.certifiedBlock := by
    rw [justified.ledgerInfoEq]
  rw [commitEq]
  constructor
  · intro positive
    have notGenesis : proposal.quorumCert.certifiedBlock.round ≠ 0 := by omega
    exact (certified_of_accepted assumptions inUse justified.qcAccepted notGenesis).1
  · intro timeout expired reached
    have bound := beforeTimeout timeout expired (blockRound ▸ reached)
    exact certifiedRound.le.trans bound

end

theorem twoChain_rules : view.twoChain.Rules where
  common := Committee.exists_common_honest
  voteUnique := by
    intro author first second isHonest castFirst castSecond sameRound
    obtain ⟨vote, cast, rfl⟩ := castFirst
    obtain ⟨vote', cast', rfl⟩ := castSecond
    have roundEq := (voted_block assumptions isHonest cast).1
    have roundEq' := (voted_block assumptions isHonest cast').1
    have sameVote := cast.unique isHonest cast' (roundEq.symm.trans (sameRound.trans roundEq'))
    rw [sameVote]
  parentRound := by
    intro author blockId isHonest voted
    obtain ⟨vote, cast, rfl⟩ := voted
    obtain ⟨roundEq, parentEq, _⟩ := voted_block assumptions isHonest cast
    obtain ⟨parentRoundEq, increases, _⟩ := parent_of_cast assumptions isHonest cast
    simp only [twoChain, roundEq, parentEq, parentRoundEq]
    exact increases
  safeToVote := by
    intro author blockId isHonest voted
    obtain ⟨vote, cast, rfl⟩ := voted
    obtain ⟨roundEq, parentEq, _⟩ := voted_block assumptions isHonest cast
    have parentRoundEq := (parent_of_cast assumptions isHonest cast).1
    have safe := safe_of_cast assumptions isHonest cast
    rw [← roundEq, ← parentRoundEq, ← parentEq] at safe
    exact safe
  parentCertified := by
    intro author blockId isHonest voted positive
    obtain ⟨vote, cast, rfl⟩ := voted
    obtain ⟨_, parentEq, _⟩ := voted_block assumptions isHonest cast
    obtain ⟨parentRoundEq, _, certified⟩ := parent_of_cast assumptions isHonest cast
    simp only [twoChain, parentEq, parentRoundEq] at positive
    have isCertified := certified (Nat.pos_iff_ne_zero.mp positive)
    rw [← parentEq] at isCertified
    exact isCertified
  orderCertified := by
    intro author blockId isHonest ordered positive
    obtain ⟨vote, cast, rfl⟩ := ordered
    exact (ordered_of_cast assumptions isHonest cast).1 positive
  orderedTimeout := by
    intro author blockId round highest isHonest ordered expired reached
    obtain ⟨vote, cast, rfl⟩ := ordered
    obtain ⟨timeout, castTimeout, rfl, rfl⟩ := expired
    exact (ordered_of_cast assumptions isHonest cast).2 timeout castTimeout reached
  votedTimeout := by
    intro author blockId round highest isHonest voted expired reached
    obtain ⟨vote, cast, rfl⟩ := voted
    obtain ⟨timeout, castTimeout, rfl, rfl⟩ := expired
    obtain ⟨roundEq, parentEq, _⟩ := voted_block assumptions isHonest cast
    have parentRoundEq := (parent_of_cast assumptions isHonest cast).1
    have bound := cast.parent_le_hqcRound isHonest castTimeout (roundEq ▸ reached)
    rw [← parentRoundEq, ← parentEq] at bound
    exact bound

theorem decided_of_decides {block : Block} {decision : Decision}
    (inUse : (block, decision) ∈ view.decided) (decides : decision.Decides committee block)
    (positive : 0 < block.round) : view.twoChain.Decided (block.id committee.env.hash) := by
  have blockMember : block ∈ view.blocks := mem_append_left _ (mem_cons_of_mem _
      (mem_map.mpr ⟨_, inUse, rfl⟩))
  have blockRound := (roundOf_id assumptions blockMember).1
  cases decision with
  | ordered signed =>
    obtain ⟨accepted, noConsensusData, idEq⟩ := decides
    have signedInUse : signed ∈ view.signedLedgerInfos :=
      mem_append_left _ (mem_map.mpr ⟨_, inUse, rfl⟩)
    obtain ⟨quorum, isQuorum, signedBy⟩ := quorumOf_signed assumptions signedInUse accepted
    refine .inl ⟨quorum, isQuorum, ?_⟩
    intro author member isHonest
    rcases signedBy author member isHonest with
      ⟨vote, cast, ledgerInfoEq⟩ | ⟨vote, cast, ledgerInfoEq⟩
    · obtain ⟨_, _, _, _, _, justified⟩ := cast.justified isHonest
      have hashEq := (constructLedgerInfo2chain_eq_ok justified.ledgerInfoEq).1
      rw [ledgerInfoEq, noConsensusData] at hashEq
      exact absurd hashEq.symm (assumptions.collisionFree.nonzero _
        (.inr ⟨author, vote, isHonest, cast, rfl⟩))
    · exact ⟨vote, cast, ledgerInfoEq ▸ idEq⟩
  | committed qc =>
    obtain ⟨accepted, notEmpty, idEq⟩ := decides
    have qcInUse : qc ∈ view.quorumCerts := mem_append_left _ (mem_flatMap.mpr
        ⟨_, inUse, mem_singleton_self _⟩)
    have certifiedRound := roundOf_certified assumptions qcInUse accepted
    by_cases isGenesis : qc.certifiedBlock.round = 0
    · rw [QuorumCert.verify, if_pos isGenesis] at accepted
      simp only [bind_eq_ok, ensure_eq_ok] at accepted
      obtain ⟨_, _, _, _, _, commitEq, _⟩ := accepted
      rw [commitEq, idEq, blockRound, ← commitEq, isGenesis] at certifiedRound
      omega
    · obtain ⟨certified, author, vote, isHonest, cast, ledgerInfoEq, voteDataEq⟩ :=
        certified_of_accepted assumptions qcInUse accepted isGenesis
      obtain ⟨_, _, _, _, _, justified⟩ := cast.justified isHonest
      obtain ⟨roundEq, parentEq, _⟩ := voted_block assumptions isHonest cast
      have parentRoundEq := (parent_of_cast assumptions isHonest cast).1
      have proposedEq : vote.voteData.proposed.id = qc.certifiedBlock.id := by
        rw [voteDataEq]
        rfl
      rcases (constructLedgerInfo2chain_eq_ok
        justified.ledgerInfoEq).2 with isEmpty | ⟨commitEq, follows⟩
      · rw [ledgerInfoEq] at isEmpty
        have commitEmpty : qc.commitInfo.isEmpty = true := by
          rw [QuorumCert.commitInfo, isEmpty]
          rfl
        rw [commitEmpty] at notEmpty
        cases notEmpty
      · rw [ledgerInfoEq, ← justified.parentEq] at commitEq
        have parentId : vote.voteData.parent.id = block.id committee.env.hash := by
          rw [← idEq, ← commitEq]
          rfl
        rw [← justified.roundEq, ← justified.parentEq] at follows
        rw [proposedEq] at roundEq parentEq
        rw [parentId] at parentEq parentRoundEq
        refine .inr ⟨qc.certifiedBlock.id, certified, parentEq, ?_⟩
        simp only [twoChain]
        omega

theorem ancestor_of_twoChain {first second : HashValue}
    (ancestor : view.twoChain.Ancestor first second) : view.Ancestor first second := by
  refine Relation.ReflTransGen.mono ?_ _ _ ancestor
  intro parent child step
  obtain ⟨⟨author, isHonest, vote, cast, rfl⟩, parentEq⟩ := step
  obtain ⟨_, votedParent, block, member, idEq, linkEq⟩ := voted_block assumptions isHonest cast
  refine ⟨block, member, idEq, ?_⟩
  rw [linkEq, ← votedParent]
  exact parentEq

section

variable {qc other : QuorumCert} (inUse : qc ∈ view.quorumCerts)
  (accepted : qc.verify committee.env.blsLedgerInfo committee.env.hash.voteData committee.verifier
    = .ok ())

include inUse accepted

theorem certified_block_unique (otherInUse : other ∈ view.quorumCerts)
    (otherAccepted : other.verify committee.env.blsLedgerInfo committee.env.hash.voteData
      committee.verifier = .ok ())
    (sameRound : qc.certifiedBlock.round = other.certifiedBlock.round) :
    qc.certifiedBlock.id = other.certifiedBlock.id := by
  by_cases isGenesis : qc.certifiedBlock.round = 0
  · rw [assumptions.genesisOnly.only qc inUse isGenesis,
      assumptions.genesisOnly.only other otherInUse (sameRound ▸ isGenesis)]
  · apply (twoChain_rules assumptions).certified_unique
    · exact (certified_of_accepted assumptions inUse accepted isGenesis).1
    · exact (certified_of_accepted assumptions otherInUse otherAccepted (sameRound ▸ isGenesis)).1
    · exact (roundOf_certified assumptions inUse accepted).trans
        (sameRound.trans (roundOf_certified assumptions otherInUse otherAccepted).symm)

theorem certified_extends_decided {entry : Block × Decision} (isMember : entry ∈ view.decided)
    (decides : entry.2.Decides committee entry.1) (positive : 1 ≤ entry.1.round)
    (later : entry.1.round ≤ qc.certifiedBlock.round) :
    view.Ancestor (entry.1.id committee.env.hash) qc.certifiedBlock.id := by
  have isBlock : entry.1 ∈ view.blocks :=
    mem_append_left _ (mem_cons_of_mem _ (mem_map.mpr ⟨entry, isMember, rfl⟩))
  have decidedRound := (roundOf_id assumptions isBlock).1
  have certifiedRound := roundOf_certified assumptions inUse accepted
  apply ancestor_of_twoChain assumptions
  apply (twoChain_rules assumptions).decided_ancestor
  · exact decided_of_decides assumptions isMember decides positive
  · exact positive.trans_eq decidedRound.symm
  · exact (certified_of_accepted assumptions inUse accepted (by omega)).1
  · exact decidedRound.trans_le (later.trans_eq certifiedRound.symm)

end

end Protocol

end View

/-- Agreement: of two decided blocks of positive rounds, one is an ancestor of the other. -/
theorem decided_blocks_on_one_chain {committee : Committee} (view : View committee)
    (assumptions : view.Assumptions) {first second : Block × Decision}
    (firstMember : first ∈ view.decided) (secondMember : second ∈ view.decided)
    (firstDecides : first.2.Decides committee first.1)
    (secondDecides : second.2.Decides committee second.1) (firstPositive : 1 ≤ first.1.round)
    (secondPositive : 1 ≤ second.1.round) :
    view.Ancestor (first.1.id committee.env.hash) (second.1.id committee.env.hash) ∨
      view.Ancestor (second.1.id committee.env.hash) (first.1.id committee.env.hash) := by
  have rules := View.twoChain_rules assumptions
  have firstDecided := View.decided_of_decides assumptions firstMember firstDecides firstPositive
  have secondDecided := View.decided_of_decides assumptions secondMember
    secondDecides secondPositive
  have roundIsPositive : ∀ entry ∈ view.decided, 1 ≤ entry.1.round →
      0 < view.twoChain.round (entry.1.id committee.env.hash) := by
    intro entry member positive
    have inUse : entry.1 ∈ view.blocks := mem_append_left _ (mem_cons_of_mem _
        (mem_map.mpr ⟨entry, member, rfl⟩))
    have roundEq := (View.roundOf_id assumptions inUse).1
    simp only [View.twoChain, roundEq]
    omega
  have ordered := rules.agreement firstDecided secondDecided
    (roundIsPositive first firstMember firstPositive)
    (roundIsPositive second secondMember secondPositive)
  exact ordered.imp (View.ancestor_of_twoChain assumptions) (View.ancestor_of_twoChain assumptions)

/-! ## One honest validator decides two blocks -/

namespace OneHonest

/-- Signatures are empty; hashes number blocks and vote data by their rounds. -/
def env : SafetyEnv where
  bls := .ofEmpty _
  hash :=
    { voteData := fun voteData => Fin.ofNat _ (voteData.proposed.round + 1)
      blockData := fun
        | .whole data => Fin.ofNat _ (data.round + 10)
        | .optBlockDataForHash _ round _ _ _ => Fin.ofNat _ (round + 10)
      waypoint := fun _ => 6 }
  verifyExtension := fun _ _ => .error "not executed"

def committee : Committee where
  env := env
  epoch := 1
  infos := [⟨1, [1], 3⟩, ⟨2, [2], 1⟩]
  byzantine := {2}
  distinct := by decide
  byzantineBound := by decide

/-- The signature of the honest validator. -/
def signature : AggregateSignature := ⟨(ValidatorBitVec.withNumBits 2).set 0, some []⟩

def genesisInfo : BlockInfo := ⟨1, 0, 10, 4, 0, 0, none⟩

def genesisQc : QuorumCert := ⟨⟨genesisInfo, genesisInfo⟩,
    ⟨⟨genesisInfo, 1⟩, AggregateSignature.empty⟩⟩

def genesis : Block := ⟨⟨1, 0, 0, genesisQc, .genesis⟩, none⟩

def block (round : Nat) (qc : QuorumCert) : Block := ⟨⟨1, round, 0, qc, .nilBlock []⟩, none⟩

def info (round : Nat) : BlockInfo :=
  ⟨1, round, Fin.ofNat _ (round + 10), accumulatorPlaceholderHash, 0, 0, none⟩

def qc1 : QuorumCert := ⟨⟨info 1, genesisInfo⟩, ⟨⟨genesisInfo, 2⟩, signature⟩⟩

def qc2 : QuorumCert := ⟨⟨info 2, info 1⟩, ⟨⟨info 1, 3⟩, signature⟩⟩

/-- Another certificate of the second block, with the faulty validator's signature. -/
def jointQc2 : QuorumCert :=
  ⟨qc2.voteData, ⟨qc2.signedLedgerInfo.ledgerInfo, ⟨signature.validatorBitmask.set 1, some []⟩⟩⟩

def proposal (block : Block) : VoteProposal where
  accumulatorExtensionProof := ⟨[], 0, []⟩
  block := block
  nextEpochState := none
  decoupledExecution := true

def inputs : List (Author × Input) := [(1, ⟨.vote (proposal (block 1 genesisQc)) none, [], 0⟩),
    (1, ⟨.orderVote ⟨block 1 genesisQc, info 1, qc1⟩, [], 0⟩),
    (1, ⟨.vote (proposal (block 2 qc1)) none, [], 0⟩),
    (1, ⟨.orderVote ⟨block 2 qc1, info 2, qc2⟩, [], 0⟩)]

def start (author : Author) : SafetyRules :=
  { initial author [1] ⟨0, 6⟩ true false with
    validatorSigner := some ⟨author, [1]⟩
    epochState := some ⟨1, committee.verifier⟩ }

theorem honest_one : committee.Honest 1 := by
  refine ⟨mem_members.mpr ?_, by simp [committee]⟩
  exact ⟨⟨1, [1], 3⟩, mem_cons_self, rfl⟩

theorem eq_one_of_honest {author : Author} (isHonest : committee.Honest author) : author = 1 := by
  obtain ⟨validator, isValidator, rfl⟩ := mem_members.mp isHonest.1
  rcases mem_pair.mp isValidator with rfl | rfl
  · rfl
  · exact absurd (Finset.mem_singleton_self _) isHonest.2

def execution : Execution committee where
  start := start
  inputs := inputs
  fresh := by
    intro author _
    exact
      { signer := ⟨[1], rfl⟩
        epochState := rfl
        verifies := rfl
        coherent := by
          intro data isCached
          exact isCached
        persisted := rfl
        epochEq := rfl }
  honest := by
    intro entry member
    have authorEq : entry.1 = 1 := by
      simp only [inputs, mem_cons, not_mem_nil, or_false] at member
      rcases member with rfl | rfl | rfl | rfl <;> rfl
    rw [authorEq]
    exact honest_one
  signing := by
    intro entry member
    simp only [inputs, mem_cons, not_mem_nil, or_false] at member
    rcases member with rfl | rfl | rfl | rfl <;> trivial

def view : View committee where
  execution := execution
  genesis := genesis
  genesisQc := genesisQc
  decided := [(block 1 genesisQc, .committed jointQc2),
      (block 2 qc1, .ordered ⟨⟨info 2, HashValue.zero⟩, signature⟩)]

def vote1 : Vote := .newWithSignature qc1.voteData 1 qc1.signedLedgerInfo.ledgerInfo []

def vote2 : Vote := .newWithSignature qc2.voteData 1 qc2.signedLedgerInfo.ledgerInfo []

def orderVote (round : Nat) : OrderVote := ⟨1, ⟨info round, HashValue.zero⟩, []⟩

theorem responses : execution.events.map (fun entry => entry.2.response) =
      [.vote (.ok vote1), .orderVote (.ok (orderVote 1)),
        .vote (.ok vote2), .orderVote (.ok (orderVote 2))] := rfl

theorem castVote_cases {author : Author} (cast : execution.CastVote author vote) :
    vote = vote1 ∨ vote = vote2 := by
  obtain ⟨event, member, returns⟩ := cast
  have response : event.response ∈ execution.events.map (fun entry => entry.2.response) :=
    mem_map.mpr ⟨_, member, rfl⟩
  rw [responses, show event.response = _ from returns] at response
  simpa using response

theorem castVote1 : execution.CastVote 1 vote1 := ⟨_, mem_cons_self .., rfl⟩

theorem castVote2 : execution.CastVote 1 vote2 := ⟨_, mem_cons_of_mem _ (mem_cons_of_mem _
    (mem_cons_self ..)), rfl⟩

theorem castOrderVote2 : execution.CastOrderVote 1 (orderVote 2) :=
  ⟨_, mem_cons_of_mem _ (mem_cons_of_mem _
    (mem_cons_of_mem _ (mem_cons_self ..))), rfl⟩

theorem usesVoteData_cases (uses : view.UsesVoteData voteData) :
    voteData = genesisQc.voteData ∨ voteData = qc1.voteData ∨ voteData = qc2.voteData := by
  rcases uses with ⟨qc, member, rfl⟩ | ⟨author, vote, _, cast, rfl⟩
  · have isOne : qc ∈ [jointQc2, genesisQc, qc1, qc1, qc2] := member
    simp only [mem_cons, not_mem_nil, or_false] at isOne
    rcases isOne with rfl | rfl | rfl | rfl | rfl <;> simp [jointQc2]
  · rcases castVote_cases cast with rfl | rfl
    · exact .inr (.inl rfl)
    · exact .inr (.inr rfl)

theorem unforgeable : view.Unforgeable where
  noKeys := rfl
  ledgerInfo := by
    intro signed member _ author isAuthor isHonest
    rw [eq_one_of_honest isHonest]
    have isOne : signed ∈ [jointQc2.signedLedgerInfo,
        ⟨⟨info 2, HashValue.zero⟩, signature⟩, jointQc2.signedLedgerInfo,
        genesisQc.signedLedgerInfo, qc1.signedLedgerInfo,
        qc1.signedLedgerInfo, qc2.signedLedgerInfo] := member
    simp only [mem_cons, not_mem_nil, or_false] at isOne
    rcases isOne with rfl | rfl | rfl | rfl | rfl | rfl | rfl
    · exact .inl ⟨vote2, castVote2, rfl⟩
    · exact .inr ⟨orderVote 2, castOrderVote2, rfl⟩
    · exact .inl ⟨vote2, castVote2, rfl⟩
    · cases isAuthor
    · exact .inl ⟨vote1, castVote1, rfl⟩
    · exact .inl ⟨vote1, castVote1, rfl⟩
    · exact .inl ⟨vote2, castVote2, rfl⟩
  timeout := by
    intro tc member
    have isNone : tc ∈ ([] : List TwoChainTimeoutCertificate) := member
    cases isNone

theorem collisionFree : view.CollisionFree where
  blocks := by decide
  voteData := by
    intro first second usesFirst usesSecond
    rcases usesVoteData_cases usesFirst with rfl | rfl | rfl <;>
      rcases usesVoteData_cases usesSecond with rfl | rfl | rfl <;> decide
  nonzero := by
    intro voteData uses
    rcases usesVoteData_cases uses with rfl | rfl | rfl <;> decide

theorem genesisOnly : view.GenesisOnly where
  genesisRound := rfl
  certifies := rfl
  only := by decide

end OneHonest

open OneHonest

/-- One honest validator decides rounds one and two, by a commit and by order votes. -/
theorem decided_blocks_of_one_validator : view.Ancestor 11 12 ∨ view.Ancestor 12 11 :=
  decided_blocks_on_one_chain view
    ⟨unforgeable, collisionFree, genesisOnly⟩
    (mem_cons_self ..)
    (mem_cons_of_mem _ (mem_cons_self ..))
    (by refine ⟨?_, ?_, ?_⟩ <;> rfl) (by refine ⟨?_, ?_, ?_⟩ <;> rfl)
    (by decide) (by decide)

theorem one_block_of_round_two : jointQc2 ∈ view.quorumCerts ∧ qc2 ∈ view.quorumCerts ∧
    jointQc2 ≠ qc2 ∧ jointQc2.certifiedBlock.id = qc2.certifiedBlock.id :=
  have isLast : qc2 ∈ [jointQc2, genesisQc, qc1, qc1, qc2] := by decide
  ⟨mem_cons_self .., isLast, by decide, View.certified_block_unique
    ⟨unforgeable, collisionFree, genesisOnly⟩ (mem_cons_self ..) rfl isLast rfl rfl⟩

theorem second_block_extends_first : view.Ancestor 11 12 :=
  @View.certified_extends_decided _ view ⟨unforgeable, collisionFree, genesisOnly⟩ jointQc2
    (mem_cons_self ..) rfl _ (mem_cons_self ..) (by refine ⟨?_, ?_, ?_⟩ <;> rfl)
    (by decide) (by decide)

end LumioNode.SafetyRules
