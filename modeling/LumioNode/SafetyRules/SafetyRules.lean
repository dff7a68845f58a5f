import LumioNode.SafetyRules.PersistentSafetyStorage

/-! # `SafetyRules` with the 2-chain rules

The guarded operations behind the public interface. -/

namespace LumioNode

open Library SafetyError

/-- The hasher seed keeps the messages of different types apart. -/
inductive SigningMessage where
  | ledgerInfo (ledgerInfo : LedgerInfo)
  | timeout (timeout : TimeoutSigningRepr)
  | blockData (data : BlockData)
deriving DecidableEq

/-- Code outside the safety rules that they call. -/
structure SafetyEnv where
  bls : Bls SigningMessage
  hash : ConsensusHash
  verifyExtension : AccumulatorExtensionProof → HashValue → Except String (HashValue × Nat)

namespace SafetyEnv

def blsLedgerInfo (env : SafetyEnv) : Bls LedgerInfo := env.bls.on SigningMessage.ledgerInfo

def blsTimeout (env : SafetyEnv) : Bls TimeoutSigningRepr := env.bls.on SigningMessage.timeout

def blsBlockData (env : SafetyEnv) : Bls BlockData := env.bls.on SigningMessage.blockData

end SafetyEnv

namespace SafetyRules

open Guarded PersistentSafetyStorage

def nextRound (round : Nat) : Except SafetyError Nat := match checkedAdd round 1 with
  | some next => .ok next
  | none => .error (.incorrectRound round)

def requireSigner : SafetyM ValidatorSigner := do
  let session ← get
  match session.rules.validatorSigner with
  | some signer => pure signer
  | none => throw (.notInitialized "validator_signer")

def requireEpochState : SafetyM EpochState := do
  let session ← get
  match session.rules.epochState with
  | some epochState => pure epochState
  | none => throw (.notInitialized "epoch_state")

/-- Remember the rounds of a certified block and its parent; was something updated? -/
def observeQc (qc : QuorumCert) (data : SafetyData) : SafetyData × Bool :=
  let oneChain := qc.certifiedBlock.round
  let twoChain := qc.parentBlock.round
  ({ data with
      oneChainRound := if oneChain > data.oneChainRound then oneChain
        else data.oneChainRound
      preferredRound := if twoChain > data.preferredRound then twoChain
        else data.preferredRound },
    decide (oneChain > data.oneChainRound) || decide (twoChain > data.preferredRound))

def updateHighestTimeoutRound (timeout : TwoChainTimeout) (data : SafetyData) : SafetyData :=
  if timeout.round > data.highestTimeoutRound then
    { data with highestTimeoutRound := timeout.round }
  else data

/-- Second voting rule. -/
def verifyAndUpdatePreferredRound (qc : QuorumCert) (data : SafetyData) :
    Except SafetyError (SafetyData × Bool) :=
  if qc.certifiedBlock.round < data.preferredRound then
    .error (.incorrectPreferredRound qc.certifiedBlock.round data.preferredRound)
  else .ok (observeQc qc data)

def verifyEpoch (epoch : Nat) (data : SafetyData) : Except SafetyError Unit :=
  ensure (epoch = data.epoch) (.incorrectEpoch epoch data.epoch)

/-- First voting rule. -/
def verifyAndUpdateLastVoteRound (round : Nat) (data : SafetyData) :
    Except SafetyError SafetyData :=
  if round ≤ data.lastVotedRound then
    .error (.incorrectLastVotedRound round data.lastVotedRound)
  else .ok { data with lastVotedRound := round }

/-- The second successor is computed only when the first one differs. -/
def followsRound (round first second : Nat) (also : Bool) : Except SafetyError Bool :=
  match nextRound first with
  | .error error => .error error
  | .ok afterFirst =>
    if round = afterFirst then .ok true
    else
      (nextRound second).map fun afterSecond =>
        decide (round = afterSecond) && also

/-- The round follows that of a certificate, and the quorum certificate is not below the
one-chain round. -/
def safeToTimeout (timeout : TwoChainTimeout) (maybeTc : Option TwoChainTimeoutCertificate)
    (data : SafetyData) : Except SafetyError Unit := do
  let round := timeout.round
  let qcRound := timeout.hqcRound
  let tcRound := maybeTc.elim 0 TwoChainTimeoutCertificate.round
  let follows ← followsRound round qcRound tcRound true
  ensure (follows = true ∧ qcRound ≥ data.oneChainRound)
    (.notSafeToTimeout round qcRound tcRound data.oneChainRound)

/-- The round follows that of the block's certificate, or of a timeout certificate not above it. -/
def safeToVote (block : Block) (maybeTc : Option TwoChainTimeoutCertificate) :
    Except SafetyError Unit := do
  let round := block.round
  let qcRound := block.quorumCert.certifiedBlock.round
  let tcRound := maybeTc.elim 0 TwoChainTimeoutCertificate.round
  let hqcRound := maybeTc.elim 0 TwoChainTimeoutCertificate.highestHqcRound
  let safe ← followsRound round qcRound tcRound (decide (qcRound ≥ hqcRound))
  ensure (safe = true) (.notSafeToVote round qcRound tcRound hqcRound)

def safeForOrderVote (block : Block) (data : SafetyData) : Except SafetyError Unit :=
  ensure (block.round > data.highestTimeoutRound)
    (.notSafeForOrderVote block.round data.highestTimeoutRound)

/-- The 2-chain commit rule: consecutive rounds commit the certified block. -/
def constructLedgerInfo2chain (proposedBlock : Block)
    (consensusDataHash : HashValue) : Except SafetyError LedgerInfo := do
  let certified := proposedBlock.quorumCert.certifiedBlock
  let afterBlock0 ← nextRound certified.round
  let commitInfo := if afterBlock0 = proposedBlock.round then certified else BlockInfo.empty
  return ⟨commitInfo, consensusDataHash⟩

theorem nextRound_eq_ok {round next : Nat}
    (isNext : nextRound round = .ok next) : next = round + 1 := by
  unfold nextRound at isNext
  cases added : checkedAdd round 1 with
  | none =>
    rw [added] at isNext
    cases isNext
  | some =>
    rw [added] at isNext
    cases isNext
    exact (checkedAdd_eq_some.mp added).2.symm

theorem safeToVote_eq_ok {block : Block} {maybeTc : Option TwoChainTimeoutCertificate}
    (safe : safeToVote block maybeTc = .ok ()) :
    block.round = block.quorumCert.certifiedBlock.round + 1 ∨ (block.round =
          maybeTc.elim 0 TwoChainTimeoutCertificate.round + 1 ∧
        maybeTc.elim 0 TwoChainTimeoutCertificate.highestHqcRound ≤
          block.quorumCert.certifiedBlock.round) := by
  obtain ⟨follows, followsEq, isSafe⟩ := of_bind safe
  rw [ensure_eq_ok] at isSafe
  subst isSafe
  unfold followsRound at followsEq
  cases afterQc : nextRound block.quorumCert.certifiedBlock.round with
  | error => simp [afterQc] at followsEq
  | ok next =>
    simp only [afterQc] at followsEq
    split at followsEq
    · rename_i roundEq
      left
      rw [roundEq, nextRound_eq_ok afterQc]
    · obtain ⟨afterTc, isNext, both⟩ := map_eq_ok.mp followsEq
      simp only [Bool.and_eq_true, decide_eq_true_eq] at both
      right
      rw [← nextRound_eq_ok isNext]
      exact both

/-- What a vote commits: nothing, or the certified block of the previous round. -/
theorem constructLedgerInfo2chain_eq_ok {block : Block} {hash : HashValue} {ledgerInfo : LedgerInfo}
    (constructed : constructLedgerInfo2chain block hash = .ok ledgerInfo) :
    ledgerInfo.consensusDataHash = hash ∧ (ledgerInfo.commitInfo = BlockInfo.empty ∨
        (ledgerInfo.commitInfo = block.quorumCert.certifiedBlock ∧
          block.round = block.quorumCert.certifiedBlock.round + 1)) := by
  obtain ⟨next, isNext, result⟩ := of_bind constructed
  cases result
  by_cases follows : next = block.round
  · rw [if_pos follows]
    exact ⟨rfl, .inr ⟨rfl, follows ▸ nextRound_eq_ok isNext⟩⟩
  · rw [if_neg follows]
    exact ⟨rfl, .inl rfl⟩

variable (env : SafetyEnv)

def sign (message : SigningMessage) : SafetyM Signature := do
  let signer ← requireSigner
  match env.bls.sign signer.privateKey message with
  | some signature => pure signature
  | none => throw (.serializationError "SerializationError")

/-- Left out when signatures are verified elsewhere. -/
def verifyUnlessSkipped (verify : ValidatorVerifier → Except SafetyError Unit) : SafetyM Unit := do
  let session ← get
  if session.rules.skipSigVerify then pure ()
  else do
    let epochState ← requireEpochState
    check (verify epochState.verifier)

def verifyQc (qc : QuorumCert) : SafetyM Unit := do
  let _ ← requireEpochState
  verifyUnlessSkipped fun verifier =>
    (qc.verify env.blsLedgerInfo env.hash.voteData verifier).mapError invalidQuorumCertificate

def verifyTc (tc : TwoChainTimeoutCertificate) : SafetyM Unit := do
  let _ ← requireEpochState
  verifyUnlessSkipped fun verifier =>
    (tc.verify env.blsLedgerInfo env.blsTimeout env.hash.voteData
      verifier).mapError invalidTimeoutCertificate

def verifyMaybeTc : Option TwoChainTimeoutCertificate → SafetyM Unit
  | some tc => verifyTc env tc
  | none => pure ()

def verifyProposal (voteProposal : VoteProposal) : SafetyM VoteData := do
  let proposedBlock := voteProposal.block
  let data ← safetyData
  check (verifyEpoch proposedBlock.epoch data)
  verifyQc env proposedBlock.quorumCert
  verifyUnlessSkipped fun verifier =>
    (proposedBlock.validateSignature env.blsLedgerInfo env.blsBlockData
      env.hash verifier).mapError invalidProposal
  let session ← get
  check ((proposedBlock.verifyWellFormed session.currentTs).mapError invalidProposal)
  check ((voteProposal.genVoteData env.hash env.verifyExtension).mapError
    invalidAccumulatorExtension)

def verifyOrderVoteProposal (proposal : OrderVoteProposal) : SafetyM Unit := do
  let proposedBlock := proposal.block
  let data ← safetyData
  check (verifyEpoch proposedBlock.epoch data)
  let qc := proposal.quorumCert
  check (ensure (qc.certifiedBlock = proposal.blockInfo)
    (.invalidOneChainQuorumCertificate qc.certifiedBlock.id proposal.blockInfo.id))
  check (ensure (qc.certifiedBlock.id = proposedBlock.id env.hash)
    (.invalidOneChainQuorumCertificate qc.certifiedBlock.id (proposedBlock.id env.hash)))
  verifyQc env qc

def guardedSignTimeoutWithQc (timeout : TwoChainTimeout)
    (timeoutCert : Option TwoChainTimeoutCertificate) : SafetyM Signature := do
  let _ ← requireSigner
  let data ← safetyData
  check (verifyEpoch timeout.epoch data)
  verifyUnlessSkipped fun verifier =>
    (timeout.verify env.blsLedgerInfo env.hash.voteData verifier).mapError invalidTimeout
  verifyMaybeTc env timeoutCert
  check (safeToTimeout timeout timeoutCert data)
  check (ensure (¬ timeout.round < data.lastVotedRound)
    (.incorrectLastVotedRound timeout.round data.lastVotedRound))
  let voted ← check <| if timeout.round > data.lastVotedRound then
        verifyAndUpdateLastVoteRound timeout.round data
      else .ok data
  setSafetyData (updateHighestTimeoutRound timeout voted)
  sign env (.timeout timeout.signingFormat)

/-- Only the round is compared. -/
def previousVote (data : SafetyData) (proposedBlock : Block) : Option Vote :=
  data.lastVote.filter fun vote => vote.round == proposedBlock.round

def guardedConstructAndSignVoteTwoChain (voteProposal : VoteProposal)
    (timeoutCert : Option TwoChainTimeoutCertificate) : SafetyM Vote := do
  let _ ← requireSigner
  let voteData ← verifyProposal env voteProposal
  verifyMaybeTc env timeoutCert
  let proposedBlock := voteProposal.block
  let data ← safetyData
  match previousVote data proposedBlock with
  | some vote => pure vote
  | none => do
      let voted ← check (verifyAndUpdateLastVoteRound proposedBlock.round data)
      check (safeToVote proposedBlock timeoutCert)
      let observed := (observeQc proposedBlock.quorumCert voted).1
      let author := (← requireSigner).author
      let ledgerInfo ← check (constructLedgerInfo2chain proposedBlock (env.hash.voteData voteData))
      let signature ← sign env (.ledgerInfo ledgerInfo)
      let vote := Vote.newWithSignature voteData author ledgerInfo signature
      setSafetyData { observed with lastVote := some vote }
      pure vote

def guardedConstructAndSignOrderVote (proposal : OrderVoteProposal) : SafetyM OrderVote := do
  let _ ← requireSigner
  verifyOrderVoteProposal env proposal
  let proposedBlock := proposal.block
  let data ← safetyData
  let observed := (observeQc proposal.quorumCert data).1
  check (safeForOrderVote proposedBlock observed)
  let author := (← requireSigner).author
  let ledgerInfo : LedgerInfo := ⟨proposal.blockInfo, HashValue.zero⟩
  let signature ← sign env (.ledgerInfo ledgerInfo)
  let orderVote : OrderVote := ⟨author, ledgerInfo, signature⟩
  setSafetyData observed
  pure orderVote

def verifyAuthor (author : Option Author) : SafetyM Unit := do
  let validatorSignerAuthor := (← requireSigner).author
  match author with
  | none => throw (.invalidProposal "No author found in the proposal")
  | some author =>
    if validatorSignerAuthor ≠ author then
      throw (.invalidProposal "Proposal author is not validator signer!")
    else pure ()

def guardedSignProposal (blockData : BlockData) : SafetyM Signature := do
  let _ ← requireSigner
  verifyAuthor blockData.author
  let data ← safetyData
  check (verifyEpoch blockData.epoch data)
  check (ensure (¬ blockData.round ≤ data.lastVotedRound)
    (.invalidProposal ("Proposed round " ++ toString blockData.round ++
      " is not higher than last voted round " ++
      toString data.lastVotedRound)))
  verifyQc env blockData.quorumCert
  let _ ← check (verifyAndUpdatePreferredRound blockData.quorumCert data)
  sign env (.blockData blockData)

/-- Export the consensus key from storage and sign with it from now on. -/
def loadSigner (author : Author) (expectedKey : PublicKey) : SafetyM Unit := do
  let found ← (consensusSkByPk env.bls.publicKey expectedKey).attempt
  match found with
  | .ok consensusKey =>
    modify fun session =>
      { session with
        rules.validatorSigner := some ⟨author, consensusKey⟩ }
  | .error (.secureStorageMissingDataError error) =>
    throw (.validatorKeyNotFound error)
  | .error error => throw error

def reconcileKey (author : Author) (epochState : EpochState) : SafetyM Unit :=
  match epochState.verifier.getPublicKey author with
  | none => throw (.validatorNotInSet author)
  | some expectedKey => do
      let session ← get
      if session.rules.validatorSigner.map
          (fun signer => signer.publicKey env.bls) = some expectedKey
      then pure ()
      else loadSigner env author expectedKey

def newEpochData (epoch : Nat) : SafetyData := ⟨epoch, 0, 0, 0, none, 0⟩

/-- Bring the safety data to the epoch of the proof. -/
def enterEpoch (epochState : EpochState) (waypoint newWaypoint : Waypoint) : SafetyM Unit := do
  let currentEpoch := (← safetyData).epoch
  if currentEpoch > epochState.epoch then
    throw (.waypointOutOfDate waypoint.version newWaypoint.version currentEpoch epochState.epoch)
  else if currentEpoch < epochState.epoch then
    setSafetyData (newEpochData epochState.epoch)
  else pure ()

def raiseWaypoint (waypoint newWaypoint : Waypoint) : SafetyM Unit :=
  if newWaypoint.version > waypoint.version then setWaypoint newWaypoint
  else pure ()

/-- The end of `initialize`; without a key nothing is signed. -/
def adoptEpoch (epochState : EpochState) : SafetyM Unit := do
  modify fun session =>
    { session with rules.epochState := some epochState }
  let author ← PersistentSafetyStorage.author
  let reconciled ← (reconcileKey env author epochState).attempt
  match reconciled with
  | .ok _ => pure ()
  | .error error => do
      modify fun session => { session with rules.validatorSigner := none }
      throw error

def guardedInitialize (proof : EpochChangeProof) : SafetyM Unit := do
  let waypoint ← PersistentSafetyStorage.waypoint
  let lastLi ← check ((proof.verify env.blsLedgerInfo env.hash.waypoint
      waypoint).mapError invalidEpochChangeProof)
  match lastLi.ledgerInfo.nextEpochState with
  | none => throw .invalidLedgerInfo
  | some epochState => do
      let newWaypoint ← check ((Waypoint.newEpochBoundary env.hash.waypoint
          lastLi.ledgerInfo).mapError internalError)
      raiseWaypoint waypoint newWaypoint
      enterEpoch epochState waypoint newWaypoint
      adoptEpoch env epochState

end SafetyRules

end LumioNode
