import LumioNode.SafetyRules.SafetyRules

/-! # What one call of the safety rules does

Each operation leaves the stored safety data alone, or replaces them as `SignsVote`,
`SignsOrderVote` or `SignsTimeout` says. -/

namespace LumioNode

open Library Guarded PersistentSafetyStorage Learns

def Session.Accepts (start : Session) (verify : ValidatorVerifier → Prop) : Prop :=
  start.rules.skipSigVerify = false → ∃ epochState, start.rules.epochState = some epochState ∧
      verify epochState.verifier

namespace SafetyRules

section Relations

variable (env : SafetyEnv) (start : Session)

def AcceptsQc (qc : QuorumCert) : Prop := start.Accepts fun verifier =>
    qc.verify env.blsLedgerInfo env.hash.voteData verifier = .ok ()

def AcceptsTc (tc : TwoChainTimeoutCertificate) : Prop := start.Accepts fun verifier =>
    tc.verify env.blsLedgerInfo env.blsTimeout env.hash.voteData verifier = .ok ()

def SignedBy (author : Author) (message : SigningMessage) (signature : Signature) : Prop :=
  ∃ signer, start.rules.validatorSigner = some signer ∧ signer.author = author ∧
    env.bls.sign signer.privateKey message = some signature

/-- What `verify_proposal` has checked. -/
structure AcceptsProposal (proposal : VoteProposal) (data : SafetyData)
    (voteData : VoteData) : Prop where
  epochEq : proposal.block.epoch = data.epoch
  qcAccepted : AcceptsQc env start proposal.block.quorumCert
  signatureAccepted : start.Accepts fun verifier =>
    proposal.block.validateSignature env.blsLedgerInfo env.blsBlockData env.hash verifier = .ok ()
  wellFormed : proposal.block.verifyWellFormed start.currentTs = .ok ()
  voteDataEq : proposal.genVoteData env.hash env.verifyExtension = .ok voteData

/-- A new vote is signed and the safety data `before` become `after`. -/
structure SignsVote (proposal : VoteProposal) (maybeTc : Option TwoChainTimeoutCertificate)
    (before : SafetyData) (vote : Vote) (after : SafetyData) : Prop where
  accepted : AcceptsProposal env start proposal before vote.voteData
  tcAccepted : ∀ tc, maybeTc = some tc → AcceptsTc env start tc
  notVoted : previousVote before proposal.block = none
  newRound : before.lastVotedRound < proposal.block.round
  safe : safeToVote proposal.block maybeTc = .ok ()
  ledgerInfoEq : constructLedgerInfo2chain proposal.block
      (env.hash.voteData vote.voteData) = .ok vote.ledgerInfo
  signed : SignedBy env start vote.author (.ledgerInfo vote.ledgerInfo) vote.signature
  afterEq : after =
      { (observeQc proposal.block.quorumCert
          { before with lastVotedRound := proposal.block.round }).1 with
        lastVote := some vote }

/-- An order vote is signed and `before` become `after`. -/
structure SignsOrderVote (proposal : OrderVoteProposal) (before : SafetyData) (vote : OrderVote)
    (after : SafetyData) : Prop where
  epochEq : proposal.block.epoch = before.epoch
  blockInfoEq : proposal.quorumCert.certifiedBlock = proposal.blockInfo
  idEq : proposal.quorumCert.certifiedBlock.id = proposal.block.id env.hash
  qcAccepted : AcceptsQc env start proposal.quorumCert
  safe : before.highestTimeoutRound < proposal.block.round
  ledgerInfoEq : vote.ledgerInfo = ⟨proposal.blockInfo, HashValue.zero⟩
  signed : SignedBy env start vote.author (.ledgerInfo vote.ledgerInfo) vote.signature
  afterEq : after = (observeQc proposal.quorumCert before).1

/-- `before` become `after` so that the timeout may be signed. -/
structure SignsTimeout (timeout : TwoChainTimeout) (before after : SafetyData) : Prop where
  epochEq : timeout.epoch = before.epoch
  oneChain : before.oneChainRound ≤ timeout.hqcRound
  lastVoted : before.lastVotedRound ≤ timeout.round
  afterEq : after = updateHighestTimeoutRound timeout
        { before with lastVotedRound := timeout.round }

end Relations

variable {env : SafetyEnv} {start : Session} {stored : Option SafetyData}

/-! ## Checks and reads -/

theorem requireSigner_learns : Learns (start.Holds stored) requireSigner fun signer =>
      start.rules.validatorSigner = some signer := by
  refine reads fun session holds => ?_
  rw [holds.validatorSigner]
  cases start.rules.validatorSigner with
  | none => exact fails
  | some => exact returns rfl

theorem requireEpochState_learns : Learns (start.Holds stored) requireEpochState fun epochState =>
      start.rules.epochState = some epochState := by
  refine reads fun session holds => ?_
  rw [holds.epochState]
  cases start.rules.epochState with
  | none => exact fails
  | some => exact returns rfl

theorem sign_learns (message : SigningMessage) :
    Learns (start.Holds stored) (sign env message) fun signature =>
      ∃ signer, start.rules.validatorSigner = some signer ∧
        env.bls.sign signer.privateKey message = some signature := by
  refine seq requireSigner_learns ?_
  intro signer isSigner
  cases signed : env.bls.sign signer.privateKey message with
  | none => exact fails
  | some => exact returns ⟨signer, isSigner, signed⟩

theorem verifyUnlessSkipped_learns {verify : ValidatorVerifier → Except SafetyError Unit} :
    Learns (start.Holds stored) (verifyUnlessSkipped verify) fun _ =>
      start.Accepts fun verifier => verify verifier = .ok () := by
  refine reads fun session holds => ?_
  rw [holds.skipSigVerify]
  split
  · rename_i skipped
    refine returns fun notSkipped => ?_
    rw [notSkipped] at skipped
    cases skipped
  · refine seq requireEpochState_learns fun epochState isEpochState => ?_
    exact weaken (checks _) fun _ passed _ => ⟨epochState, isEpochState, passed⟩

theorem verifyRenamed_learns {rename : String → SafetyError}
    {verify : ValidatorVerifier → Except String Unit} :
    Learns (start.Holds stored)
      (verifyUnlessSkipped fun verifier => (verify verifier).mapError rename)
      fun _ => start.Accepts fun verifier => verify verifier = .ok () := by
  refine weaken verifyUnlessSkipped_learns ?_
  intro _ accepts notSkipped
  obtain ⟨epochState, isEpochState, accepted⟩ := accepts notSkipped
  exact ⟨epochState, isEpochState, mapError_eq_ok.mp accepted⟩

theorem verifyQc_learns (qc : QuorumCert) : Learns (start.Holds stored) (verifyQc env qc) fun _ =>
      AcceptsQc env start qc :=
  seq requireEpochState_learns fun _ _ => verifyRenamed_learns

theorem verifyMaybeTc_learns (maybeTc : Option TwoChainTimeoutCertificate) :
    Learns (start.Holds stored) (verifyMaybeTc env maybeTc) fun _ =>
      ∀ tc, maybeTc = some tc → AcceptsTc env start tc := by
  cases maybeTc with
  | none =>
    refine returns ?_
    intro tc isSome
    cases isSome
  | some =>
    refine seq requireEpochState_learns fun _ _ => ?_
    refine weaken verifyRenamed_learns ?_
    intro _ accepts tc isSome
    cases isSome
    exact accepts

theorem verifyProposal_learns (proposal : VoteProposal) :
    Learns (start.Holds stored) (verifyProposal env proposal)
      fun voteData => ∃ data, stored = some data ∧
        AcceptsProposal env start proposal data voteData := by
  refine seq safetyData_learns fun data isStored => ?_
  refine seq (checks _) fun _ epochChecked => ?_
  refine seq (verifyQc_learns _) fun _ qcAccepted => ?_
  refine seq verifyRenamed_learns fun _ signatureAccepted => ?_
  refine reads fun session holds => ?_
  refine seq (checks _) fun _ wellFormed => ?_
  refine weaken (checks _) fun voteData generated => ?_
  rw [holds.currentTs] at wellFormed
  exact ⟨data, isStored, ensure_eq_ok.mp epochChecked, qcAccepted, signatureAccepted,
    mapError_eq_ok.mp wellFormed, mapError_eq_ok.mp generated⟩

theorem verifyOrderVoteProposal_learns (proposal : OrderVoteProposal) :
    Learns (start.Holds stored) (verifyOrderVoteProposal env proposal) fun _ =>
        (∃ data, stored = some data ∧ proposal.block.epoch = data.epoch) ∧
          proposal.quorumCert.certifiedBlock = proposal.blockInfo ∧
          proposal.quorumCert.certifiedBlock.id = proposal.block.id env.hash ∧
          AcceptsQc env start proposal.quorumCert := by
  refine seq safetyData_learns fun data isStored => ?_
  refine seq (checks _) fun _ epochChecked => ?_
  refine seq (checks _) fun _ infoChecked => ?_
  refine seq (checks _) fun _ idChecked => ?_
  refine weaken (verifyQc_learns _) ?_
  intro _ qcAccepted
  exact ⟨⟨data, isStored, ensure_eq_ok.mp epochChecked⟩,
    ensure_eq_ok.mp infoChecked, ensure_eq_ok.mp idChecked, qcAccepted⟩

/-! ## The signing operations -/

theorem verifyAndUpdateLastVoteRound_eq_ok {round : Nat} {before voted : SafetyData}
    (updated : verifyAndUpdateLastVoteRound round before = .ok voted) :
    before.lastVotedRound < round ∧ voted = { before with lastVotedRound := round } := by
  unfold verifyAndUpdateLastVoteRound at updated
  split at updated
  · cases updated
  · rename_i notLe
    exact ⟨Nat.lt_of_not_le notLe, (Except.ok.inj updated).symm⟩

/-- A returned vote is the stored one of that round or a new one that was stored. -/
theorem guardedConstructAndSignVoteTwoChain_triple (proposal : VoteProposal)
    (maybeTc : Option TwoChainTimeoutCertificate) :
    Triple (start.Holds stored) (guardedConstructAndSignVoteTwoChain env proposal maybeTc)
      (fun vote session => ∃ before, stored = some before ∧
        ((previousVote before proposal.block = some vote ∧ start.Holds stored session) ∨
          ∃ after, SignsVote env start proposal maybeTc before vote after ∧
            start.Holds (some after) session))
      (fun session => start.Holds stored session ∨ ∃ before vote after, stored = some before ∧
          SignsVote env start proposal maybeTc before vote after ∧
          start.Holds (some after) session) := by
  refine andThen requireSigner_learns (fun _ => .inl) fun _ _ => ?_
  refine andThen (verifyProposal_learns proposal) (fun _ => .inl) ?_
  rintro voteData ⟨data, rfl, accepted⟩
  refine andThen (verifyMaybeTc_learns maybeTc) (fun _ => .inl) ?_
  intro _ tcAccepted
  refine andThen safetyData_learns (fun _ => .inl) fun _ isData => ?_
  cases isData
  cases previous : previousVote data proposal.block with
  | some =>
    refine Triple.returns ?_
    intro session holds
    exact ⟨data, rfl, .inl ⟨previous, holds⟩⟩
  | none =>
    refine andThen (checks _) (fun _ => .inl) ?_
    intro voted votedOk
    obtain ⟨newRound, votedEq⟩ := verifyAndUpdateLastVoteRound_eq_ok votedOk
    refine andThen (checks _) (fun _ => .inl) fun _ safe => ?_
    refine andThen requireSigner_learns (fun _ => .inl) ?_
    intro signer isSigner
    refine andThen (checks _) (fun _ => .inl) ?_
    intro ledgerInfo ledgerInfoEq
    refine andThen (sign_learns _) (fun _ => .inl) ?_
    intro signature ⟨signerAgain, isSignerAgain, signed⟩
    obtain rfl : signerAgain = signer := Option.some.inj (isSignerAgain.symm.trans isSigner)
    have signsVote : SignsVote env start proposal maybeTc data
        (Vote.newWithSignature voteData signerAgain.author ledgerInfo signature)
        { (observeQc proposal.block.quorumCert voted).1 with
          lastVote := some (Vote.newWithSignature voteData
            signerAgain.author ledgerInfo signature) } :=
      ⟨accepted, tcAccepted, previous, newRound, safe, ledgerInfoEq,
        ⟨signerAgain, isSigner, rfl, signed⟩, by rw [votedEq]⟩
    refine Triple.seq _ (Triple.weaken (setSafetyData_triple _) (fun _ _ after => after) ?_)
      fun _ => Triple.returns ?_
    · intro session outcome
      exact outcome.imp_right fun applied => ⟨data, _, _, rfl, signsVote, applied⟩
    · intro session applied
      exact ⟨data, rfl, .inr ⟨_, signsVote, applied⟩⟩

theorem guardedConstructAndSignOrderVote_triple (proposal : OrderVoteProposal) :
    Triple (start.Holds stored) (guardedConstructAndSignOrderVote env proposal)
      (fun vote session => ∃ before after, stored = some before ∧
        SignsOrderVote env start proposal before vote after ∧
        start.Holds (some after) session)
      (fun session => start.Holds stored session ∨ ∃ before vote after, stored = some before ∧
          SignsOrderVote env start proposal before vote after ∧
          start.Holds (some after) session) := by
  refine andThen requireSigner_learns (fun _ => .inl) fun _ _ => ?_
  refine andThen (verifyOrderVoteProposal_learns proposal) (fun _ => .inl) ?_
  rintro _ ⟨⟨data, rfl, epochEq⟩, infoEq, idEq, qcAccepted⟩
  refine andThen safetyData_learns (fun _ => .inl) fun _ isData => ?_
  cases isData
  refine andThen (checks _) (fun _ => .inl) fun _ safeOk => ?_
  have safe : data.highestTimeoutRound < proposal.block.round := ensure_eq_ok.mp safeOk
  refine andThen requireSigner_learns (fun _ => .inl) ?_
  intro signer isSigner
  refine andThen (sign_learns _) (fun _ => .inl) ?_
  intro signature ⟨signerAgain, isSignerAgain, signed⟩
  obtain rfl : signerAgain = signer := Option.some.inj (isSignerAgain.symm.trans isSigner)
  have signsOrderVote : SignsOrderVote env start proposal data
      ⟨signerAgain.author, ⟨proposal.blockInfo, HashValue.zero⟩, signature⟩
      (observeQc proposal.quorumCert data).1 :=
    ⟨epochEq, infoEq, idEq, qcAccepted, safe, rfl, ⟨signerAgain, isSigner, rfl, signed⟩, rfl⟩
  refine Triple.seq _ (Triple.weaken (setSafetyData_triple _) (fun _ _ after => after) ?_)
    fun _ => Triple.returns ?_
  · intro session outcome
    exact outcome.imp_right fun applied => ⟨data, _, _, rfl, signsOrderVote, applied⟩
  · intro session applied
    exact ⟨data, _, rfl, signsOrderVote, applied⟩

theorem timeoutVoted_eq_ok {timeout : TwoChainTimeout} {before voted : SafetyData}
    (notBehind : ¬ timeout.round < before.lastVotedRound)
    (updated : (if timeout.round > before.lastVotedRound then verifyAndUpdateLastVoteRound
      timeout.round before else .ok before) = .ok voted) :
    voted = { before with lastVotedRound := timeout.round } := by
  split at updated
  · exact (verifyAndUpdateLastVoteRound_eq_ok updated).2
  · rename_i notAhead
    have sameRound : before.lastVotedRound = timeout.round :=
      Nat.le_antisymm (Nat.le_of_not_lt notBehind) (Nat.le_of_not_lt notAhead)
    rw [← Except.ok.inj updated, ← sameRound]

/-- The timeout is persisted before it is signed. -/
theorem guardedSignTimeoutWithQc_triple (timeout : TwoChainTimeout)
    (maybeTc : Option TwoChainTimeoutCertificate) :
    Triple (start.Holds stored) (guardedSignTimeoutWithQc env timeout maybeTc)
      (fun signature session => ∃ before after, stored = some before ∧
        SignsTimeout timeout before after ∧
        (∃ author, SignedBy env start author (.timeout timeout.signingFormat) signature) ∧
        (AcceptsQc env start timeout.quorumCert ∧
          ∀ tc, maybeTc = some tc → AcceptsTc env start tc) ∧
        start.Holds (some after) session)
      (fun session => start.Holds stored session ∨ ∃ before after, stored = some before ∧
          SignsTimeout timeout before after ∧
          start.Holds (some after) session) := by
  refine andThen requireSigner_learns (fun _ => .inl) fun _ _ => ?_
  refine andThen safetyData_learns (fun _ => .inl) ?_
  intro before isStored
  refine andThen (checks _) (fun _ => .inl) ?_
  intro _ epochOk
  refine andThen verifyRenamed_learns (fun _ => .inl) fun _ verified => ?_
  refine andThen (verifyMaybeTc_learns maybeTc) (fun _ => .inl) fun _ tcAccepted => ?_
  refine andThen (checks _) (fun _ => .inl) fun _ safe => ?_
  simp only [safeToTimeout, bind_eq_ok, ensure_eq_ok] at safe
  obtain ⟨_, _, _, oneChain⟩ := safe
  refine andThen (checks _) (fun _ => .inl) ?_
  intro _ notBehindOk
  have notBehind : ¬ timeout.round < before.lastVotedRound := ensure_eq_ok.mp notBehindOk
  refine andThen (checks _) (fun _ => .inl) ?_
  intro voted votedOk
  have votedEq := timeoutVoted_eq_ok notBehind votedOk
  have signsTimeout : SignsTimeout timeout before (updateHighestTimeoutRound timeout voted) :=
    ⟨ensure_eq_ok.mp epochOk, oneChain, Nat.le_of_not_lt notBehind, by rw [votedEq]⟩
  refine Triple.seq _ (Triple.weaken (setSafetyData_triple _) (fun _ _ after => after) ?_)
    fun _ => ?_
  · intro session outcome
    exact outcome.imp_right fun applied => ⟨before, _, isStored, signsTimeout, applied⟩
  · refine Triple.weaken (sign_learns _) ?_ ?_
    · rintro signature session ⟨applied, signer, isSigner, signed⟩
      refine ⟨before, _, isStored, signsTimeout, ⟨signer.author, signer, isSigner, rfl, signed⟩,
        ⟨fun notSkipped => ?_, tcAccepted⟩, applied⟩
      obtain ⟨epochState, isEpochState, accepted⟩ := verified notSkipped
      obtain ⟨_, _, qcAccepted⟩ := of_bind accepted
      exact ⟨epochState, isEpochState, qcAccepted⟩
    · intro session applied
      exact .inr ⟨before, _, isStored, signsTimeout, applied⟩

/-! ## The operations that sign no vote -/

theorem verifyAuthor_learns (author : Option Author) :
    Learns (start.Holds stored) (verifyAuthor author) fun _ => True := by
  refine seq requireSigner_learns fun signer _ => ?_
  cases author with
  | none => exact fails
  | some author =>
    by_cases different : signer.author ≠ author
    · simp only [if_pos different]
      exact fails
    · simp only [if_neg different]
      exact returns trivial

/-- Signing a proposal persists nothing. -/
theorem guardedSignProposal_learns (blockData : BlockData) :
    Learns (start.Holds stored) (guardedSignProposal env blockData) fun _ => True := by
  refine seq requireSigner_learns fun _ _ => ?_
  refine seq (verifyAuthor_learns _) fun _ _ => ?_
  refine seq safetyData_learns fun _ _ => ?_
  refine seq (checks _) fun _ _ => ?_
  refine seq (checks _) fun _ _ => ?_
  refine seq (verifyQc_learns _) fun _ _ => ?_
  refine seq (checks _) fun _ _ => ?_
  exact weaken (sign_learns _) fun _ _ => trivial

def Stores (stored : Option SafetyData) (session : Session) : Prop :=
  session.store.safetyData = stored ∧ session.Coherent

/-- The stored safety data are still `stored` or those of a later epoch. -/
def Renews (stored : Option SafetyData) (session : Session) : Prop := Stores stored session ∨
    ∃ before epoch, stored = some before ∧ before.epoch < epoch ∧
      Stores (some (newEpochData epoch)) session

theorem Stores.holds {session : Session}
    (stores : Stores stored session) : session.Holds stored session :=
  ⟨rfl, rfl, rfl, rfl, stores.1, stores.2⟩

theorem renews_of_learns {α : Type} {ε : Type} {program : Guarded Session ε α} {fact : α → Prop}
    (learns : ∀ (start : Session) (stored : Option SafetyData), Learns (start.Holds stored) program
      fact) : Learns (Renews stored) program fun _ => True := by
  intro session renews
  have current : Stores session.store.safetyData session :=
    ⟨rfl, renews.elim And.right fun ⟨_, _, _, _, stores⟩ => stores.2⟩
  have after := learns session _ session (Stores.holds current)
  have keeps : ∀ final, session.Holds session.store.safetyData final → Renews stored final := by
    intro final holds
    have finalEq := holds.safetyData
    rcases renews with same | ⟨before, epoch, isStored, later, renewed⟩
    · exact .inl ⟨finalEq.trans same.1, holds.coherent⟩
    · exact .inr ⟨before, epoch, isStored, later, finalEq.trans renewed.1, holds.coherent⟩
  rcases outcome : exec program session with ⟨result, final⟩
  rw [outcome] at after
  cases result with
  | error => exact keeps final after
  | ok => exact ⟨keeps final after.1, trivial⟩

theorem fetch_learns {α : Type} {key : String} {value : InternalStore → Option α} :
    Learns (start.Holds stored) (fetch key value) fun _ => True :=
  Triple.weaken fetch_triple (fun _ _ after => ⟨after.1, trivial⟩) fun _ holds => holds

theorem setWaypoint_learns (waypoint : Waypoint) :
    Learns (start.Holds stored) (setWaypoint waypoint) fun _ => True := by
  have kept : ∀ session, start.Holds stored session → start.Holds stored (session.setStore
      { session.store with waypoint := some waypoint }) :=
    fun _ holds =>
      ⟨holds.1, holds.2, holds.3, holds.4, holds.5, holds.6⟩
  refine renamed (Triple.weaken (put_triple _ kept) (fun _ _ after => ⟨after, trivial⟩) ?_)
  intro session outcome
  exact outcome.elim id id

theorem consensusSkByPk_learns (publicKeyOf : PrivateKey → PublicKey) (pk : PublicKey) :
    Learns (start.Holds stored) (consensusSkByPk publicKeyOf pk) fun _ => True := by
  refine seq (attempted fetch_learns) fun explicitSk _ => ?_
  refine seq (attempted fetch_learns) fun defaultSk _ => ?_
  have compare : ∀ key, Learns (start.Holds stored) (if publicKeyOf key ≠ pk then
        throw (.secureStorageMissingDataError ("Incorrect sk saved for " ++ hexEncode pk ++
            " the expected pk"))
      else pure key : SafetyM PrivateKey) fun _ => True := by
    intro key
    split
    · exact fails
    · exact returns trivial
  cases explicitSk with
  | ok explicit => exact compare explicit
  | error =>
    cases defaultSk with
    | ok default => exact compare default
    | error => exact fails

theorem enterEpoch_learns (epochState : EpochState) (waypoint newWaypoint : Waypoint) :
    Triple (start.Holds stored) (enterEpoch epochState waypoint newWaypoint)
      (fun _ => Renews stored) (Renews stored) := by
  have unchanged : ∀ session, start.Holds stored session → Renews stored session :=
    fun _ holds => .inl ⟨holds.safetyData, holds.coherent⟩
  refine andThen safetyData_learns unchanged ?_
  intro before isStored
  simp only
  split
  · exact Triple.fails unchanged
  · split
    · rename_i _ later
      have renewed : ∀ session, start.Holds (some (newEpochData epochState.epoch)) session →
          Renews stored session :=
        fun _ holds => .inr ⟨before, epochState.epoch, isStored, later,
          holds.safetyData, holds.coherent⟩
      refine Triple.weaken (setSafetyData_triple _) (fun _ => renewed) ?_
      intro session outcome
      exact outcome.elim (unchanged session) (renewed session)
    · exact Triple.returns unchanged

theorem loadSigner_learns (author : Author) (expectedKey : PublicKey) :
    Learns (Renews stored) (loadSigner env author expectedKey) fun _ => True := by
  refine seq (attempted (renews_of_learns
    fun _ _ => consensusSkByPk_learns _ _)) fun found _ => ?_
  split
  · exact updates fun _ renews => renews
  · exact fails
  · exact fails

theorem reconcileKey_learns (author : Author) (epochState : EpochState) :
    Learns (Renews stored) (reconcileKey env author epochState) fun _ => True := by
  unfold reconcileKey
  split
  · exact fails
  · refine reads fun session _ => ?_
    split
    · exact returns trivial
    · exact loadSigner_learns _ _

theorem adoptEpoch_learns (epochState : EpochState) :
    Learns (Renews stored) (adoptEpoch env epochState) fun _ => True := by
  refine seq (updates fun _ renews => renews) fun _ _ => ?_
  refine seq (renews_of_learns fun _ _ =>
    renamed fetch_learns) fun author _ => ?_
  refine seq (attempted
    (reconcileKey_learns author epochState)) fun reconciled _ => ?_
  cases reconciled with
  | ok => exact returns trivial
  | error =>
    refine seq (updates fun _ renews => renews) fun _ _ => ?_
    exact fails

theorem raiseWaypoint_learns (waypoint newWaypoint : Waypoint) :
    Learns (start.Holds stored) (raiseWaypoint waypoint newWaypoint) fun _ => True := by
  unfold raiseWaypoint
  split
  · exact setWaypoint_learns newWaypoint
  · exact returns trivial

/-- `initialize` leaves the stored safety data alone or starts a later epoch. -/
theorem guardedInitialize_triple (proof : EpochChangeProof) :
    Triple (start.Holds stored) (guardedInitialize env proof)
      (fun _ => Renews stored) (Renews stored) := by
  have unchanged : ∀ session, start.Holds stored session → Renews stored session :=
    fun _ holds => .inl ⟨holds.safetyData, holds.coherent⟩
  refine andThen (renamed fetch_learns) unchanged fun waypoint _ => ?_
  refine andThen (checks _) unchanged fun lastLi _ => ?_
  split
  · exact Triple.fails unchanged
  · rename_i epochState _
    refine andThen (checks _) unchanged fun newWaypoint _ => ?_
    refine andThen (raiseWaypoint_learns _ _) unchanged fun _ _ => ?_
    refine Triple.seq _ (enterEpoch_learns _ _ _) fun _ => ?_
    exact Triple.weaken (adoptEpoch_learns epochState) (fun _ _ after => after.1)
      fun _ renews => renews

end SafetyRules

end LumioNode
