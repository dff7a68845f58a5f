import LumioNode.SafetyRules.Run

/-! # The validators of one epoch

Honest validators run their own rules in any interleaving, so everything one signed is
in a consistent log, justified by calls that passed the checks. -/

namespace LumioNode.SafetyRules

open Library Guarded ValidatorVerifier List Function

structure Committee where
  env : SafetyEnv
  epoch : Nat
  infos : List ValidatorConsensusInfo
  byzantine : Finset AccountAddress
  distinct : (new infos).Distinct
  byzantineBound : ∑ author ∈ (new infos).members ∩ byzantine, (new infos).power author ≤
      (new infos).totalVotingPower - (new infos).quorumVotingPower

namespace Committee

def verifier (committee : Committee) : ValidatorVerifier := new committee.infos

def Honest (committee : Committee) (author : Author) : Prop :=
  author ∈ committee.verifier.members ∧ author ∉ committee.byzantine

end Committee

/-- Takes part in the epoch, with signature verification on and `data` in its store. -/
structure InEpoch (committee : Committee) (author : Author)
    (data : SafetyData) (rules : SafetyRules) : Prop where
  signer : ∃ key, rules.validatorSigner = some ⟨author, key⟩
  epochState : rules.epochState = some ⟨committee.epoch, committee.verifier⟩
  verifies : rules.skipSigVerify = false
  coherent : Coherent rules
  persisted : persisted rules = some data
  epochEq : data.epoch = committee.epoch

/-- The events of all validators, in the order in which they happen. -/
def networkTrace (env : SafetyEnv) (rules : Author → SafetyRules) :
    List (Author × Input) → List (Author × Event)
  | [] => []
  | (author, input) :: rest =>
    let performed := perform env (rules author) input
    (author, ⟨rules author, input, performed.1, performed.2⟩) ::
      networkTrace env (update rules author performed.2) rest

/-- Honest validators start with fresh safety data and are asked for votes, order votes and
timeouts. -/
structure Execution (committee : Committee) where
  start : Author → SafetyRules
  inputs : List (Author × Input)
  fresh : ∀ author, committee.Honest author →
    InEpoch committee author (newEpochData committee.epoch) (start author)
  honest : ∀ entry ∈ inputs, committee.Honest entry.1
  signing : ∀ entry ∈ inputs, entry.2.call.IsSigning

def Execution.events {committee : Committee}
    (execution : Execution committee) : List (Author × Event) :=
  networkTrace committee.env execution.start execution.inputs

/-! ## Each validator's part is a run of its own rules -/

def ownEntries {α : Type} (author : Author) (entries : List (Author × α)) : List α :=
  entries.filterMap fun entry =>
    if entry.1 = author then some entry.2 else none

theorem mem_ownEntries {α : Type} {author : Author} {entries : List (Author × α)} {value : α} :
    value ∈ ownEntries author entries ↔ (author, value) ∈ entries := by
  rw [ownEntries, mem_filterMap]
  constructor
  · intro ⟨entry, member, isOwn⟩
    split at isOwn
    · rename_i authorEq
      cases isOwn
      rw [← authorEq]
      exact member
    · cases isOwn
  · intro member
    exact ⟨(author, value), member, by simp⟩

theorem ownEntries_networkTrace (env : SafetyEnv) (author : Author)
    (inputs : List (Author × Input)) (rules : Author → SafetyRules) :
    ownEntries author (networkTrace env rules inputs) =
      trace env (rules author) (ownEntries author inputs) := by
  induction inputs generalizing rules with
  | nil => rfl
  | cons entry rest inductionHypothesis =>
    obtain ⟨other, input⟩ := entry
    by_cases sameAuthor : other = author
    · subst sameAuthor
      have rest := inductionHypothesis (update rules other (perform env (rules other) input).2)
      rw [update_self] at rest
      simp only [networkTrace, ownEntries, filterMap_cons, if_true, trace] at rest ⊢
      rw [rest]
    · have rest := inductionHypothesis (update rules other (perform env (rules other) input).2)
      rw [update_of_ne (Ne.symm sameAuthor)] at rest
      simp only [networkTrace, ownEntries, filterMap_cons, if_neg sameAuthor] at rest ⊢
      exact rest

/-! ## What a signature is justified by -/

structure JustifiedVote (committee : Committee) (proposal : VoteProposal)
    (maybeTc : Option TwoChainTimeoutCertificate) (vote : Vote) : Prop where
  proposedId : vote.voteData.proposed.id = proposal.block.id committee.env.hash
  roundEq : vote.round = proposal.block.round
  epochEq : vote.epoch = committee.epoch
  parentEq : vote.voteData.parent = proposal.block.quorumCert.certifiedBlock
  parentId : proposal.block.parentId = proposal.block.quorumCert.certifiedBlock.id
  parentRound : proposal.block.quorumCert.certifiedBlock.round < proposal.block.round
  qcAccepted : proposal.block.quorumCert.verify committee.env.blsLedgerInfo
      committee.env.hash.voteData committee.verifier = .ok ()
  tcAccepted : ∀ tc, maybeTc = some tc →
    tc.verify committee.env.blsLedgerInfo committee.env.blsTimeout
      committee.env.hash.voteData committee.verifier = .ok ()
  safe : safeToVote proposal.block maybeTc = .ok ()
  ledgerInfoEq : constructLedgerInfo2chain proposal.block
      (committee.env.hash.voteData vote.voteData) = .ok vote.ledgerInfo

structure JustifiedOrderVote (committee : Committee)
    (proposal : OrderVoteProposal) (vote : OrderVote) : Prop where
  epochEq : proposal.block.epoch = committee.epoch
  certifiedId : proposal.quorumCert.certifiedBlock.id = proposal.block.id committee.env.hash
  qcAccepted : proposal.quorumCert.verify committee.env.blsLedgerInfo
      committee.env.hash.voteData committee.verifier = .ok ()
  ledgerInfoEq : vote.ledgerInfo = ⟨proposal.quorumCert.certifiedBlock, HashValue.zero⟩

/-- A log entry and the input that asked for it. -/
inductive Justified (committee : Committee) (inputs : List Input) : Signed → Prop
  | vote {proposal : VoteProposal}
      {maybeTc : Option TwoChainTimeoutCertificate} {vote : Vote}
      {input : Input} (asked : input ∈ inputs)
      (callEq : input.call = .vote proposal maybeTc)
      (justified : JustifiedVote committee proposal maybeTc vote) :
      Justified committee inputs (.vote vote)
  | orderVote {proposal : OrderVoteProposal} {vote : OrderVote}
      {input : Input} (asked : input ∈ inputs)
      (callEq : input.call = .orderVote proposal)
      (justified : JustifiedOrderVote committee proposal vote) :
      Justified committee inputs (.orderVote proposal vote)
  | timeout {timeout : TwoChainTimeout}
      (epochEq : timeout.epoch = committee.epoch) :
      Justified committee inputs (.timeout timeout)

variable {log : List Signed} {vote : Vote} {event : Event}

section Justification

variable {committee : Committee} {author : Author} {rules : SafetyRules}
  {before after : SafetyData} {input : Input}

section

variable (inEpoch : InEpoch committee author before rules)

include inEpoch

theorem InEpoch.accepts {verify : ValidatorVerifier → Prop}
    (accepts : (session rules input).Accepts verify) : verify committee.verifier := by
  obtain ⟨epochState, isEpochState, accepted⟩ := accepts inEpoch.verifies
  have same := inEpoch.epochState.symm.trans isEpochState
  cases same
  exact accepted

theorem SignsVote.justified {proposal : VoteProposal} {maybeTc : Option TwoChainTimeoutCertificate}
    (signs : SignsVote committee.env (session rules input) proposal maybeTc before vote after) :
    JustifiedVote committee proposal maybeTc vote := by
  obtain ⟨idEq, roundEq, epochEq, parentEq⟩ :=
    VoteProposal.genVoteData_eq_ok signs.accepted.voteDataEq
  have signatureAccepted := inEpoch.accepts signs.accepted.signatureAccepted
  have parentId : proposal.block.parentId = proposal.block.quorumCert.certifiedBlock.id := by
    unfold Block.validateSignature at signatureAccepted
    unfold Block.parentId BlockData.parentId Block.quorumCert
    split
    · rename_i typeEq
      rw [typeEq] at signatureAccepted
      cases signatureAccepted
    · rfl
  exact
    { proposedId := idEq
      roundEq := roundEq
      epochEq := epochEq.trans (signs.accepted.epochEq.trans inEpoch.epochEq)
      parentEq := parentEq
      parentId := parentId
      parentRound := (Block.round_lt_of_verifyWellFormed signs.accepted.wellFormed).1
      qcAccepted := inEpoch.accepts signs.accepted.qcAccepted
      tcAccepted := fun tc isSome =>
        inEpoch.accepts (signs.tcAccepted tc isSome)
      safe := signs.safe
      ledgerInfoEq := signs.ledgerInfoEq }

theorem Performs.justified {inputs : List Input} {signed : Signed}
    (performs : Performs committee.env (session rules input) input.call before (some signed) after)
    (asked : input ∈ inputs) : Justified committee inputs signed := by
  cases performs with
  | vote callEq signs => exact .vote asked callEq (signs.justified inEpoch)
  | orderVote callEq signs =>
    exact .orderVote asked callEq ⟨signs.epochEq.trans inEpoch.epochEq, signs.idEq,
      inEpoch.accepts signs.qcAccepted, by rw [signs.ledgerInfoEq, signs.blockInfoEq]⟩
  | timeout callEq signs =>
    exact .timeout (signs.epochEq.trans inEpoch.epochEq)

end

theorem Justified.mono {inputs more : List Input} {signed : Signed}
    (justified : Justified committee inputs signed)
    (subset : inputs ⊆ more) : Justified committee more signed := by
  cases justified with
  | vote asked callEq justified =>
    exact .vote (subset asked) callEq justified
  | orderVote asked callEq justified =>
    exact .orderVote (subset asked) callEq justified
  | timeout epochEq => exact .timeout epochEq

/-- A signing call leaves the validator in the epoch. -/
theorem InEpoch.perform (inEpoch : InEpoch committee author before rules)
    (isSigning : input.call.IsSigning) :
    ∃ signed after, Performs committee.env (session rules input) input.call before signed after ∧
        InEpoch committee author after (perform committee.env rules input).2 ∧
        Explains before input (perform committee.env rules input).1 signed := by
  obtain ⟨signed, after, final, performs, applied, rulesEq, explains⟩ :=
    perform_signing inEpoch.coherent inEpoch.persisted isSigning
  refine ⟨signed, after, performs, ?_, explains⟩
  have epochKept : after.epoch = before.epoch := by
    cases signed with
    | some => exact performs.step.epoch_eq.2
    | none =>
      cases performs with
      | stay => rfl
      | newEpoch callEq => simp [callEq, Call.IsSigning] at isSigning
  rw [rulesEq]
  exact
    { signer := by
        rw [applied.validatorSigner]
        exact inEpoch.signer
      epochState := applied.epochState.trans inEpoch.epochState
      verifies := applied.skipSigVerify.trans inEpoch.verifies
      coherent := applied.coherent
      persisted := applied.safetyData
      epochEq := epochKept.trans inEpoch.epochEq }

end Justification

/-! ## The log of an honest validator -/

structure Recorded (log : List Signed) (event : Event) : Prop where
  vote : ∀ vote, event.ReturnsVote vote → Signed.vote vote ∈ log
  orderVote : ∀ vote, event.response = .orderVote (.ok vote) →
    ∃ proposal, Signed.orderVote proposal vote ∈ log
  timeout : ∀ timeout, event.ReturnsTimeout timeout → Signed.timeout timeout ∈ log

theorem Recorded.mono {more : List Signed} (recorded : Recorded log event) (subset : log ⊆ more) :
    Recorded more event where
  vote vote returns := subset (recorded.vote vote returns)
  orderVote vote returns := by
    obtain ⟨proposal, member⟩ := recorded.orderVote vote returns
    exact ⟨proposal, subset member⟩
  timeout timeout returns := subset (recorded.timeout timeout returns)

theorem Explains.recorded {before : SafetyData} {signed : Option Signed}
    (explains : Explains before event.input event.response signed)
    (consistent : Consistent before log) : Recorded (signed.toList ++ log) event where
  vote _ returns := explains.vote_mem consistent returns
  orderVote vote returns := by
    obtain ⟨proposal, _, isNew⟩ := explains.orderVote vote returns
    exact ⟨proposal, isNew ▸ mem_cons_self ..⟩
  timeout _ returns := explains.newTimeout returns ▸ mem_cons_self ..

/-- Whatever an honest validator returns is in one consistent log of justified signatures. -/
theorem InEpoch.run {committee : Committee} {author : Author} (inputs : List Input)
    {data : SafetyData} {rules : SafetyRules} (inEpoch : InEpoch committee author data rules)
    (consistent : Consistent data log) (signing : ∀ input ∈ inputs, input.call.IsSigning) :
    ∃ final newer, Consistent final (newer ++ log) ∧
        (∀ signed ∈ newer, Justified committee inputs signed) ∧
        ∀ event ∈ trace committee.env rules inputs, Recorded (newer ++ log) event := by
  induction inputs generalizing data rules log with
  | nil =>
    refine ⟨data, [], consistent, by simp, ?_⟩
    intro event member
    cases member
  | cons input rest inductionHypothesis =>
    obtain ⟨signed, after, performs, stillInEpoch, explains⟩ :=
      inEpoch.perform (signing input (mem_cons_self ..))
    have nowConsistent := consistent.extend performs
    obtain ⟨final, newer, finalConsistent, justified, recorded⟩ :=
      inductionHypothesis stillInEpoch nowConsistent (forall_mem_cons.mp signing).2
    refine ⟨final, newer ++ signed.toList, ?_, ?_, ?_⟩
    · rw [append_assoc]
      exact finalConsistent
    · intro entry member
      rcases mem_append.mp member with isNewer | isSigned
      · exact (justified entry isNewer).mono (subset_cons_self _ _)
      · have signedEq : signed = some entry := Option.mem_toList.mp isSigned
        subst signedEq
        exact performs.justified inEpoch (mem_cons_self ..)
    · rw [append_assoc]
      exact forall_mem_cons.mpr
        ⟨(explains.recorded consistent).mono (subset_append_right _ _), recorded⟩

theorem Execution.exists_log {committee : Committee} (execution : Execution committee)
    {author : Author} (isHonest : committee.Honest author) :
    ∃ final log, Consistent final log ∧ (∀ signed ∈ log, Justified committee
          (ownEntries author execution.inputs) signed) ∧
        ∀ event, (author, event) ∈ execution.events → Recorded log event := by
  obtain ⟨final, log, consistent, justified, recorded⟩ := (execution.fresh author isHonest).run
    (ownEntries author execution.inputs) (consistent_newEpoch _)
    fun input member =>
        execution.signing _ (mem_ownEntries.mp member)
  rw [append_nil] at consistent recorded
  refine ⟨final, log, consistent, justified, ?_⟩
  intro event member
  refine recorded event ?_
  rw [← ownEntries_networkTrace]
  exact mem_ownEntries.mpr member

/-! ## What honest validators return -/

section Returned

variable {committee : Committee} (execution : Execution committee)

def Execution.CastVote (author : Author) (vote : Vote) : Prop :=
  ∃ event, (author, event) ∈ execution.events ∧ event.ReturnsVote vote

def Execution.CastOrderVote (author : Author) (vote : OrderVote) : Prop :=
  ∃ event, (author, event) ∈ execution.events ∧ event.response = .orderVote (.ok vote)

def Execution.CastTimeout (author : Author) (timeout : TwoChainTimeout) : Prop :=
  ∃ event, (author, event) ∈ execution.events ∧ event.ReturnsTimeout timeout

variable {execution} {author : Author}

section

variable (isHonest : committee.Honest author)

include isHonest

theorem Execution.CastVote.justified (cast : execution.CastVote author vote) :
    ∃ proposal maybeTc input, (author, input) ∈ execution.inputs ∧
      input.call = .vote proposal maybeTc ∧
      JustifiedVote committee proposal maybeTc vote := by
  obtain ⟨event, member, returns⟩ := cast
  obtain ⟨final, log, _, justified, recorded⟩ := execution.exists_log isHonest
  have inLog := (recorded event member).vote vote returns
  cases justified _ inLog with
  | vote asked callEq justified =>
    exact ⟨_, _, _, mem_ownEntries.mp asked, callEq, justified⟩

theorem Execution.CastVote.unique {first second : Vote}
    (castFirst : execution.CastVote author first) (castSecond : execution.CastVote author second)
    (sameRound : first.round = second.round) : first = second := by
  obtain ⟨_, _, _, _, _, firstJustified⟩ := castFirst.justified isHonest
  obtain ⟨_, _, _, _, _, secondJustified⟩ := castSecond.justified isHonest
  have sameEpoch : first.epoch = second.epoch :=
    firstJustified.epochEq.trans secondJustified.epochEq.symm
  obtain ⟨event, member, returns⟩ := castFirst
  obtain ⟨event', member', returns'⟩ := castSecond
  obtain ⟨final, log, consistent, _, recorded⟩ := execution.exists_log isHonest
  exact consistent.vote_unique ((recorded event member).vote _ returns)
    ((recorded event' member').vote _ returns') sameEpoch sameRound

theorem Execution.CastVote.parent_le_hqcRound {timeout : TwoChainTimeout}
    (cast : execution.CastVote author vote) (expired : execution.CastTimeout author timeout)
    (reached : vote.round ≤ timeout.round) : vote.voteData.parent.round ≤ timeout.hqcRound := by
  obtain ⟨_, _, _, _, _, justifiedVote⟩ := cast.justified isHonest
  obtain ⟨event, member, returns⟩ := cast
  obtain ⟨event', member', returns'⟩ := expired
  obtain ⟨final, log, consistent, justified, recorded⟩ := execution.exists_log isHonest
  have timeoutInLog := (recorded event' member').timeout timeout returns'
  have timeoutEpoch : timeout.epoch = committee.epoch := by
    cases justified _ timeoutInLog with
    | timeout epochEq => exact epochEq
  rcases consistent.respects_or ((recorded event member).vote _ returns) timeoutInLog
    (justifiedVote.epochEq.trans timeoutEpoch.symm) with same | voteNewer | timeoutNewer
  · cases same
  · exact absurd reached (Nat.not_le_of_gt voteNewer)
  · exact timeoutNewer

theorem Execution.CastOrderVote.justified {vote : OrderVote}
    (cast : execution.CastOrderVote author vote) :
    ∃ proposal input, (author, input) ∈ execution.inputs ∧ input.call = .orderVote proposal ∧
      JustifiedOrderVote committee proposal vote ∧
      ∀ timeout, execution.CastTimeout author timeout → proposal.block.round ≤ timeout.round →
          proposal.quorumCert.certifiedBlock.round ≤ timeout.hqcRound := by
  obtain ⟨event, member, returns⟩ := cast
  obtain ⟨final, log, consistent, justified, recorded⟩ := execution.exists_log isHonest
  obtain ⟨proposal, inLog⟩ := (recorded event member).orderVote vote returns
  cases justified _ inLog with
  | orderVote asked callEq justifiedVote =>
    refine ⟨_, _, mem_ownEntries.mp asked, callEq, justifiedVote, ?_⟩
    intro timeout ⟨event', member', returns'⟩ reached
    have timeoutInLog := (recorded event' member').timeout timeout returns'
    have timeoutEpoch : timeout.epoch = committee.epoch := by
      cases justified _ timeoutInLog with
      | timeout epochEq => exact epochEq
    rcases consistent.respects_or inLog timeoutInLog
      (justifiedVote.epochEq.trans timeoutEpoch.symm) with same | voteNewer | timeoutNewer
    · cases same
    · exact absurd reached (Nat.not_le_of_gt voteNewer)
    · exact timeoutNewer

end

end Returned

end LumioNode.SafetyRules
