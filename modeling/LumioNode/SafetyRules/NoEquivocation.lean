import LumioNode.SafetyRules.Run

/-! # No equivocation across crashes and storage failures

Whatever accesses fail and whenever the process restarts.  Rounds start again at zero
with each epoch. -/

namespace LumioNode.SafetyRules

open List

/-! ## Pairs of events -/

section Pairs

variable {env : SafetyEnv} {earlier later event : Event} {data : SafetyData} {log : List Signed}
  {timeout : TwoChainTimeout} {epoch round : Nat}

/-- A signature of the later event respects the log at the earlier one. -/
theorem Continues.respects {newer older : Signed} (continues : Continues env data log event)
    (signs : ∀ before signed, persisted event.before = some before → Explains before event.input
      event.response signed → signed = some newer) (member : older ∈ log)
    (sameEpoch : newer.epoch = older.epoch) : Respects newer older := by
  obtain ⟨before, after, signed, newerLog, isBefore, _, performs, explains,
    consistent, _⟩ := continues
  have signedEq := signs before signed isBefore explains
  subst signedEq
  have extended := consistent.signs performs.step
  exact (pairwise_cons.mp extended.respects).1 older (mem_append_right _ member) sameEpoch

theorem Follows.vote_after_timeout (follows : Follows env earlier later)
    {vote : Vote} (returnsTimeout : earlier.ReturnsTimeout timeout)
    (newlySigns : later.NewlySignsVote vote) (sameEpoch : vote.epoch = timeout.epoch) :
    timeout.round < vote.round := by
  obtain ⟨before, after, signed, log, _, _, explains, _, continues⟩ := follows
  have isTimeout := explains.newTimeout returnsTimeout
  subst isTimeout
  have respects : Respects (.vote vote) (.timeout timeout) := continues.respects
      (fun _ _ isBefore explains => explains.newVote isBefore newlySigns)
      (mem_cons_self ..) sameEpoch
  exact respects

theorem Follows.orderVote_after_timeout (follows : Follows env earlier later)
    {proposal : OrderVoteProposal}
    (returnsTimeout : earlier.ReturnsTimeout timeout)
    (returnsVote : later.ReturnsOrderVote proposal)
    (sameEpoch : proposal.block.epoch = timeout.epoch) : timeout.round < proposal.block.round := by
  obtain ⟨before, after, signed, log, _, _, explains, _, continues⟩ := follows
  have isTimeout := explains.newTimeout returnsTimeout
  subst isTimeout
  obtain ⟨vote, newOrderVote⟩ := returnsVote.newOrderVote
  have respects : Respects (.orderVote proposal vote) (.timeout timeout) :=
    continues.respects (fun _ _ _ explains => newOrderVote _ _ explains)
      (mem_cons_self ..) sameEpoch
  exact respects

theorem Event.Observes.mem {before after : SafetyData} {signed : Option Signed}
    (observes : event.Observes epoch round)
    (performs : Performs env (session event.before event.input) event.input.call before signed
      after) (isBefore : persisted event.before = some before)
    (explains : Explains before event.input event.response signed)
    (consistent : Consistent before log) :
    ∃ older ∈ signed.toList ++ log, older.epoch = epoch ∧
      ∀ timeout, Respects (.timeout timeout) older → round ≤ timeout.hqcRound := by
  cases observes with
  | parent returns =>
    exact ⟨_, explains.vote_mem consistent returns, rfl, fun _ respects => respects⟩
  | proposal newlySigns callEq =>
    rename_i vote proposal maybeTc
    have isVote := explains.newVote isBefore newlySigns
    subst isVote
    have parentEq : vote.voteData.parent = proposal.block.quorumCert.certifiedBlock := by
      cases performs with
      | vote otherCallEq signs =>
        rw [callEq] at otherCallEq
        cases otherCallEq
        exact (VoteProposal.genVoteData_eq_ok signs.accepted.voteDataEq).2.2.2
    refine ⟨_, mem_cons_self .., rfl, ?_⟩
    intro timeout respects
    rw [← parentEq]
    exact respects
  | ordered returns =>
    obtain ⟨vote, newOrderVote⟩ := returns.newOrderVote
    have isVote := newOrderVote _ _ explains
    subst isVote
    exact ⟨_, mem_cons_self .., rfl, fun _ respects => respects⟩

theorem Follows.timeout_after_observed (follows : Follows env earlier later)
    (observes : earlier.Observes epoch round)
    (returnsTimeout : later.ReturnsTimeout timeout) (sameEpoch : timeout.epoch = epoch) :
    round ≤ timeout.hqcRound := by
  obtain ⟨before, after, signed, log, performs, isBefore, explains,
    consistent, continues⟩ := follows
  obtain ⟨older, member, olderEpoch, bound⟩ := observes.mem performs isBefore explains consistent
  have respects : Respects (.timeout timeout) older := continues.respects
      (fun _ _ _ explains => explains.newTimeout returnsTimeout) member
      (sameEpoch.trans olderEpoch.symm)
  exact bound timeout respects

theorem Follows.vote_unique (follows : Follows env earlier later) {first second : Vote}
    (returnsFirst : earlier.ReturnsVote first) (returnsSecond : later.ReturnsVote second)
    (sameEpoch : first.epoch = second.epoch) (sameRound : first.round = second.round) :
    first = second := by
  obtain ⟨before, after, signed, log, _, _, explains, consistent, continues⟩ := follows
  obtain ⟨laterBefore, laterAfter, laterSigned, newer, _, _, laterPerforms,
    laterExplains, laterConsistent, _⟩ := continues
  have firstMember := explains.vote_mem consistent returnsFirst
  have secondMember := laterExplains.vote_mem laterConsistent returnsSecond
  have extended := laterConsistent.extend laterPerforms
  exact extended.vote_unique (mem_append_right _ (mem_append_right _ firstMember))
    secondMember sameEpoch sameRound

end Pairs

/-! ## The stored rounds -/

/-- The stored safety data at the start of a run and after each input. -/
def snapshots (env : SafetyEnv) (rules : SafetyRules) (inputs : List Input) :
    List (Option SafetyData) :=
  persisted rules :: (trace env rules inputs).map fun event => persisted event.after

def RoundsKept (earlier later : Option SafetyData) : Prop :=
  ∀ old new, earlier = some old → later = some new → old.epoch = new.epoch → RoundsLe old new

theorem snapshots_kept (env : SafetyEnv) (inputs : List Input) {rules : SafetyRules}
    {data : SafetyData} {log : List Signed} (coherent : Coherent rules)
    (isPersisted : persisted rules = some data) (consistent : Consistent data log) :
    (snapshots env rules inputs).Pairwise RoundsKept := by
  induction inputs generalizing rules data log with
  | nil => exact pairwise_singleton _ _
  | cons input rest inductionHypothesis =>
    obtain ⟨signed, after, performs, nowPersisted, stillCoherent, _⟩ :=
      perform_step env input coherent isPersisted
    have nowConsistent := consistent.extend performs
    refine pairwise_cons.mpr ⟨?_, inductionHypothesis stillCoherent nowPersisted nowConsistent⟩
    intro snapshot member old new isOld isNew sameEpoch
    rw [isPersisted] at isOld
    cases isOld
    rcases mem_cons.mp member with isFirst | inRest
    · have newEq : some after = some new := nowPersisted.symm.trans (isFirst.symm.trans isNew)
      cases newEq
      exact performs.step.roundsLe sameEpoch
    · obtain ⟨event, eventMember, rfl⟩ := mem_map.mp inRest
      obtain ⟨before, later, laterSigned, newer, isBefore, isLater,
        laterPerforms, _, _, epochLe, rounds⟩ :=
        trace_continues env rest stillCoherent nowPersisted nowConsistent event eventMember
      rw [isLater] at isNew
      cases isNew
      have laterStep := laterPerforms.step
      exact RoundsLe.of_epochs performs.step.epoch_le
        (epochLe.trans laterStep.epoch_le) performs.step.roundsLe
        (RoundsLe.of_epochs epochLe laterStep.epoch_le rounds laterStep.roundsLe) sameEpoch

/-- In every run from a new store: stored rounds never decrease within an epoch; votes of one
epoch and round are equal; after a timeout no vote or order vote of its round or below is
returned; and after a vote or order vote, timeouts carry at least the round that it observed. -/
theorem no_equivocation (env : SafetyEnv) (author : Author) (consensusKey : PrivateKey)
    (waypoint : Waypoint) (cached skip : Bool) (inputs : List Input) :
    let start := initial author consensusKey waypoint cached skip
    let events := trace env start inputs
    (snapshots env start inputs).Pairwise RoundsKept ∧
      (∀ first ∈ events, ∀ second ∈ events, ∀ vote vote',
        first.ReturnsVote vote → second.ReturnsVote vote' →
          vote.epoch = vote'.epoch → vote.round = vote'.round → vote = vote') ∧
      (events.Pairwise fun earlier later => ∀ timeout, earlier.ReturnsTimeout timeout →
          (∀ vote, later.NewlySignsVote vote →
            vote.epoch = timeout.epoch → timeout.round < vote.round) ∧
          (∀ proposal, later.ReturnsOrderVote proposal → proposal.block.epoch = timeout.epoch →
              timeout.round < proposal.block.round)) ∧
      (events.Pairwise fun earlier later => ∀ epoch round timeout,
        earlier.Observes epoch round → later.ReturnsTimeout timeout →
          timeout.epoch = epoch → round ≤ timeout.hqcRound) := by
  intro start events
  have coherent : Coherent start := by
    intro data isCached
    exact isCached
  have isPersisted : persisted start = some (newEpochData 1) := rfl
  have follows : events.Pairwise (Follows env) :=
    trace_follows env inputs coherent isPersisted (consistent_newEpoch 1)
  refine ⟨snapshots_kept env inputs coherent isPersisted (consistent_newEpoch 1), ?_, ?_, ?_⟩
  · intro first firstMember second secondMember vote vote' returnsFirst
      returnsSecond sameEpoch sameRound
    by_cases same : first = second
    · subst same
      rw [Event.ReturnsVote, returnsFirst] at returnsSecond
      cases returnsSecond
      rfl
    · have : Std.Symm fun first second => Follows env first second ∨
          Follows env second first := ⟨fun _ _ => Or.symm⟩
      have ordered : events.Pairwise fun first second =>
          Follows env first second ∨ Follows env second first :=
        follows.imp .inl
      rcases ordered.forall firstMember secondMember same with
        isEarlier | isLater
      · exact isEarlier.vote_unique returnsFirst returnsSecond sameEpoch sameRound
      · exact (isLater.vote_unique returnsSecond returnsFirst sameEpoch.symm sameRound.symm).symm
  · refine follows.imp ?_
    intro earlier later pair timeout returnsTimeout
    exact ⟨fun _ => pair.vote_after_timeout returnsTimeout,
      fun _ => pair.orderVote_after_timeout returnsTimeout⟩
  · refine follows.imp ?_
    intro earlier later pair epoch round timeout
    exact pair.timeout_after_observed

/-! ## Rounds of different epochs are not comparable

A validator times out in round 1 of epoch 1, and votes in round 1 of epoch 2. -/

namespace EpochRestart

def epochState (epoch : Nat) : EpochState := ⟨epoch, ValidatorVerifier.new [⟨1, [1], 1⟩]⟩

/-- One validator, whose signatures are empty strings. -/
def env : SafetyEnv where
  bls := .ofEmpty _
  hash :=
    { voteData := fun voteData => Fin.ofNat _ (voteData.proposed.epoch + 7)
      blockData := fun _ => 5
      waypoint := fun _ => 6 }
  verifyExtension := fun _ _ => .error "not executed"

def endOfEpoch (epoch round version : Nat) : LedgerInfo :=
  ⟨⟨epoch, round, 3, 4, version, 0, some (epochState (epoch + 1))⟩, 0⟩

def firstProof : EpochChangeProof := ⟨[⟨endOfEpoch 0 0 0, AggregateSignature.empty⟩], false⟩

def secondProof : EpochChangeProof := ⟨[⟨endOfEpoch 0 0 0, AggregateSignature.empty⟩,
    ⟨endOfEpoch 1 9 1, ⟨(ValidatorBitVec.withNumBits 1).set 0, some []⟩⟩],
    false⟩

def genesisInfo (epoch : Nat) : BlockInfo := ⟨epoch, 0, 2, 4, 0, 0, none⟩

def genesisQc (epoch : Nat) : QuorumCert :=
  let voteData : VoteData := ⟨genesisInfo epoch, genesisInfo epoch⟩
  ⟨voteData, ⟨⟨genesisInfo epoch, env.hash.voteData voteData⟩, AggregateSignature.empty⟩⟩

def timeout : TwoChainTimeout := ⟨1, 1, genesisQc 1⟩

def proposal : VoteProposal where
  accumulatorExtensionProof := ⟨[], 0, []⟩
  block := ⟨⟨2, 1, 0, genesisQc 2, .nilBlock []⟩, none⟩
  nextEpochState := none
  decoupledExecution := true

def inputs : List Input := [⟨.initializeWith firstProof, [], 0⟩, ⟨.timeout timeout none, [], 0⟩,
    ⟨.initializeWith secondProof, [], 0⟩, ⟨.vote proposal none, [], 0⟩]

end EpochRestart

/-- Across epochs a vote is returned after a timeout of its round. -/
theorem vote_after_timeout_of_earlier_epoch :
    ¬ ∀ (env : SafetyEnv) (author : Author) (consensusKey : PrivateKey)
        (waypoint : Waypoint) (cached skip : Bool) (inputs : List Input),
      (trace env (initial author consensusKey waypoint cached skip)
        inputs).Pairwise fun earlier later => ∀ timeout vote,
          earlier.ReturnsTimeout timeout → later.NewlySignsVote vote →
            timeout.round < vote.round := by
  intro claimed
  have pairs := claimed EpochRestart.env 1 [1] ⟨0, 6⟩ true false EpochRestart.inputs
  have afterFirst := (pairwise_cons.mp pairs).2
  have timeoutFirst := (pairwise_cons.mp afterFirst).1
  have ordered := timeoutFirst _ (mem_cons_of_mem _ (mem_cons_self ..))
  have increasing := ordered EpochRestart.timeout _ ⟨⟨none, rfl⟩, [], rfl⟩
    ⟨rfl, EpochRestart.proposal, none, rfl, by
      intro data isPersisted
      cases isPersisted
      rfl⟩
  exact absurd increasing (by decide)

/-! ## The epochs of the certificates behind a signature

The certificate of a timeout and the timeout certificate are only verified with the
validators of the epoch, which may be those of an earlier one. -/

open Library Guarded

/-- What was signed with a key, as far as accepted certificates show it. -/
structure Unforgeable (env : SafetyEnv) (Signed : PublicKey → SigningMessage → Prop) : Prop where
  ledgerInfo : env.blsLedgerInfo.MultiUnforgeable fun key message =>
    Signed key (.ledgerInfo message)
  timeout : env.blsTimeout.AggregateUnforgeable fun key message => Signed key (.timeout message)

section Foreign

variable (Signed : PublicKey → SigningMessage → Prop) (epochState : EpochState)

variable {env : SafetyEnv} {start : Session} {Signed epochState}
  (verifies : start.rules.skipSigVerify = false)
  (inEpoch : start.rules.epochState = some epochState)
  (distinct : epochState.verifier.Distinct) (unforgeable : Unforgeable env Signed)

include verifies inEpoch distinct unforgeable

end Foreign

namespace OtherEpoch

open EpochRestart

def rules : SafetyRules := { initial 1 [1] ⟨0, 6⟩ true false with
  validatorSigner := some ⟨1, [1]⟩
  epochState := some (EpochRestart.epochState 1) }

def signatures : AggregateSignature := ⟨(ValidatorBitVec.withNumBits 1).set 0, some []⟩

def qc (epoch : Nat) : QuorumCert :=
  let voteData : VoteData := ⟨⟨epoch, 1, 3, 4, 0, 0, none⟩, genesisInfo epoch⟩
  ⟨voteData, ⟨⟨BlockInfo.empty, env.hash.voteData voteData⟩, signatures⟩⟩

/-- Round 1 of an epoch has timed out. -/
def tc (epoch : Nat) : TwoChainTimeoutCertificate :=
  ⟨⟨epoch, 1, genesisQc epoch⟩, ⟨signatures, [0]⟩⟩

def proposal : VoteProposal where
  accumulatorExtensionProof := ⟨[], 0, []⟩
  block := ⟨⟨1, 2, 0, genesisQc 1, .nilBlock []⟩, none⟩
  nextEpochState := none
  decoupledExecution := true

def voteInput (epoch : Nat) : Input := ⟨.vote proposal (some (tc epoch)), [], 0⟩

def votes (epoch : Nat) : Bool := match (perform env rules (voteInput epoch)).1 with
  | .vote (.ok _) => true
  | _ => false

theorem unforgeable : Unforgeable env fun _ _ => True where
  ledgerInfo _ _ _ _ _ _ _ _ := trivial
  timeout _ messages keys verified := by
    refine forall₂_iff_zip.mpr ⟨?_, fun _ => trivial⟩
    have sameLength := (Bool.and_eq_true_iff.mp verified).2
    simpa using sameLength

end OtherEpoch

end LumioNode.SafetyRules
