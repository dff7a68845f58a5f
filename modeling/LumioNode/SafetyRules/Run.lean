import LumioNode.SafetyRules.History

/-! # Runs of one validator's safety rules

An input also fixes the outcomes of its storage accesses and the time.  A process that
stops inside a call is a call whose accesses fail, and a restart. -/

namespace LumioNode.SafetyRules

open Library Guarded List

inductive Call where
  | initializeWith (proof : EpochChangeProof)
  | vote (proposal : VoteProposal)
      (maybeTc : Option TwoChainTimeoutCertificate)
  | orderVote (proposal : OrderVoteProposal)
  | timeout (timeout : TwoChainTimeout)
      (maybeTc : Option TwoChainTimeoutCertificate)
  | signProposal (blockData : BlockData)
  | restart (enableCachedSafetyData skipSigVerify : Bool)

structure Input where
  call : Call
  outcomes : List StorageOutcome
  currentTs : Nat

inductive Response where
  | initialized (result : Except SafetyError Unit)
  | vote (result : Except SafetyError Vote)
  | orderVote (result : Except SafetyError OrderVote)
  | timeout (result : Except SafetyError Signature)
  | proposal (result : Except SafetyError Signature)
  | restarted

def session (rules : SafetyRules) (input : Input) : Session :=
  ⟨rules, input.outcomes, input.currentTs⟩

def store (rules : SafetyRules) : InternalStore := rules.persistentStorage.internalStore

def persisted (rules : SafetyRules) : Option SafetyData := (store rules).safetyData

def perform (env : SafetyEnv) (rules : SafetyRules) (input : Input) : Response × SafetyRules :=
  let start := session rules input
  match input.call with
  | .initializeWith proof =>
    let outcome := exec (guardedInitialize env proof) start
    (.initialized outcome.1, outcome.2.rules)
  | .vote proposal maybeTc =>
    let outcome := exec (guardedConstructAndSignVoteTwoChain env proposal maybeTc) start
    (.vote outcome.1, outcome.2.rules)
  | .orderVote proposal =>
    let outcome := exec (guardedConstructAndSignOrderVote env proposal) start
    (.orderVote outcome.1, outcome.2.rules)
  | .timeout timeout maybeTc =>
    let outcome := exec (guardedSignTimeoutWithQc env timeout maybeTc) start
    (.timeout outcome.1, outcome.2.rules)
  | .signProposal blockData =>
    let outcome := exec (guardedSignProposal env blockData) start
    (.proposal outcome.1, outcome.2.rules)
  | .restart enableCachedSafetyData skipSigVerify =>
    (.restarted, SafetyRules.restarted (store rules) enableCachedSafetyData skipSigVerify)

structure Event where
  before : SafetyRules
  input : Input
  response : Response
  after : SafetyRules

def trace (env : SafetyEnv) (rules : SafetyRules) : List Input → List Event
  | [] => []
  | input :: rest =>
    let performed := perform env rules input
    ⟨rules, input, performed.1, performed.2⟩ :: trace env performed.2 rest

/-- `PersistentSafetyStorage::initialize` on a new store, and no call yet. -/
def initial (author : Author) (consensusKey : PrivateKey) (waypoint : Waypoint)
    (enableCachedSafetyData skipSigVerify : Bool) : SafetyRules where
  persistentStorage :=
    { enableCachedSafetyData := enableCachedSafetyData
      cachedSafetyData := some (newEpochData 1)
      internalStore :=
        { safetyData := some (newEpochData 1)
          waypoint := some waypoint
          ownerAccount := some author
          consensusKey := some consensusKey
          explicitKey := fun _ => none } }
  validatorSigner := none
  epochState := none
  skipSigVerify := skipSigVerify

/-! ## One input is one transition -/

/-- What an input can do to the stored safety data. -/
inductive Performs (env : SafetyEnv) (start : Session) (call : Call)
    (before : SafetyData) : Option Signed → SafetyData → Prop
  | stay : Performs env start call before none before
  | newEpoch {proof : EpochChangeProof} {epoch : Nat}
      (callEq : call = .initializeWith proof)
      (later : before.epoch < epoch) :
      Performs env start call before none (newEpochData epoch)
  | vote {proposal : VoteProposal}
      {maybeTc : Option TwoChainTimeoutCertificate} {vote : Vote}
      {after : SafetyData} (callEq : call = .vote proposal maybeTc)
      (signs : SignsVote env start proposal maybeTc before vote after) :
      Performs env start call before (some (.vote vote)) after
  | orderVote {proposal : OrderVoteProposal} {vote : OrderVote}
      {after : SafetyData} (callEq : call = .orderVote proposal)
      (signs : SignsOrderVote env start proposal before vote after) :
      Performs env start call before (some (.orderVote proposal vote)) after
  | timeout {timeout : TwoChainTimeout}
      {maybeTc : Option TwoChainTimeoutCertificate} {after : SafetyData}
      (callEq : call = .timeout timeout maybeTc)
      (signs : SignsTimeout timeout before after) :
      Performs env start call before (some (.timeout timeout)) after

theorem observeQc_fst (qc : QuorumCert) (data : SafetyData) : (observeQc qc data).1 = { data with
      oneChainRound := max data.oneChainRound qc.certifiedBlock.round
      preferredRound := max data.preferredRound qc.parentBlock.round } := by
  have takeLarger : ∀ new old : Nat, (if new > old then new else old) = max old new := by
    intro new old
    split <;> omega
  simp only [observeQc, takeLarger]

theorem updateHighestTimeoutRound_eq (timeout : TwoChainTimeout) (data : SafetyData) :
    updateHighestTimeoutRound timeout data =
      { data with
        highestTimeoutRound := max data.highestTimeoutRound timeout.round } := by
  unfold updateHighestTimeoutRound
  split
  · rename_i higher
    rw [max_eq_right (Nat.le_of_lt higher)]
  · rename_i notHigher
    rw [max_eq_left (Nat.le_of_not_lt notHigher)]

variable {proposal : OrderVoteProposal} {timeout : TwoChainTimeout} {data : SafetyData}
  {call : Call}

theorem Performs.step {env : SafetyEnv} {start : Session} {before after : SafetyData}
    {signed : Option Signed} (performs : Performs env start call before signed after) :
    Step before signed after := by
  cases performs with
  | stay => exact Step.stay
  | newEpoch callEq later => exact Step.newEpoch _ later
  | vote callEq signs =>
    rename_i proposal maybeTc vote
    obtain ⟨_, roundEq, epochEq, parentEq⟩ :=
      VoteProposal.genVoteData_eq_ok signs.accepted.voteDataEq
    have voteRound : vote.round = proposal.block.round := roundEq
    have step := Step.vote vote proposal.block.quorumCert.parentBlock.round
      (epochEq.trans signs.accepted.epochEq)
      (voteRound ▸ signs.newRound)
    rw [parentEq, voteRound] at step
    rw [signs.afterEq, observeQc_fst]
    exact step
  | orderVote callEq signs =>
    rename_i proposal vote
    rw [signs.afterEq, observeQc_fst]
    exact Step.orderVote proposal vote signs.epochEq signs.safe
  | timeout callEq signs =>
    rename_i timeout maybeTc
    rw [signs.afterEq, updateHighestTimeoutRound_eq]
    exact Step.timeout timeout signs.epochEq signs.oneChain signs.lastVoted

/-- A returned vote is new or the last one, a returned order vote or timeout is new. -/
structure Explains (before : SafetyData) (input : Input)
    (response : Response) (signed : Option Signed) : Prop where
  vote : ∀ vote, response = .vote (.ok vote) → signed = some (.vote vote) ∨
      (∃ proposal maybeTc, input.call = .vote proposal maybeTc ∧
        previousVote before proposal.block = some vote)
  orderVote : ∀ vote, response = .orderVote (.ok vote) →
    ∃ proposal, input.call = .orderVote proposal ∧ signed = some (.orderVote proposal vote)
  timeout : ∀ signature, response = .timeout (.ok signature) →
    ∃ timeout maybeTc, input.call = .timeout timeout maybeTc ∧ signed = some (.timeout timeout)

def Call.IsSigning : Call → Prop
  | .vote _ _ | .orderVote _ | .timeout _ _ => True
  | .initializeWith _ | .signProposal _ | .restart _ _ => False

def Coherent (rules : SafetyRules) : Prop :=
  ∀ cached, rules.persistentStorage.cachedSafetyData = some cached → persisted rules = some cached

variable {env : SafetyEnv} {rules : SafetyRules} {input : Input} {before : SafetyData}

theorem session_holds (input : Input) (coherent : Coherent rules)
    (isPersisted : persisted rules = some before) :
    (session rules input).Holds (some before) (session rules input) :=
  ⟨rfl, rfl, rfl, rfl, isPersisted, coherent⟩

/-- The conclusion about one signing call. -/
def PerformsSigning (env : SafetyEnv) (rules : SafetyRules) (input : Input)
    (before : SafetyData) : Prop :=
  ∃ signed after final, Performs env (session rules input) input.call before signed after ∧
      (session rules input).Holds (some after) final ∧
      (perform env rules input).2 = final.rules ∧
      Explains before input (perform env rules input).1 signed

section

variable (coherent : Coherent rules) (isPersisted : persisted rules = some before)

include coherent isPersisted

theorem performsSigning_of_triple {α : Type} {program : SafetyM α}
    {respond : Except SafetyError α → Response}
    (performEq : perform env rules input = (respond (exec program (session rules input)).1,
      (exec program (session rules input)).2.rules))
    (triple : Triple ((session rules input).Holds (some before)) program
      (fun value final => ∃ signed after, Performs env (session rules input) input.call before
      signed after ∧ (session rules input).Holds (some after) final ∧ Explains before input
      (respond (.ok value)) signed) (fun final => ∃ signed after, Performs env (session rules input)
      input.call before signed after ∧ (session rules input).Holds (some after) final))
    (noResponse : ∀ failure signed, Explains before input (respond (.error failure)) signed) :
    PerformsSigning env rules input before := by
  have outcome := triple _ (session_holds input coherent isPersisted)
  unfold PerformsSigning
  rw [performEq]
  generalize exec program (session rules input) = result at outcome
  rcases result with ⟨failure | value, final⟩
  · obtain ⟨signed, after, performs, applied⟩ := outcome
    exact ⟨signed, after, final, performs, applied, rfl, noResponse failure signed⟩
  · obtain ⟨signed, after, performs, applied, explains⟩ := outcome
    exact ⟨signed, after, final, performs, applied, rfl, explains⟩

variable {maybeTc : Option TwoChainTimeoutCertificate}

theorem perform_vote {proposal : VoteProposal} (callEq : input.call = .vote proposal maybeTc) :
    PerformsSigning env rules input before := by
  refine performsSigning_of_triple coherent isPersisted (by rw [perform, callEq])
    (Triple.weaken (guardedConstructAndSignVoteTwoChain_triple proposal maybeTc) ?_ ?_)
    (fun _ _ => ⟨by simp, by simp, by simp⟩)
  · intro vote final ⟨data, isStored, outcome⟩
    cases isStored
    rcases outcome with ⟨replayed, holds⟩ | ⟨after, signs, applied⟩
    · refine ⟨none, before, .stay, holds, ?_, by simp, by simp⟩
      intro returned responseEq
      cases responseEq
      exact .inr ⟨proposal, maybeTc, callEq, replayed⟩
    · refine ⟨_, after, .vote callEq signs, applied, ?_, by simp, by simp⟩
      intro returned responseEq
      cases responseEq
      exact .inl rfl
  · intro final outcome
    rcases outcome with holds | ⟨data, vote, after, isStored, signs, applied⟩
    · exact ⟨none, before, .stay, holds⟩
    · cases isStored
      exact ⟨_, after, .vote callEq signs, applied⟩

theorem perform_orderVote (callEq : input.call = .orderVote proposal) :
    PerformsSigning env rules input before := by
  refine performsSigning_of_triple coherent isPersisted (by rw [perform, callEq])
    (Triple.weaken (guardedConstructAndSignOrderVote_triple proposal) ?_ ?_)
    (fun _ _ => ⟨by simp, by simp, by simp⟩)
  · intro vote final ⟨data, after, isStored, signs, applied⟩
    cases isStored
    refine ⟨_, after, .orderVote callEq signs, applied, by simp, ?_, by simp⟩
    intro returned responseEq
    cases responseEq
    exact ⟨proposal, callEq, rfl⟩
  · intro final outcome
    rcases outcome with holds | ⟨data, vote, after, isStored, signs, applied⟩
    · exact ⟨none, before, .stay, holds⟩
    · cases isStored
      exact ⟨_, after, .orderVote callEq signs, applied⟩

theorem perform_timeout (callEq : input.call = .timeout timeout maybeTc) :
    PerformsSigning env rules input before := by
  refine performsSigning_of_triple coherent isPersisted (by rw [perform, callEq])
    (Triple.weaken (guardedSignTimeoutWithQc_triple timeout maybeTc) ?_ ?_)
    (fun _ _ => ⟨by simp, by simp, by simp⟩)
  · intro signature final ⟨data, after, isStored, signs, _, _, applied⟩
    cases isStored
    exact ⟨_, after, .timeout callEq signs, applied, by simp, by simp,
      fun _ _ => ⟨timeout, maybeTc, callEq, rfl⟩⟩
  · intro final outcome
    rcases outcome with holds | ⟨data, after, isStored, signs, applied⟩
    · exact ⟨none, before, .stay, holds⟩
    · cases isStored
      exact ⟨_, after, .timeout callEq signs, applied⟩

theorem perform_signing (isSigning : input.call.IsSigning) :
    PerformsSigning env rules input before := by
  cases callEq : input.call with
  | vote => exact perform_vote coherent isPersisted callEq
  | orderVote => exact perform_orderVote coherent isPersisted callEq
  | timeout => exact perform_timeout coherent isPersisted callEq
  | initializeWith | signProposal | restart => simp [callEq, Call.IsSigning] at isSigning

end

theorem explains_none {response : Response} (notVote : ∀ vote, response ≠ .vote (.ok vote))
    (notOrderVote : ∀ vote, response ≠ .orderVote (.ok vote))
    (notTimeout : ∀ signature, response ≠ .timeout (.ok signature)) :
    Explains before input response none :=
  ⟨fun vote isVote => absurd isVote (notVote vote),
    fun vote isVote => absurd isVote (notOrderVote vote),
    fun signature isTimeout => absurd isTimeout (notTimeout signature)⟩

theorem perform_step (env : SafetyEnv) (input : Input) (coherent : Coherent rules)
    (isPersisted : persisted rules = some before) :
    ∃ signed after, Performs env (session rules input) input.call before signed after ∧
        persisted (perform env rules input).2 = some after ∧
        Coherent (perform env rules input).2 ∧
        Explains before input (perform env rules input).1 signed := by
  by_cases isSigning : input.call.IsSigning
  · obtain ⟨signed, after, final, performs, applied, rulesEq, explains⟩ :=
      perform_signing coherent isPersisted isSigning
    rw [rulesEq]
    exact ⟨signed, after, performs, applied.safetyData, applied.coherent, explains⟩
  · have holds := session_holds input coherent isPersisted
    cases callEq : input.call with
    | vote | orderVote | timeout => simp [callEq, Call.IsSigning] at isSigning
    | initializeWith proof =>
      have renews : Renews (some before) (exec (guardedInitialize env proof) _).2 :=
        (guardedInitialize_triple proof).leaves holds
      simp only [perform, callEq]
      have explains : Explains before input (.initialized (exec (guardedInitialize env proof)
          (session rules input)).1) none :=
        explains_none (by simp) (by simp) (by simp)
      rcases renews with ⟨same, stillCoherent⟩ |
        ⟨data, epoch, isStored, later, renewed, stillCoherent⟩
      · exact ⟨none, before, .stay, same, stillCoherent, explains⟩
      · cases isStored
        exact ⟨none, _, .newEpoch rfl later, renewed, stillCoherent, explains⟩
    | signProposal blockData =>
      have kept : Session.Holds _ _ (exec (guardedSignProposal env blockData) _).2 :=
        (guardedSignProposal_learns blockData).keeps holds
      simp only [perform, callEq]
      exact ⟨none, before, .stay, kept.safetyData, kept.coherent,
        explains_none (by simp) (by simp) (by simp)⟩
    | restart =>
      simp only [perform, callEq]
      refine ⟨none, before, .stay, isPersisted, ?_, explains_none (by simp) (by simp) (by simp)⟩
      intro data isCached
      cases isCached

/-! ## Whole runs -/

/-- An event seen from an earlier point of the run with `data` and `log`. -/
def Continues (env : SafetyEnv) (data : SafetyData) (log : List Signed) (event : Event) : Prop :=
  ∃ before after signed newer, persisted event.before = some before ∧
      persisted event.after = some after ∧
      Performs env (session event.before event.input) event.input.call before signed after ∧
      Explains before event.input event.response signed ∧
      Consistent before (newer ++ log) ∧
      data.epoch ≤ before.epoch ∧
      (data.epoch = before.epoch → RoundsLe data before)

theorem RoundsLe.of_epochs {first second third : SafetyData}
    (firstEpoch : first.epoch ≤ second.epoch) (secondEpoch : second.epoch ≤ third.epoch)
    (left : first.epoch = second.epoch → RoundsLe first second)
    (right : second.epoch = third.epoch → RoundsLe second third)
    (same : first.epoch = third.epoch) : RoundsLe first third :=
  (left (by omega)).trans (right (by omega))

theorem Consistent.extend {env : SafetyEnv} {start : Session} {before after : SafetyData}
    {signed : Option Signed} {log : List Signed} (consistent : Consistent before log)
    (performs : Performs env start call before signed after) :
    Consistent after (signed.toList ++ log) := by
  cases signed with
  | none => exact consistent.silent performs.step
  | some => exact consistent.signs performs.step

theorem trace_continues (env : SafetyEnv) (inputs : List Input) {rules : SafetyRules}
    {log : List Signed} (coherent : Coherent rules) (isPersisted : persisted rules = some data)
    (consistent : Consistent data log) :
    ∀ event ∈ trace env rules inputs, Continues env data log event := by
  induction inputs generalizing rules data log with
  | nil =>
    intro event member
    cases member
  | cons input rest inductionHypothesis =>
    obtain ⟨signed, after, performs, nowPersisted, stillCoherent,
      explains⟩ := perform_step env input coherent isPersisted
    intro event member
    rcases mem_cons.mp member with rfl | inRest
    · exact ⟨data, after, signed, [], isPersisted, nowPersisted, performs,
        explains, consistent, le_rfl, fun _ => RoundsLe.refl data⟩
    · have nowConsistent := consistent.extend performs
      obtain ⟨before, later, laterSigned, newer, isBefore, isLater,
        laterPerforms, laterExplains, laterConsistent, epochLe, rounds⟩ :=
        inductionHypothesis stillCoherent nowPersisted nowConsistent event inRest
      refine ⟨before, later, laterSigned, newer ++ signed.toList, isBefore,
        isLater, laterPerforms, laterExplains, ?_,
        performs.step.epoch_le.trans epochLe, ?_⟩
      · rw [append_assoc]
        exact laterConsistent
      · exact RoundsLe.of_epochs performs.step.epoch_le epochLe performs.step.roundsLe rounds

/-- The later event continues the history that the earlier one leaves. -/
def Follows (env : SafetyEnv) (earlier later : Event) : Prop := ∃ before after signed log,
    Performs env (session earlier.before earlier.input) earlier.input.call before signed after ∧
      persisted earlier.before = some before ∧
      Explains before earlier.input earlier.response signed ∧
      Consistent before log ∧
      Continues env after (signed.toList ++ log) later

theorem trace_follows (env : SafetyEnv) (inputs : List Input) {rules : SafetyRules}
    {log : List Signed} (coherent : Coherent rules) (isPersisted : persisted rules = some data)
    (consistent : Consistent data log) : (trace env rules inputs).Pairwise (Follows env) := by
  induction inputs generalizing rules data log with
  | nil => exact List.Pairwise.nil
  | cons input rest inductionHypothesis =>
    obtain ⟨signed, after, performs, nowPersisted, stillCoherent,
      explains⟩ := perform_step env input coherent isPersisted
    have nowConsistent := consistent.extend performs
    refine pairwise_cons.mpr ⟨?_, inductionHypothesis stillCoherent nowPersisted nowConsistent⟩
    intro later inRest
    exact ⟨data, after, signed, log, performs, isPersisted, explains,
      consistent, trace_continues env rest stillCoherent nowPersisted nowConsistent later inRest⟩

/-! ## What an event returns -/

def Event.ReturnsVote (event : Event) (vote : Vote) : Prop := event.response = .vote (.ok vote)

/-- Before the call, no vote of the block's round was stored. -/
def Event.NewlySignsVote (event : Event) (vote : Vote) : Prop := event.ReturnsVote vote ∧
    ∃ proposal maybeTc, event.input.call = .vote proposal maybeTc ∧
      ∀ data, persisted event.before = some data → previousVote data proposal.block = none

def Event.ReturnsOrderVote (event : Event) (proposal : OrderVoteProposal) : Prop :=
  event.input.call = .orderVote proposal ∧ ∃ vote, event.response = .orderVote (.ok vote)

def Event.ReturnsTimeout (event : Event) (timeout : TwoChainTimeout) : Prop :=
  (∃ maybeTc, event.input.call = .timeout timeout maybeTc) ∧
    ∃ signature, event.response = .timeout (.ok signature)

/-- A returned vote or order vote that observed a quorum certificate of round `round`. -/
inductive Event.Observes (event : Event) : (epoch round : Nat) → Prop
  | parent {vote : Vote} (returns : event.ReturnsVote vote) :
      event.Observes vote.epoch vote.voteData.parent.round
  | proposal {vote : Vote} {proposal : VoteProposal}
      {maybeTc : Option TwoChainTimeoutCertificate}
      (newlySigns : event.NewlySignsVote vote)
      (callEq : event.input.call = .vote proposal maybeTc) :
      event.Observes vote.epoch proposal.block.quorumCert.certifiedBlock.round
  | ordered {proposal : OrderVoteProposal}
      (returns : event.ReturnsOrderVote proposal) :
      event.Observes proposal.block.epoch proposal.quorumCert.certifiedBlock.round

/-! ## Reading the log off the responses -/

section Log

variable {event : Event} {before : SafetyData} {signed : Option Signed} {log : List Signed}
  {vote : Vote}

section

variable (explains : Explains before event.input event.response signed)

include explains

theorem Explains.vote_mem (consistent : Consistent before log) (returns : event.ReturnsVote vote) :
    Signed.vote vote ∈ signed.toList ++ log := by
  rcases explains.vote vote returns with
    isNew | ⟨proposal, maybeTc, _, replayed⟩
  · rw [isNew]
    exact mem_cons_self ..
  · have isLast : before.lastVote = some vote := (Option.filter_eq_some_iff.mp replayed).1
    exact mem_append_right _ (consistent.lastVote vote isLast)

theorem Explains.newVote
    (isBefore : persisted event.before = some before) (newlySigns : event.NewlySignsVote vote) :
    signed = some (.vote vote) := by
  obtain ⟨returns, proposal, maybeTc, callEq, notVoted⟩ := newlySigns
  rcases explains.vote vote returns with
    isNew | ⟨otherProposal, otherTc, otherCallEq, replayed⟩
  · exact isNew
  · rw [callEq] at otherCallEq
    cases otherCallEq
    rw [notVoted before isBefore] at replayed
    cases replayed

end

theorem Event.ReturnsOrderVote.newOrderVote (returns : event.ReturnsOrderVote proposal) :
    ∃ vote, ∀ before signed, Explains before event.input event.response signed →
        signed = some (.orderVote proposal vote) := by
  obtain ⟨callEq, vote, responseEq⟩ := returns
  refine ⟨vote, ?_⟩
  intro before signed explains
  obtain ⟨otherProposal, otherCallEq, isNew⟩ := explains.orderVote vote responseEq
  rw [callEq] at otherCallEq
  cases otherCallEq
  exact isNew

theorem Explains.newTimeout (explains : Explains before event.input event.response signed)
    (returns : event.ReturnsTimeout timeout) : signed = some (.timeout timeout) := by
  obtain ⟨⟨maybeTc, callEq⟩, signature, responseEq⟩ := returns
  obtain ⟨otherTimeout, otherTc, otherCallEq, isNew⟩ := explains.timeout signature responseEq
  rw [callEq] at otherCallEq
  cases otherCallEq
  exact isNew

end Log

end LumioNode.SafetyRules
