import LumioNode.ConsensusTypes.Vote

/-! # `PendingVotes`

The votes and timeouts of one epoch and round.  Hash maps that are only looked up are
ordered maps; `none` for a result is a panic. -/

namespace LumioNode

open Library

inductive VoteReceptionResult where
  | voteAdded (votingPower : Nat)
  | duplicateVote
  | equivocateVote
  | newQuorumCertificate (qc : QuorumCert)
  | new2ChainTimeoutCertificate (tc : TwoChainTimeoutCertificate)
  | errorAddingVote (failure : VerifyError)
  | errorAggregatingSignature (failure : VerifyError)
  | errorAggregatingTimeoutCertificate (failure : VerifyError)
  | unexpectedRound (received expected : Nat)
  | echoTimeout (votingPower : Nat)
  | unknownAuthor (author : Author)
deriving DecidableEq

/-- A step ends the call, or goes on with the voting power so far. -/
inductive Progress where
  | done (result : VoteReceptionResult)
  | goOn (votingPower : Nat)

inductive VoteStatus where
  | enoughVotes (ledgerInfo : LedgerInfoWithSignatures)
  | notEnoughVotes (aggregator : SignatureAggregator LedgerInfo)

structure TwoChainTimeoutVotes where
  partial2chainTc : TwoChainTimeoutWithPartialSignatures

namespace TwoChainTimeoutVotes

def new (timeout : TwoChainTimeout) : TwoChainTimeoutVotes :=
  ⟨TwoChainTimeoutWithPartialSignatures.new timeout⟩

def add (votes : TwoChainTimeoutVotes) (author : Author) (timeout : TwoChainTimeout)
    (signature : Signature) : TwoChainTimeoutVotes where
  partial2chainTc := votes.partial2chainTc.add author timeout signature

end TwoChainTimeoutVotes

structure PendingVotes where
  /-- Ledger info digests with the order of their first votes. -/
  liDigestToVotes : SortedMap HashValue (Nat × VoteStatus)
  maybe2chainTimeoutVotes : Option TwoChainTimeoutVotes
  authorToVote : SortedMap Author (Vote × HashValue)
  echoTimeout : Bool

namespace PendingVotes

def new : PendingVotes := ⟨SortedMap.empty, none, SortedMap.empty, false⟩

variable (env : VotingEnv) (verifier : ValidatorVerifier)

variable (pending : PendingVotes)

/-- The timeouts after one more was added. -/
def timeoutsWith (author : Author) (timeout : TwoChainTimeout)
    (signature : Signature) : TwoChainTimeoutVotes :=
  (pending.maybe2chainTimeoutVotes.getD
    (TwoChainTimeoutVotes.new timeout)).add author timeout signature

/-- Add a timeout: a certificate can be formed, or the timeout is echoed. -/
def addTimeout (author : Author) (timeout : TwoChainTimeout)
    (signature : Signature) : Option Progress × PendingVotes :=
  let votes := pending.timeoutsWith author timeout signature
  let added := { pending with maybe2chainTimeoutVotes := some votes }
  match verifier.checkVotingPower votes.partial2chainTc.signers true with
  | .ok _ =>
    match votes.partial2chainTc.aggregateSignatures env.blsTimeout verifier with
    | none => (none, added)
    | some (.ok tc) =>
      (some (.done (.new2ChainTimeoutCertificate tc)), added)
    | some (.error failure) =>
      (some (.done (.errorAggregatingTimeoutCertificate failure)), added)
  | .error (.tooLittleVotingPower tcVotingPower _) =>
    if added.echoTimeout then (some (.goOn tcVotingPower), added)
    else if verifier.totalVotingPower < verifier.quorumVotingPower then
      (none, added)
    else if tcVotingPower ≥ verifier.totalVotingPower - verifier.quorumVotingPower + 1 then
      (some (.done (.echoTimeout tcVotingPower)), { added with echoTimeout := true })
    else (some (.goOn tcVotingPower), added)
  | .error failure => (some (.done (.errorAddingVote failure)), added)

section AddTimeout

variable {env verifier} {pending : PendingVotes} {author : Author} {timeout : TwoChainTimeout}
  {signature : Signature}

theorem addTimeout_frame :
    let added := (pending.addTimeout env verifier author timeout signature).2
    added.maybe2chainTimeoutVotes = some (pending.timeoutsWith author timeout signature) ∧
      added.liDigestToVotes = pending.liDigestToVotes ∧
      added.authorToVote = pending.authorToVote := by
  intro added
  simp only [added, addTimeout]
  split
  · split <;> exact ⟨rfl, rfl, rfl⟩
  · split
    · exact ⟨rfl, rfl, rfl⟩
    · split
      · exact ⟨rfl, rfl, rfl⟩
      · split <;> exact ⟨rfl, rfl, rfl⟩
  · exact ⟨rfl, rfl, rfl⟩

/-- Adding a timeout yields timeout certificates only, which are aggregates of a quorum. -/
theorem addTimeout_result {result : VoteReceptionResult}
    (returns : (pending.addTimeout env verifier author timeout signature).1 =
      some (.done result)) :
    (∀ qc, result ≠ .newQuorumCertificate qc) ∧ ∀ tc, result = .new2ChainTimeoutCertificate tc →
        let votes := pending.timeoutsWith author timeout signature
        (∃ sum, verifier.checkVotingPower votes.partial2chainTc.signers true = .ok sum) ∧
          votes.partial2chainTc.aggregateSignatures env.blsTimeout verifier = some (.ok tc) := by
  simp only [addTimeout] at returns
  split at returns
  · rename_i sum checked
    split at returns
    · cases returns
    · rename_i tc aggregated
      cases returns
      refine ⟨by simp, ?_⟩
      intro tc' same
      cases same
      exact ⟨⟨sum, checked⟩, aggregated⟩
    · cases returns
      simp
  · split at returns
    · cases returns
    · split at returns
      · cases returns
      · split at returns
        · cases returns
          simp
        · cases returns
  · cases returns
    simp

end AddTimeout

/-- What the call returns once a step is over. -/
def finish (votingPower : Nat → Nat) : Progress → VoteReceptionResult
  | .done result => result
  | .goOn collected => .voteAdded (votingPower collected)

def insertRoundTimeout (roundTimeout : RoundTimeout) :
    Option VoteReceptionResult × PendingVotes :=
  let (progress, added) := pending.addTimeout env verifier
    roundTimeout.author roundTimeout.timeout roundTimeout.signature
  (progress.map (finish id), added)

/-- A timeout vote may follow the author's vote without one for the same ledger info. -/
def alreadyVoted (vote : Vote)
    (liDigest : HashValue) : Option VoteReceptionResult :=
  match pending.authorToVote.get? vote.author with
  | none => none
  | some (previouslySeenVote, previousLiDigest) =>
    if liDigest = previousLiDigest then
      if vote.isTimeout && !previouslySeenVote.isTimeout then none
      else some .duplicateVote
    else some .equivocateVote

variable (received : ReceivedVote)

/-- Count a vote for its ledger info; the last component joins the pessimistic set. -/
def addVote :
    VoteStatus → Option Progress × VoteStatus × List AccountAddress
  | .enoughVotes ledgerInfo =>
    (some (.done (.newQuorumCertificate ⟨received.vote.voteData, ledgerInfo⟩)),
      .enoughVotes ledgerInfo, [])
  | .notEnoughVotes aggregator =>
    let added := aggregator.addSignature received.author received.signatureWithStatus
    match added.checkVotingPower verifier true with
    | .ok aggregatedVotingPower =>
      if aggregatedVotingPower < verifier.quorumVotingPower then
        (none, .notEnoughVotes added, [])
      else
        let (result, filtered, rejected) := added.aggregateAndVerify env.blsLedgerInfo verifier
        match result with
        | .ok (ledgerInfo, aggregatedSig) =>
          (some (.done (.newQuorumCertificate ⟨received.vote.voteData,
                ⟨ledgerInfo, aggregatedSig⟩⟩)),
            .enoughVotes ⟨ledgerInfo, aggregatedSig⟩, rejected)
        | .error (.tooLittleVotingPower votingPower _) =>
          (some (.goOn votingPower), .notEnoughVotes filtered, rejected)
        | .error failure =>
          (some (.done (.errorAggregatingSignature failure)), .notEnoughVotes filtered, rejected)
    | .error (.tooLittleVotingPower votingPower _) =>
      (some (.goOn votingPower), .notEnoughVotes added, [])
    | .error failure =>
      (some (.done (.errorAddingVote failure)), .notEnoughVotes added, [])

theorem addVote_result {env : VotingEnv} {verifier : ValidatorVerifier} {received : ReceivedVote}
    {status : VoteStatus} {tc : TwoChainTimeoutCertificate} :
    (addVote env verifier received status).1 ≠ some (.done (.new2ChainTimeoutCertificate tc)) := by
  cases status with
  | enoughVotes => simp [addVote]
  | notEnoughVotes =>
    simp only [addVote]
    split
    · split
      · simp
      · split <;> simp
    · simp
    · simp

/-- The entry of a digest, a new one if the digest was not seen yet. -/
def statusOf
    (liDigest : HashValue) : Nat × VoteStatus :=
  (pending.liDigestToVotes.get? liDigest).getD (pending.liDigestToVotes.entries.length + 1,
      .notEnoughVotes (SignatureAggregator.new received.ledgerInfo))

/-- The last part of `insert_vote`: the vote's timeout, if it has one. -/
def addVoteTimeout (vote : Vote)
    (votingPower : Nat) : Option VoteReceptionResult × PendingVotes :=
  match vote.twoChainTimeout with
  | none => (some (.voteAdded votingPower), pending)
  | some (timeout, signature) =>
    let (progress, added) := pending.addTimeout env verifier vote.author timeout signature
    (progress.map (finish fun _ => votingPower), added)

section

variable {env verifier pending} {vote : Vote}

theorem addTimeout_no_certificate {author : Author} {timeout : TwoChainTimeout}
    {signature : Signature} {votingPower : Nat → Nat} {qc : QuorumCert} :
    (pending.addTimeout env verifier author timeout signature).1.map
      (finish votingPower) ≠ some (.newQuorumCertificate qc) := by
  intro isQc
  obtain ⟨progress, isProgress, finished⟩ := Option.map_eq_some_iff.mp isQc
  cases progress with
  | done => exact (addTimeout_result isProgress).1 qc finished
  | goOn => cases finished

theorem addVoteTimeout_frame {votingPower : Nat} :
    let called := pending.addVoteTimeout env verifier vote votingPower
    called.2.liDigestToVotes = pending.liDigestToVotes ∧
      called.2.authorToVote = pending.authorToVote ∧
      ∀ qc, called.1 ≠ some (.newQuorumCertificate qc) := by
  intro called
  simp only [called, addVoteTimeout]
  split
  · simp
  · exact ⟨addTimeout_frame.2.1, addTimeout_frame.2.2, fun _ => addTimeout_no_certificate⟩

end

def withStatus (liDigest : HashValue)
    (entry : Nat × VoteStatus) : PendingVotes :=
  { pending with
    liDigestToVotes := pending.liDigestToVotes.insert liDigest entry }

def countVote (liDigest : HashValue) :
    Option VoteReceptionResult × PendingVotes × List AccountAddress :=
  let (hashIndex, status) := pending.statusOf received liDigest
  let (progress, newStatus, rejected) := addVote env verifier received status
  let counted := pending.withStatus liDigest (hashIndex, newStatus)
  match progress with
  | none => (none, counted, rejected)
  | some (.done result) => (some result, counted, rejected)
  | some (.goOn votingPower) =>
    let (result, added) := counted.addVoteTimeout env verifier received.vote votingPower
    (result, added, rejected)

/-- Store a new vote, or update it in case it is a new timeout vote. -/
def record
    (liDigest : HashValue) : PendingVotes :=
  { pending.withStatus liDigest (pending.statusOf received liDigest) with
    authorToVote := pending.authorToVote.insert received.author (received.vote, liDigest) }

/-- Insert a vote; a quorum certificate is preferred over a timeout certificate. -/
def insertVote :
    Option VoteReceptionResult × PendingVotes × List AccountAddress :=
  let liDigest := env.ledgerInfoHash received.ledgerInfo
  match pending.alreadyVoted received.vote liDigest with
  | some result => (some result, pending, [])
  | none =>
    let recorded := pending.record received liDigest
    if (verifier.getVotingPower received.author).isNone then
      (some (.unknownAuthor received.author), recorded, [])
    else recorded.countVote env verifier received liDigest

theorem alreadyVoted_result {pending : PendingVotes} {vote : Vote} {liDigest : HashValue}
    {result : VoteReceptionResult} (refused : pending.alreadyVoted vote liDigest = some result) :
    result = .duplicateVote ∨ result = .equivocateVote := by
  unfold alreadyVoted at refused
  split at refused
  · cases refused
  · split at refused
    · split at refused
      · cases refused
      · exact .inl (Option.some.inj refused).symm
    · exact .inr (Option.some.inj refused).symm

inductive Message where
  | roundTimeout (roundTimeout : RoundTimeout)
  | vote (received : ReceivedVote)

def insert : Message → Option VoteReceptionResult × PendingVotes
  | .roundTimeout roundTimeout =>
    pending.insertRoundTimeout env verifier roundTimeout
  | .vote received =>
    let (result, added, _) := pending.insertVote env verifier received
    (result, added)

def results (pending : PendingVotes) : List Message → List (Option VoteReceptionResult)
  | [] => []
  | message :: rest =>
    let (result, added) := pending.insert env verifier message
    result :: added.results rest

end PendingVotes

namespace PendingVotes.FourValidators

def verifier : ValidatorVerifier := ValidatorVerifier.new
    [⟨1, [1], 1⟩, ⟨2, [2], 1⟩, ⟨3, [3], 1⟩, ⟨4, [4], 1⟩]

def env : VotingEnv where
  blsLedgerInfo := .ofEmpty _
  blsTimeout := .ofEmpty _
  voteDataHash voteData := Fin.ofNat _ voteData.proposed.round
  ledgerInfoHash _ := 7

def info (round : Nat) : BlockInfo := ⟨1, round, Fin.ofNat _ round, 0, 0, 0, none⟩

end PendingVotes.FourValidators

end LumioNode
