import LumioNode.Consensus.VoteCounting

/-!
# Quorum certificates over runs of pending votes
-/

namespace LumioNode

open Library PendingVotes List ValidatorVerifier

/-- An aggregate that verifies proves that every signer signed the
message. -/
def Bls.AggregateProves {M : Type} (bls : Bls M) : Prop :=
  ∀ (message : M) (signed : List (PublicKey × Signature))
      (aggregated : Signature) (key : PublicKey),
    bls.aggregate (signed.map Prod.snd) = some aggregated →
      bls.aggregateKeys (signed.map Prod.fst) = some key →
      bls.verify key message aggregated = true →
        ∀ entry ∈ signed, bls.verify entry.1 message entry.2 = true

namespace PendingVotes

def Message.votes : Message → List ReceivedVote
  | .roundTimeout _ => []
  | .vote received => [received]

def votesOf (messages : List Message) : List ReceivedVote := messages.flatMap Message.votes

section Runs

variable (env : VotingEnv) (verifier : ValidatorVerifier)

def afterAll (pending : PendingVotes) : List Message → PendingVotes
  | [] => pending
  | message :: rest => afterAll (pending.insert env verifier message).2 rest

/-- No vote of the run replaces a valid signature by an invalid one. -/
def RunKeepsSignatures (pending : PendingVotes) : List Message → Prop
  | [] => True
  | message :: rest =>
    (∀ received ∈ message.votes, pending.KeepsSignature env verifier received) ∧
      RunKeepsSignatures (pending.insert env verifier message).2 rest

/-- The author's first vote was a valid one for the ledger info. -/
def FirstVotedFor (votes : List ReceivedVote) (author : Author) (ledgerInfo : LedgerInfo) : Prop :=
  ∃ received, firstVote votes author = some received ∧ received.ledgerInfo = ledgerInfo ∧
    received.vote.ValidlySigned env verifier

variable {env verifier}

variable {pending : PendingVotes}

theorem RunKeepsSignatures.of_append {earlier later : List Message}
    (keeps : pending.RunKeepsSignatures env verifier (earlier ++ later)) :
    pending.RunKeepsSignatures env verifier earlier := by
  induction earlier generalizing pending with
  | nil => trivial
  | cons message rest inductionHypothesis =>
    exact ⟨keeps.1, inductionHypothesis keeps.2⟩

theorem Counting.run (distinct : verifier.Distinct) (fits : verifier.Fits)
    (law : env.blsLedgerInfo.AggregateSound) (aggregates : env.blsLedgerInfo.AggregatesNonempty)
    (messages : List Message) {seen : List ReceivedVote}
    {returned : List (Option VoteReceptionResult)}
    (counting : Counting env verifier seen returned none pending)
    (collisionFree : CollisionFree env (seen ++ votesOf messages))
    (statusSound : ∀ received ∈ votesOf messages, received.isVerified = true →
      received.vote.ValidlySigned env verifier)
    (keeps : pending.RunKeepsSignatures env verifier messages) :
    Counting env verifier (seen ++ votesOf messages)
      (returned ++ pending.results env verifier messages) none
      (pending.afterAll env verifier messages) := by
  induction messages generalizing seen returned pending with
  | nil => simpa [votesOf, results, afterAll] using counting
  | cons message rest inductionHypothesis =>
    obtain ⟨messageKeeps, restKeeps⟩ := keeps
    have votesEq : votesOf (message :: rest) = message.votes ++ votesOf rest := flatMap_cons ..
    have resultsEq : pending.results env verifier (message :: rest) =
        [(pending.insert env verifier message).1] ++
          (pending.insert env verifier message).2.results env verifier
            rest := rfl
    rw [votesEq] at collisionFree statusSound
    rw [votesEq, resultsEq, ← append_assoc, ← append_assoc]
    rw [← append_assoc] at collisionFree
    refine inductionHypothesis ?_ collisionFree (fun received member =>
        statusSound received (mem_append_right _ member)) restKeeps
    cases message with
    | roundTimeout expired =>
      simp only [Message.votes, append_nil]
      have frame : _ ∧ _ = pending.liDigestToVotes ∧
          _ = pending.authorToVote :=
        @addTimeout_frame env verifier pending expired.author
          expired.timeout expired.signature
      exact (counting.of_same frame.2.1 frame.2.2).returns fun qc isQc =>
        absurd isQc addTimeout_no_certificate
    | vote received =>
      have isSeen : CollisionFree env (seen ++ [received]) :=
        collisionFree.subset fun _ => mem_append_left _
      exact counting.inserts distinct fits law aggregates isSeen
        (statusSound received (mem_append_left _ (mem_singleton_self _)))
        (messageKeeps received (mem_singleton_self _))

theorem VotedFor.unique {author : Author}
    {first second : HashValue} (votedFirst : pending.VotedFor author first)
    (votedSecond : pending.VotedFor author second) : first = second := by
  obtain ⟨firstVote, firstFound⟩ := votedFirst
  obtain ⟨secondVote, secondFound⟩ := votedSecond
  rw [firstFound] at secondFound
  cases secondFound
  rfl

section Completeness

variable {seen : List ReceivedVote} {returned : List (Option VoteReceptionResult)}
  {pending : PendingVotes} {ledgerInfo : LedgerInfo} {author : Author}

/-- A valid first vote is still held, or its ledger info has a
certificate. -/
theorem Counting.holds_first (counting : Counting env verifier seen returned none pending)
    (voted : FirstVotedFor env verifier seen author ledgerInfo) :
    ∃ vote : Vote, vote.author = author ∧
      env.ledgerInfoHash vote.ledgerInfo = env.ledgerInfoHash ledgerInfo ∧
      (∃ received ∈ seen, received.ledgerInfo = vote.ledgerInfo) ∧
      vote.ValidlySigned env verifier ∧
      pending.Holds (env.ledgerInfoHash ledgerInfo) author vote.signature := by
  obtain ⟨received, isFirst, rfl, valid⟩ := voted
  cases found : pending.authorToVote.get? author with
  | none =>
    have notSeen := counting.unseen author found
    rw [isFirst] at notSeen
    cases notSeen
  | some entry =>
    obtain ⟨vote, digest⟩ := entry
    have stored := counting.stored author vote digest found
    obtain ⟨first, firstEq, firstDigest, keepsValid⟩ := stored.first
    rw [isFirst] at firstEq
    cases firstEq
    subst firstDigest
    have voteValid := keepsValid valid
    exact ⟨vote, stored.authorEq, stored.digestEq, stored.source,
      voteValid, counting.counted author vote _ found (by simp) voteValid⟩

theorem FirstVotedFor.mem (voted : FirstVotedFor env verifier seen author ledgerInfo) :
    ∃ received ∈ seen, received.ledgerInfo = ledgerInfo := by
  obtain ⟨received, isFirst, sameInfo, _⟩ := voted
  exact ⟨received, mem_of_find?_eq_some isFirst, sameInfo⟩

theorem ledgerInfo_unique (collisionFree : CollisionFree env seen) {first second : LedgerInfo}
    (firstSeen : ∃ received ∈ seen, received.ledgerInfo = first)
    (secondSeen : ∃ received ∈ seen, received.ledgerInfo = second)
    (sameDigest : env.ledgerInfoHash first = env.ledgerInfoHash second) : first = second := by
  obtain ⟨one, oneMember, rfl⟩ := firstSeen
  obtain ⟨other, otherMember, rfl⟩ := secondSeen
  exact collisionFree one oneMember other otherMember sameDigest

variable (counting : Counting env verifier seen returned none pending)

include counting

theorem Counting.mem_validVoters (collisionFree : CollisionFree env seen)
    (voted : FirstVotedFor env verifier seen author ledgerInfo) {index : Nat}
    {aggregator : SignatureAggregator LedgerInfo}
    (isOpen : pending.liDigestToVotes.get? (env.ledgerInfoHash ledgerInfo) = some
      (index, .notEnoughVotes aggregator)) :
    author ∈ aggregator.validVoters env.blsLedgerInfo verifier := by
  have openFor := counting.openStatus _ _ _ isOpen
  have dataEq : aggregator.data = ledgerInfo :=
    ledgerInfo_unique collisionFree openFor.source voted.mem openFor.digestEq
  obtain ⟨vote, authorEq, digestEq, source, valid, holds⟩ := counting.holds_first voted
  have infoEq : vote.ledgerInfo = ledgerInfo :=
    ledgerInfo_unique collisionFree source voted.mem digestEq
  rcases holds with ⟨_, _, closed⟩ | ⟨_, _, status, found, member, sameSig⟩
  · rw [isOpen] at closed
    cases closed
  · rw [isOpen] at found
    cases found
    refine mem_map.mpr ⟨(author, status), mem_filter.mpr ⟨member, ?_⟩, rfl⟩
    rw [SignatureAggregator.accepts, isOk_eq_true_iff, dataEq, sameSig, ← authorEq, ← infoEq]
    exact valid

theorem Counting.complete
    (collisionFree : CollisionFree env seen) {authors : Finset Author} (nonempty : authors.Nonempty)
    (voted : ∀ author ∈ authors, FirstVotedFor env verifier seen author ledgerInfo)
    (isQuorum : verifier.quorumVotingPower ≤ ∑ author ∈ authors, verifier.power author) :
    ∃ qc, some (.newQuorumCertificate qc) ∈ returned ∧
      qc.signedLedgerInfo.ledgerInfo = ledgerInfo := by
  obtain ⟨someAuthor, someMember⟩ := nonempty
  have someVoted := voted someAuthor someMember
  obtain ⟨_, _, _, _, _, holds⟩ := counting.holds_first someVoted
  rcases holds with ⟨index, signed, isClosed⟩ | ⟨index, aggregator, _, isOpen, _, _⟩
  · have closed := counting.closedStatus _ _ _ isClosed
    obtain ⟨voteData, isReturned⟩ := closed.returned
    exact ⟨⟨voteData, signed⟩, isReturned,
      ledgerInfo_unique collisionFree closed.source someVoted.mem closed.digestEq⟩
  · exfalso
    have isVoter : ∀ author ∈ authors, author ∈ aggregator.validVoters env.blsLedgerInfo verifier :=
      fun author member =>
        counting.mem_validVoters collisionFree (voted author member) isOpen
    have short := (counting.openStatus _ _ _ isOpen).short
      (ne_nil_of_mem (isVoter someAuthor someMember))
    have nodup : (aggregator.validVoters env.blsLedgerInfo verifier).Nodup :=
      aggregator.signatures.keys_nodup.sublist (filter_sublist.map Prod.fst)
    rw [← sum_toFinset _ nodup] at short
    have atMost : ∑ author ∈ authors, verifier.power author ≤
        ∑ author ∈ (aggregator.validVoters env.blsLedgerInfo
          verifier).toFinset, verifier.power author :=
      Finset.sum_le_sum_of_subset fun author member =>
        mem_toFinset.mpr (isVoter author member)
    exact absurd (isQuorum.trans atMost) (Nat.not_le.mpr short)

end Completeness

/-- Aggregation is sound and complete while no valid signature is replaced by an invalid one. -/
theorem vote_aggregation_sound_complete (distinct : verifier.Distinct) (fits : verifier.Fits)
    (law : env.blsLedgerInfo.AggregateSound) (aggregates : env.blsLedgerInfo.AggregatesNonempty)
    (messages : List Message) (collisionFree : CollisionFree env (votesOf messages))
    (statusSound : ∀ received ∈ votesOf messages, received.isVerified = true →
      received.vote.ValidlySigned env verifier)
    (keeps : new.RunKeepsSignatures env verifier messages) :
    let returned := new.results env verifier messages
    (∀ qc, some (.newQuorumCertificate qc) ∈ returned →
      qc.signedLedgerInfo.verifySignatures env.blsLedgerInfo verifier = .ok () ∧
        verifier.quorumVotingPower ≤ ∑ author ∈ (verifier.aggregateSignatureAuthors
            qc.signedLedgerInfo.signatures).toFinset,
            verifier.power author) ∧
      (∀ first second author, some (.newQuorumCertificate first) ∈ returned →
        some (.newQuorumCertificate second) ∈ returned →
        author ∈ verifier.aggregateSignatureAuthors first.signedLedgerInfo.signatures →
        author ∈ verifier.aggregateSignatureAuthors second.signedLedgerInfo.signatures →
        env.ledgerInfoHash first.signedLedgerInfo.ledgerInfo =
          env.ledgerInfoHash second.signedLedgerInfo.ledgerInfo) ∧
      ∀ earlier later ledgerInfo (authors : Finset Author),
        messages = earlier ++ later → authors.Nonempty →
        (∀ author ∈ authors, FirstVotedFor env verifier (votesOf earlier) author ledgerInfo) →
        verifier.quorumVotingPower ≤ ∑ author ∈ authors, verifier.power author →
        ∃ qc, some (.newQuorumCertificate qc) ∈ new.results env verifier earlier ∧
          qc.signedLedgerInfo.ledgerInfo = ledgerInfo := by
  intro returned
  have counting : Counting env verifier (votesOf messages) returned none
      (new.afterAll env verifier messages) :=
    Counting.run distinct fits law aggregates messages counting_new collisionFree statusSound keeps
  refine ⟨?_, ?_, ?_⟩
  · intro qc isReturned
    have certifies := counting.certificates qc isReturned
    obtain ⟨signers, _, _, isQuorum, _⟩ :=
      verifyMultiSignatures_eq_ok certifies.accepted
    exact ⟨certifies.accepted, (quorumSigners_eq_ok distinct isQuorum).2.2⟩
  · intro first second author isFirst isSecond inFirst inSecond
    exact ((counting.certificates first isFirst).voters author inFirst).unique
      ((counting.certificates second isSecond).voters author inSecond)
  · intro earlier later ledgerInfo authors split nonempty voted isQuorum
    subst split
    have isEarlier : ∀ received ∈ votesOf earlier, received ∈ votesOf (earlier ++ later) := by
      intro received member
      rw [votesOf, flatMap_append]
      exact mem_append_left _ member
    have earlierFree : CollisionFree env (votesOf earlier) := collisionFree.subset isEarlier
    have earlierCounting : Counting env verifier (votesOf earlier)
        (new.results env verifier earlier) none
        (new.afterAll env verifier earlier) :=
      Counting.run distinct fits law aggregates earlier counting_new earlierFree
        (fun received member => statusSound received (isEarlier received member)) keeps.of_append
    exact earlierCounting.complete earlierFree nonempty voted isQuorum

end Runs

namespace VotesAgain

open FourValidators

theorem aggregatesNonempty (M : Type) : (Bls.ofEmpty M).AggregatesNonempty := by
  intro signatures
  cases signatures with
  | nil => simp [Bls.ofEmpty]
  | cons signature rest => simp [Bls.ofEmpty]

theorem aggregateProves (M : Type) : (Bls.ofEmpty M).AggregateProves := by
  intro message signed aggregated key isAggregate _ verified entry member
  have isEmpty : (signed.map Prod.snd).flatten = [] := by
    rw [← Bls.aggregate_ofEmpty isAggregate]
    exact isEmpty_iff.mp verified
  exact isEmpty_iff.mpr (flatten_eq_nil_iff.mp isEmpty entry.2
    (mem_map_of_mem member))

def ledgerInfo : LedgerInfo := ⟨info 4, 0⟩

def qc : QuorumCert := ⟨⟨info 4, info 3⟩, ⟨ledgerInfo, ⟨ValidatorBitVec.withNumBits 4, none⟩⟩⟩

def vote (author : Author) (signature : Signature)
    (timeout : Option (TwoChainTimeout × Signature)) : ReceivedVote :=
  ⟨⟨⟨info 5, info 4⟩, author, ledgerInfo, signature, timeout⟩, false⟩

/-- Validator 1 votes, and again on timeout with a bad signature; two valid votes follow. -/
def messages : List Message := [.vote (vote 1 [] none), .vote (vote 1 [0] (some (⟨1, 5, qc⟩, []))),
    .vote (vote 2 [] none), .vote (vote 3 [] none)]

/-- Validator 2 votes with a bad signature, the others with good ones. -/
def keepingMessages : List Message := [.vote (vote 1 [] none), .vote (vote 2 [0] none),
    .vote (vote 3 [] none), .vote (vote 4 [] none)]

theorem collisionFree {votes : List ReceivedVote}
    (sameInfo : ∀ received ∈ votes, received.ledgerInfo = ledgerInfo) :
    CollisionFree env votes := by
  intro first firstMember second secondMember _
  rw [sameInfo first firstMember, sameInfo second secondMember]

theorem firstVotedFor {votes : List ReceivedVote} {author : Author}
    (isFirst : firstVote votes author = some (vote author [] none))
    (valid : (vote author [] none).vote.ValidlySigned env verifier) :
    FirstVotedFor env verifier votes author ledgerInfo :=
  ⟨vote author [] none, isFirst, rfl, valid⟩

theorem keepsSignatures : new.RunKeepsSignatures env verifier keepingMessages := by
  refine ⟨?_, ?_, ?_, ?_, trivial⟩ <;>
    · intro received isVote previous digest found
      cases mem_singleton.mp isVote
      cases found

end VotesAgain

open FourValidators VotesAgain

/-- The bad signature is filtered out; the fourth vote completes the quorum. -/
theorem certificate_of_three_valid_votes : ∃ qc, some (.newQuorumCertificate qc) ∈ new.results
        env verifier keepingMessages ∧
    qc.signedLedgerInfo.ledgerInfo = ledgerInfo := by
  have complete := (vote_aggregation_sound_complete (by decide) (by decide)
    (Bls.aggregateSound_ofEmpty _) (aggregatesNonempty _)
    keepingMessages (collisionFree (by decide))
    (by decide) keepsSignatures).2.2
  refine complete keepingMessages [] ledgerInfo
    {1, 3, 4} (append_nil _).symm (by decide) ?_ (by decide)
  intro author member
  simp only [Finset.mem_insert, Finset.mem_singleton] at member
  rcases member with rfl | rfl | rfl <;> exact firstVotedFor (by decide) rfl

/-- A quorum of valid first votes for one ledger info without a
certificate. -/
theorem no_certificate_after_vote_on_timeout : ¬ ∀ (env : VotingEnv) (verifier : ValidatorVerifier)
      (messages : List Message) (ledgerInfo : LedgerInfo)
      (authors : Finset Author),
    verifier.Distinct → verifier.Fits → env.blsLedgerInfo.AggregateSound →
      env.blsLedgerInfo.AggregatesNonempty →
      env.blsLedgerInfo.AggregateProves →
      CollisionFree env (votesOf messages) →
      (∀ received ∈ votesOf messages, received.isVerified = true →
        received.vote.ValidlySigned env verifier) →
      authors.Nonempty →
      (∀ author ∈ authors, FirstVotedFor env verifier (votesOf messages) author ledgerInfo) →
      verifier.quorumVotingPower ≤ ∑ author ∈ authors, verifier.power author →
      ∃ qc, some (.newQuorumCertificate qc) ∈ new.results env verifier messages ∧
        qc.signedLedgerInfo.ledgerInfo = ledgerInfo := by
  intro claimed
  have voted : ∀ author ∈ ({1, 2, 3} : Finset Author), FirstVotedFor env verifier
      (votesOf messages) author ledgerInfo := by
    intro author member
    simp only [Finset.mem_insert, Finset.mem_singleton] at member
    rcases member with rfl | rfl | rfl <;> exact firstVotedFor (by decide) rfl
  obtain ⟨qc, isReturned, _⟩ := claimed env verifier messages ledgerInfo {1, 2, 3} (by decide)
    (by decide) (Bls.aggregateSound_ofEmpty _)
    (aggregatesNonempty _) (aggregateProves _)
    (collisionFree (by decide)) (by decide) (by decide) voted
    (by decide)
  have results : new.results env verifier messages =
      [some (.voteAdded 1), some (.voteAdded 1), some (.voteAdded 2), some (.voteAdded 2)] := by
    decide
  rw [results] at isReturned
  simp at isReturned

end PendingVotes

end LumioNode
