import LumioNode.Consensus.VoteAggregation

/-! # Soundness and completeness of vote counting

Certificates verify, no author counts for two ledger infos, and a quorum of valid first
votes yields a certificate, if timeout votes that replace valid votes are valid. -/

namespace LumioNode

open Library SortedMap SignatureAggregator List

abbrev ReceivedVote.digest (env : VotingEnv) (received : ReceivedVote) : HashValue :=
  env.ledgerInfoHash received.ledgerInfo

abbrev SignatureAggregator.withVote (aggregator : SignatureAggregator LedgerInfo)
    (received : ReceivedVote) : SignatureAggregator LedgerInfo :=
  aggregator.addSignature received.author received.signatureWithStatus

namespace PendingVotes

/-! ## Counting one vote -/

/-- A vote completes a certificate, or the status stays open with the vote added and perhaps
invalid signatures removed. -/
inductive AddsVote (env : VotingEnv) (verifier : ValidatorVerifier)
    (received : ReceivedVote) (added : SignatureAggregator LedgerInfo) :
    Option Progress → VoteStatus → Prop
  | certified {signature : AggregateSignature}
      (accepted : verifier.verifyMultiSignatures env.blsLedgerInfo added.data signature = .ok ())
      (voters : ∀ author ∈ verifier.aggregateSignatureAuthors signature, author ∈ added.allVoters) :
      AddsVote env verifier received added (some (.done (.newQuorumCertificate
          ⟨received.vote.voteData, ⟨added.data, signature⟩⟩)))
        (.enoughVotes ⟨added.data, signature⟩)
  | stillOpen {progress : Option Progress}
      {next : SignatureAggregator LedgerInfo}
      (noCertificate : ∀ qc, progress ≠ some (.done (.newQuorumCertificate qc)))
      (nextEq : next = added ∨ next = added.filtered env.blsLedgerInfo verifier)
      (short : next.Short env.blsLedgerInfo verifier) :
      AddsVote env verifier received added progress (.notEnoughVotes next)

section AddVote

variable {env : VotingEnv} {verifier : ValidatorVerifier}

theorem short_of_allVoters {M : Type} {bls : Bls M} {aggregator : SignatureAggregator M}
    (less : (aggregator.allVoters.map verifier.power).sum < verifier.quorumVotingPower) :
    aggregator.Short bls verifier := by
  intro _
  have sublist : (aggregator.validVoters bls verifier).Sublist
      aggregator.allVoters := filter_sublist.map _
  have bound := (sublist.map verifier.power).sum_le_sum (by simp)
  omega

variable {aggregator : SignatureAggregator LedgerInfo}

theorem mem_withVote {received : ReceivedVote} {entry : Author × SignatureWithStatus} :
    entry ∈ (aggregator.withVote received).signatures.entries ↔
      entry = (received.author, received.signatureWithStatus) ∨
        entry ∈ aggregator.signatures.entries ∧ entry.1 ≠ received.author :=
  mem_insertEntry aggregator.signatures.sorted

theorem addVote_open (distinct : verifier.Distinct) (fits : verifier.Fits)
    (law : env.blsLedgerInfo.AggregateSound) (aggregates : env.blsLedgerInfo.AggregatesNonempty)
    {received : ReceivedVote}
    (sound : (aggregator.withVote received).Sound env.blsLedgerInfo verifier) :
    let outcome := addVote env verifier received (.notEnoughVotes aggregator)
    AddsVote env verifier received (aggregator.withVote received) outcome.1 outcome.2.1 := by
  intro outcome
  have checkedEq := ValidatorVerifier.checkVotingPower_of_known sound.known_voters
  have someEntry : (aggregator.withVote received).signatures.entries ≠ [] :=
    ne_nil_of_mem (mem_withVote.mpr (.inl rfl))
  simp only [outcome, addVote]
  unfold withVote at *
  generalize aggregator.addSignature received.author received.signatureWithStatus = added at *
  by_cases less : (added.allVoters.map verifier.power).sum < verifier.quorumVotingPower
  · rw [if_pos less] at checkedEq
    rw [checkVotingPower, checkedEq]
    exact .stillOpen (by simp) (.inl rfl) (short_of_allVoters less)
  · rw [if_neg less] at checkedEq
    have cases := sound.aggregateAndVerify_cases distinct fits law aggregates someEntry checkedEq
    rw [checkVotingPower, checkedEq]
    simp only [if_neg less]
    rcases cases with ⟨signature, isOk, accepted, voters⟩ | ⟨failure, isError, filteredEq, short⟩
    · rw [isOk]
      exact .certified accepted voters
    · rw [isError, filteredEq]
      split
      · rename_i impossible
        cases impossible
      · exact .stillOpen (by simp) (.inr rfl) short
      · exact .stillOpen (by simp) (.inr rfl) short

end AddVote

/-! ## The invariant -/

end PendingVotes

def Vote.ValidlySigned (env : VotingEnv) (verifier : ValidatorVerifier) (vote : Vote) : Prop :=
  verifier.verify env.blsLedgerInfo vote.author vote.ledgerInfo vote.signature = .ok ()

instance (env : VotingEnv) (verifier : ValidatorVerifier) (vote : Vote) :
    Decidable (vote.ValidlySigned env verifier) :=
  inferInstanceAs (Decidable (_ = _))

/-- The digests of the votes' ledger infos do not collide. -/
def CollisionFree (env : VotingEnv) (votes : List ReceivedVote) : Prop :=
  ∀ first ∈ votes, ∀ second ∈ votes, env.ledgerInfoHash first.ledgerInfo =
        env.ledgerInfoHash second.ledgerInfo →
      first.ledgerInfo = second.ledgerInfo

theorem CollisionFree.eq_last {env : VotingEnv} {seen : List ReceivedVote} {received : ReceivedVote}
    {info : LedgerInfo} (collisionFree : CollisionFree env (seen ++ [received]))
    (source : ∃ other ∈ seen ++ [received], other.ledgerInfo = info)
    (sameDigest : env.ledgerInfoHash info = env.ledgerInfoHash received.ledgerInfo) :
    info = received.ledgerInfo := by
  obtain ⟨other, isOther, rfl⟩ := source
  exact collisionFree other isOther received mem_concat_self sameDigest

theorem CollisionFree.subset {env : VotingEnv} {votes others : List ReceivedVote}
    (collisionFree : CollisionFree env votes) (areVotes : ∀ other ∈ others, other ∈ votes) :
    CollisionFree env others :=
  fun first isFirst second isSecond =>
    collisionFree first (areVotes first isFirst) second (areVotes second isSecond)

def firstVote (votes : List ReceivedVote) (author : Author) : Option ReceivedVote :=
  votes.find? fun received => received.author = author

namespace PendingVotes

/-- The author's last vote was for a ledger info of this digest. -/
def VotedFor (pending : PendingVotes) (author : Author) (digest : HashValue) : Prop :=
  ∃ vote, pending.authorToVote.get? author = some (vote, digest)

/-- The digest has a certificate or still holds the author's signature. -/
def Holds (pending : PendingVotes) (digest : HashValue) (author : Author)
    (signature : Signature) : Prop :=
  (∃ index ledgerInfo, pending.liDigestToVotes.get? digest =
      some (index, .enoughVotes ledgerInfo)) ∨
    ∃ index aggregator status, pending.liDigestToVotes.get? digest =
        some (index, .notEnoughVotes aggregator) ∧
      (author, status) ∈ aggregator.signatures.entries ∧
      status.signature = signature

/-- An aggregator that has not reached a quorum of valid signatures. -/
structure OpenFor (env : VotingEnv) (verifier : ValidatorVerifier) (seen : List ReceivedVote)
    (pending : PendingVotes) (digest : HashValue) (aggregator : SignatureAggregator LedgerInfo) :
    Prop where
  digestEq : env.ledgerInfoHash aggregator.data = digest
  source : ∃ received ∈ seen, received.ledgerInfo = aggregator.data
  sound : aggregator.Sound env.blsLedgerInfo verifier
  voters : ∀ author ∈ aggregator.allVoters, pending.VotedFor author digest
  short : aggregator.Short env.blsLedgerInfo verifier

/-- A ledger info whose certificate was returned. -/
structure ClosedFor (env : VotingEnv) (seen : List ReceivedVote)
    (returned : List (Option VoteReceptionResult)) (digest : HashValue)
    (signed : LedgerInfoWithSignatures) : Prop where
  digestEq : env.ledgerInfoHash signed.ledgerInfo = digest
  source : ∃ received ∈ seen, received.ledgerInfo = signed.ledgerInfo
  returned : ∃ voteData, some (.newQuorumCertificate ⟨voteData, signed⟩) ∈ returned

/-- What a returned certificate stands for. -/
structure Certifies (env : VotingEnv) (verifier : ValidatorVerifier)
    (pending : PendingVotes) (signed : LedgerInfoWithSignatures) : Prop where
  accepted : signed.verifySignatures env.blsLedgerInfo verifier = .ok ()
  voters : ∀ author ∈ verifier.aggregateSignatureAuthors signed.signatures,
    pending.VotedFor author (env.ledgerInfoHash signed.ledgerInfo)

structure Stored (env : VotingEnv) (verifier : ValidatorVerifier) (seen : List ReceivedVote)
    (author : Author) (vote : Vote) (digest : HashValue) : Prop where
  authorEq : vote.author = author
  digestEq : env.ledgerInfoHash vote.ledgerInfo = digest
  source : ∃ received ∈ seen, received.ledgerInfo = vote.ledgerInfo
  first : ∃ received, firstVote seen author = some received ∧
    env.ledgerInfoHash received.ledgerInfo = digest ∧
    (received.vote.ValidlySigned env verifier → vote.ValidlySigned env verifier)

/-- The votes `seen` and results `returned` so far, and the author whose vote is stored but not
yet counted. -/
structure Counting (env : VotingEnv) (verifier : ValidatorVerifier) (seen : List ReceivedVote)
    (returned : List (Option VoteReceptionResult))
    (uncounted : Option Author) (pending : PendingVotes) : Prop where
  openStatus : ∀ digest index aggregator, pending.liDigestToVotes.get? digest =
        some (index, .notEnoughVotes aggregator) →
      OpenFor env verifier seen pending digest aggregator
  closedStatus : ∀ digest index signed, pending.liDigestToVotes.get? digest =
        some (index, .enoughVotes signed) →
      ClosedFor env seen returned digest signed
  certificates : ∀ qc, some (.newQuorumCertificate qc) ∈ returned →
    Certifies env verifier pending qc.signedLedgerInfo
  stored : ∀ author vote digest, pending.authorToVote.get? author = some (vote, digest) →
      Stored env verifier seen author vote digest
  counted : ∀ author vote digest, pending.authorToVote.get? author = some (vote, digest) →
      uncounted ≠ some author → vote.ValidlySigned env verifier →
        pending.Holds digest author vote.signature
  unseen : ∀ author, pending.authorToVote.get? author = none → firstVote seen author = none

section Invariant

variable {env : VotingEnv} {verifier : ValidatorVerifier}
  {seen : List ReceivedVote} {returned : List (Option VoteReceptionResult)}
  {uncounted : Option Author} {pending other : PendingVotes} {received : ReceivedVote}
  {author : Author} {vote : Vote} {digest otherDigest : HashValue} {signature : Signature}
  {index : Nat} {aggregator : SignatureAggregator LedgerInfo}

theorem counting_new : Counting env verifier [] [] none PendingVotes.new where
  openStatus := nofun
  closedStatus := nofun
  certificates := by simp
  stored := fun _ _ _ found => nomatch found
  counted := fun _ _ _ found => nomatch found
  unseen := by
    intro author _
    rfl

section

variable (counting : Counting env verifier seen returned uncounted pending)

include counting

/-- The invariant is about the votes only. -/
theorem Counting.of_same (sameStatus : other.liDigestToVotes = pending.liDigestToVotes)
    (sameVotes : other.authorToVote = pending.authorToVote) :
    Counting env verifier seen returned uncounted other := by
  cases pending
  cases other
  cases sameStatus
  cases sameVotes
  exact { counting with
    openStatus := fun digest index aggregator found =>
      { counting.openStatus digest index aggregator found with }
    certificates := fun qc isReturned => { counting.certificates qc isReturned with } }

theorem Counting.returns {result : Option VoteReceptionResult}
    (certified : ∀ qc, result = some (.newQuorumCertificate qc) →
      Certifies env verifier pending qc.signedLedgerInfo) :
    Counting env verifier seen (returned ++ [result]) uncounted pending := by
  refine { counting with
    closedStatus := ?_
    certificates := ?_ }
  · intro digest index signed found
    have closed := counting.closedStatus digest index signed found
    obtain ⟨voteData, isReturned⟩ := closed.returned
    exact { closed with returned := ⟨voteData, mem_append_left _ isReturned⟩ }
  · intro qc isReturned
    rcases mem_append.mp isReturned with before | now
    · exact counting.certificates qc before
    · exact certified qc (mem_singleton.mp now).symm

end

/-! ## Storing a vote -/

theorem firstVote_append {first received : ReceivedVote}
    (isFirst : firstVote seen author = some first) :
    firstVote (seen ++ [received]) author = some first := by
  unfold firstVote at *
  rw [List.find?_append, isFirst, Option.some_or]

theorem firstVote_append_of_ne (different : received.author ≠ author) :
    firstVote (seen ++ [received]) author = firstVote seen author := by
  unfold firstVote
  rw [List.find?_append]
  simp [different]

theorem Stored.more (isStored : Stored env verifier seen author vote digest)
    (received : ReceivedVote) : Stored env verifier (seen ++ [received]) author vote digest := by
  obtain ⟨other, isOther, sourceEq⟩ := isStored.source
  obtain ⟨first, isFirst, sameDigest, valid⟩ := isStored.first
  exact { isStored with
    source := ⟨other, mem_append_left _ isOther, sourceEq⟩
    first := ⟨first, firstVote_append isFirst, sameDigest, valid⟩ }

theorem OpenFor.more (isOpen : OpenFor env verifier seen pending digest aggregator)
    (received : ReceivedVote)
    (voted : ∀ author, pending.VotedFor author digest → other.VotedFor author digest) :
    OpenFor env verifier (seen ++ [received]) other digest aggregator := by
  obtain ⟨source, isSource, sourceEq⟩ := isOpen.source
  exact { isOpen with
    source := ⟨source, mem_append_left _ isSource, sourceEq⟩
    voters := fun author member => voted author (isOpen.voters author member) }

variable {signed : LedgerInfoWithSignatures} {entry : Nat × VoteStatus}

theorem ClosedFor.more (closed : ClosedFor env seen returned digest signed)
    (received : ReceivedVote) : ClosedFor env (seen ++ [received]) returned digest signed := by
  obtain ⟨source, isSource, sourceEq⟩ := closed.source
  exact { closed with source := ⟨source, mem_append_left _ isSource, sourceEq⟩ }

theorem votedBefore_of_refused {result : VoteReceptionResult}
    (refused : pending.alreadyVoted vote digest = some result) :
    ∃ previous, pending.authorToVote.get? vote.author = some previous := by
  unfold alreadyVoted at refused
  cases found : pending.authorToVote.get? vote.author with
  | none => simp [found] at refused
  | some previous => exact ⟨previous, rfl⟩

theorem Counting.refuses (counting : Counting env verifier seen returned uncounted pending)
    (votedBefore : pending.authorToVote.get? received.author = some (vote, digest)) :
    Counting env verifier (seen ++ [received]) returned uncounted pending := by
  refine { counting with
    openStatus := ?_
    closedStatus := ?_
    stored := ?_
    unseen := ?_ }
  · intro digest index aggregator found
    exact (counting.openStatus digest index aggregator found).more received fun _ voted => voted
  · intro digest index signed found
    exact (counting.closedStatus digest index signed found).more received
  · intro author vote digest found
    exact (counting.stored author vote digest found).more received
  · intro author absent
    have different : received.author ≠ author := by
      intro same
      rw [same, absent] at votedBefore
      cases votedBefore
    rw [firstVote_append_of_ne different]
    exact counting.unseen author absent

/-- A vote that is not refused is the author's first, or a timeout vote for the same ledger
info. -/
theorem digest_of_alreadyVoted {vote previous : Vote} {digest previousDigest : HashValue}
    (notRefused : pending.alreadyVoted vote digest = none)
    (votedBefore : pending.authorToVote.get? vote.author = some (previous, previousDigest)) :
    previousDigest = digest := by
  unfold alreadyVoted at notRefused
  rw [votedBefore] at notRefused
  by_cases same : digest = previousDigest
  · exact same.symm
  · simp [same] at notRefused

theorem record_votedFor (notRefused : pending.alreadyVoted received.vote digest = none)
    (voted : pending.VotedFor author otherDigest) :
    (pending.record received digest).VotedFor author otherDigest := by
  obtain ⟨vote, found⟩ := voted
  by_cases same : author = received.author
  · subst same
    have digestEq := digest_of_alreadyVoted notRefused found
    subst digestEq
    refine ⟨received.vote, ?_⟩
    rw [record, get?_insert, if_pos rfl]
  · refine ⟨vote, ?_⟩
    rw [record, get?_insert, if_neg same]
    exact found

theorem record_status :
    (pending.record received digest).liDigestToVotes.get? otherDigest = if otherDigest = digest then
        some (pending.statusOf received digest)
      else pending.liDigestToVotes.get? otherDigest := by
  rw [record, withStatus, get?_insert]

theorem record_status_cases
    (found : (pending.record received digest).liDigestToVotes.get? otherDigest = some entry) :
    pending.liDigestToVotes.get? otherDigest = some entry ∨ otherDigest = digest ∧
      entry.2 = .notEnoughVotes (SignatureAggregator.new received.ledgerInfo) := by
  rw [record_status] at found
  split at found
  · rename_i sameDigest
    cases found
    unfold statusOf
    cases wasThere : pending.liDigestToVotes.get? digest with
    | none => exact .inr ⟨sameDigest, rfl⟩
    | some => exact .inl (sameDigest ▸ wasThere)
  · exact .inl found

theorem record_holds (holds : pending.Holds otherDigest author signature) :
    (pending.record received digest).Holds otherDigest author signature := by
  have kept : ∀ entry, pending.liDigestToVotes.get? otherDigest = some entry →
      (pending.record received digest).liDigestToVotes.get? otherDigest = some entry := by
    intro entry found
    rw [record_status]
    split
    · rename_i sameDigest
      subst sameDigest
      simp [statusOf, found]
    · exact found
  rcases holds with ⟨index, signed, found⟩ | ⟨index, aggregator, status, found, member, signatureEq⟩
  · exact .inl ⟨index, signed, kept _ found⟩
  · exact .inr ⟨index, aggregator, status, kept _ found, member, signatureEq⟩

variable (env verifier) in
/-- A timeout vote that replaces a validly signed vote is validly signed. -/
def KeepsSignature (pending : PendingVotes) (received : ReceivedVote) : Prop :=
  ∀ previous digest, pending.authorToVote.get? received.author = some (previous, digest) →
      pending.alreadyVoted received.vote (env.ledgerInfoHash received.ledgerInfo) = none →
        previous.ValidlySigned env verifier → received.vote.ValidlySigned env verifier

section

variable (counting : Counting env verifier seen returned none pending)
  (notRefused : pending.alreadyVoted received.vote (received.digest env) = none)
  (keeps : pending.KeepsSignature env verifier received)

include counting notRefused keeps

theorem Counting.records_stored :
    Stored env verifier (seen ++ [received]) received.author received.vote
      (received.digest env) := by
  have source : ∃ other ∈ seen ++ [received], other.ledgerInfo = received.vote.ledgerInfo :=
    ⟨received, mem_concat_self, rfl⟩
  refine ⟨rfl, rfl, source, ?_⟩
  cases votedBefore : pending.authorToVote.get? received.author with
  | none =>
    have notSeen := counting.unseen received.author votedBefore
    refine ⟨received, ?_, rfl, fun valid => valid⟩
    unfold firstVote at *
    rw [List.find?_append, notSeen]
    simp
  | some previous =>
    obtain ⟨previousVote, digest⟩ := previous
    obtain ⟨first, isFirst, sameDigest, valid⟩ := (counting.stored _ _ _ votedBefore).first
    have digestEq := digest_of_alreadyVoted notRefused votedBefore
    refine ⟨first, firstVote_append isFirst, sameDigest.trans digestEq, ?_⟩
    intro firstValid
    exact keeps previousVote digest votedBefore notRefused (valid firstValid)

theorem Counting.records :
    Counting env verifier (seen ++ [received]) returned (some received.author)
      (pending.record received (received.digest env)) := by
  have votesEq : ∀ author, (pending.record received
      (received.digest env)).authorToVote.get? author =
      if author = received.author then
        some (received.vote, received.digest env)
      else pending.authorToVote.get? author := by
    intro author
    rw [record, get?_insert]
  constructor
  · intro digest index aggregator found
    rcases record_status_cases found with wasThere | ⟨rfl, isNew⟩
    · exact (counting.openStatus _ _ _ wasThere).more received fun _ => record_votedFor notRefused
    · cases isNew
      exact
        { digestEq := rfl
          source := ⟨received, mem_concat_self, rfl⟩
          sound := ⟨by simp [SignatureAggregator.new, empty],
            by simp [SignatureAggregator.new, empty]⟩
          voters := nofun
          short := fun someVoter => absurd rfl someVoter }
  · intro digest index signed found
    rcases record_status_cases found with wasThere | ⟨_, isNew⟩
    · exact (counting.closedStatus _ _ _ wasThere).more received
    · cases isNew
  · intro qc isReturned
    have certifies := counting.certificates qc isReturned
    exact ⟨certifies.accepted, fun author member =>
      record_votedFor notRefused (certifies.voters author member)⟩
  · intro author vote digest found
    rw [votesEq] at found
    split at found
    · rename_i sameAuthor
      cases found
      rw [sameAuthor]
      exact counting.records_stored notRefused keeps
    · exact (counting.stored author vote digest found).more received
  · intro author vote digest found isCounted valid
    rw [votesEq] at found
    split at found
    · rename_i sameAuthor
      exact absurd (congrArg some sameAuthor.symm) isCounted
    · exact record_holds (counting.counted author vote digest found (by simp) valid)
  · intro author absent
    rw [votesEq] at absent
    split at absent
    · cases absent
    · rename_i different
      rw [firstVote_append_of_ne (Ne.symm different)]
      exact counting.unseen author absent

end

/-! ## Counting the stored vote -/

theorem Counting.unknown (counting : Counting env verifier seen returned (some author) pending)
    (isUnknown : (verifier.getVotingPower author).isNone = true) :
    Counting env verifier seen returned none pending := by
  refine { counting with counted := ?_ }
  intro voter vote digest found _ valid
  by_cases same : voter = author
  · subst same
    have authorEq := (counting.stored voter vote digest found).authorEq
    obtain ⟨info, isInfo, _⟩ := ValidatorVerifier.verify_eq_ok.mp valid
    rw [authorEq] at isInfo
    simp [ValidatorVerifier.getVotingPower, isInfo] at isUnknown
  · exact counting.counted voter vote digest found
      (fun sameAuthor => same (Option.some.inj sameAuthor).symm) valid

theorem withStatus_get : (pending.withStatus digest entry).liDigestToVotes.get? otherDigest =
      if otherDigest = digest then some entry
      else pending.liDigestToVotes.get? otherDigest := by
  rw [withStatus, get?_insert]

section

variable (counting : Counting env verifier seen returned (some received.author) pending)
  (isStored : pending.authorToVote.get? received.author = some (received.vote, digest))

include counting isStored

theorem Counting.holds_other (found : pending.authorToVote.get? author = some (vote, otherDigest))
    (different : otherDigest ≠ digest) (valid : vote.ValidlySigned env verifier) :
    pending.Holds otherDigest author vote.signature := by
  apply counting.counted author vote otherDigest found ?_ valid
  intro sameAuthor
  rw [← Option.some.inj sameAuthor, isStored] at found
  exact different (Prod.mk.inj (Option.some.inj found)).2.symm

theorem Counting.setsStatus {entry : Nat × VoteStatus}
    (isOpen : ∀ next, entry.2 = .notEnoughVotes next →
      OpenFor env verifier seen pending digest next)
    (isClosed : ∀ signed, entry.2 = .enoughVotes signed → ClosedFor env seen returned digest signed)
    (holds : ∀ author vote, pending.authorToVote.get? author = some (vote, digest) →
      vote.ValidlySigned env verifier →
        (pending.withStatus digest entry).Holds digest author vote.signature) :
    Counting env verifier seen returned none (pending.withStatus digest entry) := by
  refine ⟨?_, ?_, fun qc isReturned => { counting.certificates qc isReturned with },
    counting.stored, ?_, counting.unseen⟩
  · intro otherDigest index next found
    rw [withStatus_get] at found
    split at found
    · next same =>
      cases found
      exact { same ▸ isOpen next rfl with }
    · exact { counting.openStatus _ _ _ found with }
  · intro otherDigest index signed found
    rw [withStatus_get] at found
    split at found
    · next same =>
      cases found
      exact same ▸ isClosed signed rfl
    · exact counting.closedStatus _ _ _ found
  · intro author vote otherDigest found _ valid
    by_cases same : otherDigest = digest
    · subst same
      exact holds author vote found valid
    · unfold Holds
      rw [withStatus_get, if_neg same]
      exact counting.holds_other isStored found same valid

theorem Counting.closes {voteData : VoteData}
    (digestEq : env.ledgerInfoHash signed.ledgerInfo = digest)
    (source : ∃ other ∈ seen, other.ledgerInfo = signed.ledgerInfo)
    (certifies : Certifies env verifier pending signed) (index : Nat) :
    Counting env verifier seen (returned ++ [some (.newQuorumCertificate ⟨voteData, signed⟩)]) none
      (pending.withStatus digest (index, .enoughVotes signed)) := by
  have certified : ∀ qc, some (.newQuorumCertificate ⟨voteData, signed⟩) =
      some (VoteReceptionResult.newQuorumCertificate qc) →
        Certifies env verifier pending qc.signedLedgerInfo := by
    rintro qc ⟨⟩
    exact certifies
  refine (counting.returns certified).setsStatus isStored nofun ?_ ?_
  · rintro _ ⟨⟩
    exact ⟨digestEq, source, ⟨voteData, mem_concat_self⟩⟩
  · intro author vote _ _
    left
    refine ⟨index, signed, ?_⟩
    rw [withStatus_get, if_pos rfl]

/-- The valid votes of the digest are in the aggregator once the stored one is added. -/
theorem Counting.mem_added
    (found : pending.liDigestToVotes.get? digest = some (index, .notEnoughVotes aggregator))
    (voted : pending.authorToVote.get? author = some (vote, digest))
    (valid : vote.ValidlySigned env verifier) :
    ∃ status, (author, status) ∈ (aggregator.withVote received).signatures.entries ∧
      status.signature = vote.signature := by
  by_cases sameAuthor : author = received.author
  · subst sameAuthor
    rw [isStored] at voted
    cases voted
    exact ⟨received.signatureWithStatus, mem_withVote.mpr (.inl rfl), rfl⟩
  · rcases counting.counted author vote digest voted
        (fun same => sameAuthor (Option.some.inj same).symm) valid with
      ⟨_, signed, isClosed⟩ | ⟨_, other, status, isOpen, member, signatureEq⟩
    · rw [found] at isClosed
      cases isClosed
    · rw [found] at isOpen
      cases isOpen
      exact ⟨status, mem_withVote.mpr (.inr ⟨member, sameAuthor⟩), signatureEq⟩

end

variable (distinct : verifier.Distinct) (fits : verifier.Fits)
  (law : env.blsLedgerInfo.AggregateSound) (aggregates : env.blsLedgerInfo.AggregatesNonempty)

section

variable
  (counting : Counting env verifier (seen ++ [received]) returned (some received.author) pending)
  (collisionFree : CollisionFree env (seen ++ [received]))

include counting collisionFree

theorem Counting.added_sound
    (statusSound : received.isVerified = true → received.vote.ValidlySigned env verifier)
    (isKnown : (verifier.getVotingPower received.author).isNone = false)
    (found : pending.liDigestToVotes.get? (received.digest env) =
      some (index, .notEnoughVotes aggregator)) :
    aggregator.data = received.ledgerInfo ∧ (aggregator.withVote received).Sound env.blsLedgerInfo
          verifier := by
  have isOpen := counting.openStatus _ _ _ found
  have dataEq := collisionFree.eq_last isOpen.source isOpen.digestEq
  refine ⟨dataEq, ?_, ?_⟩
  · intro entry member
    rcases mem_withVote.mp member with rfl | ⟨isOld, _⟩
    · simpa using isKnown
    · exact isOpen.sound.known entry isOld
  · intro entry member isVerified
    rcases mem_withVote.mp member with rfl | ⟨isOld, _⟩
    · apply isOk_eq_true_iff.mpr
      have valid := statusSound isVerified
      simp only [addSignature, dataEq]
      exact valid
    · exact isOpen.sound.verified entry isOld isVerified

variable (isStored : pending.authorToVote.get? received.author =
  some (received.vote, received.digest env))

include isStored

theorem Counting.staysOpen {aggregator next : SignatureAggregator LedgerInfo}
    (found : pending.liDigestToVotes.get? (received.digest env) = some
      (index, .notEnoughVotes aggregator)) (dataEq : aggregator.data = received.ledgerInfo)
    (sound : (aggregator.withVote received).Sound env.blsLedgerInfo verifier)
    (nextEq : next = aggregator.withVote received ∨ next = (aggregator.withVote received).filtered
      env.blsLedgerInfo verifier) (short : next.Short env.blsLedgerInfo verifier) :
    Counting env verifier (seen ++ [received]) returned none
      (pending.withStatus (received.digest env) (index, .notEnoughVotes next)) := by
  have isOpen := counting.openStatus _ _ _ found
  have nextData : next.data = aggregator.data := by rcases nextEq with rfl | rfl <;> rfl
  have nextSound : next.Sound env.blsLedgerInfo verifier := by
    rcases nextEq with rfl | rfl
    · exact sound
    · exact sound.filtered_sound
  have nextVoters : ∀ author ∈ next.allVoters,
      author = received.author ∨ author ∈ aggregator.allVoters := by
    intro author member
    have isAdded : author ∈ (aggregator.withVote received).allVoters := by
      rcases nextEq with rfl | rfl
      · exact member
      · obtain ⟨entry, isEntry, rfl⟩ := mem_map.mp member
        obtain ⟨original, isOriginal, _, rfl⟩ := sound.mem_filtered.mp isEntry
        exact mem_map.mpr ⟨original, isOriginal, rfl⟩
    exact mem_keys_insert.mp isAdded
  have kept : ∀ author status,
      (author, status) ∈ (aggregator.withVote received).signatures.entries →
      verifier.verify env.blsLedgerInfo author received.ledgerInfo status.signature = .ok () →
        ∃ nextStatus, (author, nextStatus) ∈ next.signatures.entries ∧
          nextStatus.signature = status.signature := by
    intro author status isEntry valid
    rcases nextEq with rfl | rfl
    · exact ⟨status, isEntry, rfl⟩
    · refine ⟨status.setVerified, sound.mem_filtered.mpr ⟨_, isEntry, ?_, rfl⟩, rfl⟩
      apply isOk_eq_true_iff.mpr
      simp only [addSignature, dataEq]
      exact valid
  refine counting.setsStatus isStored ?_ nofun ?_
  · rintro _ ⟨⟩
    obtain ⟨other, isOther, otherEq⟩ := isOpen.source
    exact
      { digestEq := nextData ▸ isOpen.digestEq
        source := ⟨other, isOther, otherEq.trans nextData.symm⟩
        sound := nextSound
        voters := by
          intro author member
          rcases nextVoters author member with rfl | wasThere
          · exact ⟨received.vote, isStored⟩
          · exact isOpen.voters author wasThere
        short := short }
  · intro author vote voted valid
    have isVote := counting.stored author vote _ voted
    have sameInfo := collisionFree.eq_last isVote.source isVote.digestEq
    obtain ⟨status, isEntry, signatureEq⟩ := counting.mem_added isStored found voted valid
    unfold Vote.ValidlySigned at valid
    rw [isVote.authorEq, sameInfo, ← signatureEq] at valid
    obtain ⟨nextStatus, isNext, nextSignature⟩ := kept author status isEntry valid
    right
    refine ⟨index, next, nextStatus, ?_, isNext, nextSignature.trans signatureEq⟩
    rw [withStatus_get, if_pos rfl]

include distinct fits law aggregates in
/-- Counting the stored vote, whatever comes out. -/
theorem Counting.counts
    (statusSound : received.isVerified = true → received.vote.ValidlySigned env verifier)
    (isKnown : (verifier.getVotingPower received.author).isNone = false) {status : VoteStatus}
    (found : pending.liDigestToVotes.get? (received.digest env) = some (index, status)) :
    let called := pending.countVote env verifier received (received.digest env)
    Counting env verifier (seen ++ [received]) (returned ++ [called.1]) none called.2.1 := by
  intro called
  have statusEq : pending.statusOf received (received.digest env) = (index, status) := by
    simp [statusOf, found]
  simp only [called, countVote, statusEq]
  cases status with
  | enoughVotes =>
    have closed := counting.closedStatus _ _ _ found
    obtain ⟨voteData, isReturned⟩ := closed.returned
    have certifies := counting.certificates _ isReturned
    exact counting.closes isStored closed.digestEq closed.source certifies index
  | notEnoughVotes aggregator =>
    obtain ⟨dataEq, sound⟩ := counting.added_sound collisionFree statusSound isKnown found
    have isOpen := counting.openStatus _ _ _ found
    have adds := addVote_open distinct fits law aggregates sound
    simp only at adds
    generalize addVote env verifier received (.notEnoughVotes aggregator) = outcome at adds ⊢
    obtain ⟨progress, newStatus, rejected⟩ := outcome
    cases adds with
    | @certified signature accepted voters =>
      have votedFor : ∀ author ∈ verifier.aggregateSignatureAuthors signature,
          pending.VotedFor author (env.ledgerInfoHash aggregator.data) := by
        intro author member
        rw [isOpen.digestEq]
        rcases mem_keys_insert.mp (voters author member) with rfl | wasThere
        · exact ⟨received.vote, isStored⟩
        · exact isOpen.voters author wasThere
      have certifies : Certifies env verifier pending ⟨aggregator.data, signature⟩ :=
        ⟨accepted, votedFor⟩
      exact counting.closes isStored isOpen.digestEq isOpen.source certifies index
    | stillOpen noCertificate nextEq short =>
      have stays := counting.staysOpen collisionFree isStored found dataEq sound nextEq short
      split
      · exact stays.returns (by simp)
      · next isDone =>
        apply stays.returns
        rintro qc ⟨⟩
        exact absurd isDone (noCertificate qc)
      · obtain ⟨sameStatus, sameVotes, noQc⟩ := addVoteTimeout_frame
        exact (stays.of_same sameStatus sameVotes).returns fun qc isQc => absurd isQc (noQc qc)

end

/-! ## Runs -/

include distinct fits law aggregates in
theorem Counting.inserts (counting : Counting env verifier seen returned none pending)
    (collisionFree : CollisionFree env (seen ++ [received]))
    (statusSound : received.isVerified = true → received.vote.ValidlySigned env verifier)
    (keeps : pending.KeepsSignature env verifier received) :
    let called := pending.insertVote env verifier received
    Counting env verifier (seen ++ [received]) (returned ++ [called.1]) none called.2.1 := by
  intro called
  simp only [called, insertVote]
  cases refused : pending.alreadyVoted received.vote (received.digest env) with
  | some =>
    obtain ⟨⟨vote, digest⟩, votedBefore⟩ := votedBefore_of_refused refused
    apply (counting.refuses votedBefore).returns
    intro qc isQc
    cases isQc
    rcases alreadyVoted_result refused with isDuplicate | isEquivocation
    · cases isDuplicate
    · cases isEquivocation
  | none =>
    have records := counting.records refused keeps
    cases isKnown : (verifier.getVotingPower received.author).isNone with
    | true =>
      simp only [if_true]
      exact (records.unknown isKnown).returns (by simp)
    | false =>
      simp only [Bool.false_eq_true, if_false]
      have isStored : (pending.record received (received.digest env)).authorToVote.get?
          received.author = some (received.vote, received.digest env) := by
        rw [record, get?_insert, if_pos rfl]
      have found : (pending.record received (received.digest env)).liDigestToVotes.get?
          (received.digest env) = some (pending.statusOf received (received.digest env)) := by
        rw [record_status, if_pos rfl]
      exact records.counts distinct fits law aggregates collisionFree isStored
        statusSound isKnown found

end Invariant

end PendingVotes

end LumioNode
