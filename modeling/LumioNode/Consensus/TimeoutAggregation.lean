import LumioNode.Consensus.PendingVotes

/-! # Timeout certificates built from pending timeouts

The certificate carries the highest timeout, the signatures keep the first of each
author.  It is accepted while no author sends a second one above the carried round. -/

namespace LumioNode

open Library TwoChainTimeoutWithPartialSignatures SortedMap List
open ValidatorVerifier hiding new aggregateSignatures

namespace ValidatorVerifier

variable {verifier : ValidatorVerifier} {signature : AggregateSignature}

/-- The addresses at the set positions; those past `u16::MAX` are taken for small ones. -/
theorem getSignersAddresses_eq {bound : Nat} (inSet : bound ≤ verifier.len) (small : bound ≤ 2 ^ 16)
    (inside : ∀ position, signature.validatorBitmask.isSet position = true → position < bound) :
    ∃ rest, signature.getSignersAddresses verifier.getOrderedAccountAddresses =
        verifier.aggregateSignatureAuthors signature ++ rest ∧
      (bound = verifier.len → rest = []) := by
  have lengthEq : verifier.getOrderedAccountAddresses.length = bound + (verifier.len - bound) := by
    rw [getOrderedAccountAddresses, length_map, Nat.add_sub_cancel' inSet, len]
  have onesEq : (List.range bound).filter
        (fun index => signature.validatorBitmask.isSet (asU16 index)) =
      signature.validatorBitmask.iterOnes := by
    rw [← filter_isSet_range inside]
    apply filter_congr
    intro index isIndex
    have below := mem_range.mp isIndex
    rw [asU16, Nat.mod_eq_of_lt (by omega)]
  have listed := filterMap_zipIdx verifier.getOrderedAccountAddresses
    fun index => signature.validatorBitmask.isSet (asU16 index)
  rw [lengthEq, range_add, filter_append, filterMap_append, onesEq] at listed
  have authorsEq : verifier.aggregateSignatureAuthors signature =
      signature.validatorBitmask.iterOnes.filterMap
        fun index => verifier.getOrderedAccountAddresses[index]? := by
    simp only [getOrderedAccountAddresses, List.getElem?_map]
    rfl
  rw [authorsEq]
  refine ⟨_, listed, ?_⟩
  rintro rfl
  simp

theorem Aggregates.getSignersAddresses (fits : verifier.Fits)
    {signatures : List (AccountAddress × Signature)} {signers : List ValidatorConsensusInfo}
    (aggregates : verifier.Aggregates signatures signature signers) :
    signature.getSignersAddresses verifier.getOrderedAccountAddresses =
      signers.map ValidatorConsensusInfo.address := by
  have inside (position : Nat) (isOne : signature.validatorBitmask.isSet position = true) :
      position < verifier.len := by
    obtain ⟨_, _, found⟩ := (aggregates.isSet position).mp isOne
    exact index_lt found
  obtain ⟨rest, addressesEq, noRest⟩ := getSignersAddresses_eq le_rfl (Nat.le_of_lt fits) inside
  rw [addressesEq, noRest rfl, append_nil]
  exact authors_of_signersOf aggregates.signersEq

end ValidatorVerifier

/-! ## Rounds in the order of the validators -/

namespace PartialSignaturesWithRound

variable {verifier : ValidatorVerifier}

variable (signatures : PartialSignaturesWithRound)

def roundOf (author : AccountAddress) : Nat :=
  ((signatures.get? author).map Prod.fst).getD 0

def signatureOf (author : AccountAddress) : Signature :=
  ((signatures.get? author).map Prod.snd).getD []

/-- The signatures by author, as `aggregate_signatures` takes them. -/
def byAuthor : List (AccountAddress × Signature) :=
  signatures.entries.map fun entry => (entry.1, entry.2.2)

theorem authors_eq :
    signatures.byAuthor.map Prod.fst = signatures.keys := by
  rw [byAuthor, map_map]
  rfl

theorem of_mem {signatures : PartialSignaturesWithRound} {author : AccountAddress} {round : Nat}
    {signature : Signature} (member : (author, round, signature) ∈ signatures.entries) :
    roundOf signatures author = round ∧ signatureOf signatures author = signature := by
  have found := get?_eq_some_iff.mpr member
  simp [roundOf, signatureOf, found]

def Known (verifier : ValidatorVerifier) (signatures : PartialSignaturesWithRound) : Prop :=
  ∀ author ∈ signatures.keys, ∃ index, verifier.addressToValidatorIndex author = some index

def indexOf (verifier : ValidatorVerifier) (author : AccountAddress) : Nat :=
  (verifier.addressToValidatorIndex author).getD 0

variable {signatures : PartialSignaturesWithRound} (known : Known verifier signatures)

include known

theorem Known.indexOf_eq {author : AccountAddress} (member : author ∈ signatures.keys) :
    verifier.addressToValidatorIndex author = some (indexOf verifier author) := by
  obtain ⟨index, found⟩ := known author member
  simp [indexOf, found]

theorem Known.indices_nodup : (signatures.keys.map (indexOf verifier)).Nodup := by
  apply signatures.keys_nodup.map_on
  intro first firstMember second secondMember sameIndex
  have firstAt := address_of_index (known.indexOf_eq firstMember)
  have secondAt := address_of_index (known.indexOf_eq secondMember)
  rw [sameIndex, secondAt] at firstAt
  exact (Option.some.inj firstAt).symm

def roundsByIndex (verifier : ValidatorVerifier)
    (signatures : PartialSignaturesWithRound) : SortedMap Nat Nat :=
  (signatures.entries.map fun entry =>
      (indexOf verifier entry.1, entry.2.1)).foldl
    (fun rounds entry => rounds.insert entry.1 entry.2) empty

theorem Known.getPartialSigWithRounds_eq :
    getPartialSigWithRounds signatures verifier.addressToValidatorIndex = (signatures.byAuthor,
        (roundsByIndex verifier signatures).entries.map Prod.snd) := by
  rw [getPartialSigWithRounds, (filterMap_eq_map_iff_forall_eq_some (g := fun entry =>
    (entry.1, indexOf verifier entry.1, entry.2.1, entry.2.2))).mpr]
  · simp only [roundsByIndex, map_map, foldl_map]
    rfl
  · intro entry member
    have found := known.indexOf_eq (mem_map.mpr ⟨entry, member, rfl⟩)
    simp only [found, Option.map_some]

theorem Known.mem_roundsByIndex {index round : Nat} :
    (index, round) ∈ (roundsByIndex verifier signatures).entries ↔ ∃ author signature,
        (author, round, signature) ∈ signatures.entries ∧ indexOf verifier author = index := by
  have nodup : ((signatures.entries.map fun entry =>
      (indexOf verifier entry.1, entry.2.1)).map Prod.fst).Nodup := by
    have indices := known.indices_nodup
    rw [SortedMap.keys, map_map] at indices
    rw [map_map]
    exact indices
  rw [roundsByIndex, mem_foldl_insert nodup, mem_map]
  constructor
  · intro found
    rcases found with ⟨entry, member, same⟩ | ⟨member, _⟩
    · cases same
      exact ⟨entry.1, entry.2.2, member, rfl⟩
    · cases member
  · rintro ⟨author, signature, member, indexEq⟩
    exact .inl ⟨_, member, by rw [indexEq]⟩

/-- The rounds stand in the order of the signers. -/
theorem Known.rounds_eq {signature : AggregateSignature} {signers : List ValidatorConsensusInfo}
    (aggregates : verifier.Aggregates signatures.byAuthor signature signers) :
    (roundsByIndex verifier signatures).entries.map Prod.snd =
      signers.map fun signer => roundOf signatures signer.address := by
  let roundAt (info : Option ValidatorConsensusInfo) : Nat :=
    (info.map fun signer => roundOf signatures signer.address).getD 0
  have keysEq : (roundsByIndex verifier signatures).keys =
      signature.validatorBitmask.iterOnes := by
    apply eq_of_increasing
    · exact (roundsByIndex verifier signatures).keys_sorted
    · exact signature.validatorBitmask.iterOnes_sorted
    · intro position
      rw [ValidatorBitVec.mem_iterOnes, aggregates.isSet, SortedMap.keys, mem_map]
      constructor
      · rintro ⟨entry, member, positionEq⟩
        obtain ⟨author, sig, authorMember, indexEq⟩ := known.mem_roundsByIndex.mp member
        have isKey : author ∈ signatures.keys := mem_map.mpr ⟨_, authorMember, rfl⟩
        refine ⟨(author, sig), mem_map.mpr ⟨_, authorMember, rfl⟩, ?_⟩
        rw [known.indexOf_eq isKey, indexEq, positionEq]
      · rintro ⟨entry, member, found⟩
        obtain ⟨original, originalMember, rfl⟩ := mem_map.mp member
        refine ⟨(position, original.2.1), ?_, rfl⟩
        apply known.mem_roundsByIndex.mpr
        refine ⟨original.1, original.2.2, originalMember, ?_⟩
        simp only [indexOf]
        rw [found, Option.getD_some]
  have valuesEq : (roundsByIndex verifier signatures).entries.map Prod.snd =
      (roundsByIndex verifier signatures).keys.map fun index =>
        roundAt verifier.validatorInfos[index]? := by
    rw [SortedMap.keys, map_map]
    apply map_congr_left
    intro entry member
    obtain ⟨author, sig, authorMember, indexEq⟩ := known.mem_roundsByIndex.mp member
    have isKey : author ∈ signatures.keys := mem_map.mpr ⟨_, authorMember, rfl⟩
    have isAt := address_of_index (known.indexOf_eq isKey)
    rw [indexEq] at isAt
    obtain ⟨info, infoAt, addressEq⟩ := Option.map_eq_some_iff.mp isAt
    simp only [Function.comp_apply, roundAt]
    rw [infoAt, Option.map_some, Option.getD_some, addressEq]
    exact (of_mem authorMember).1.symm
  have infosEq := signersOf_eq_ok aggregates.signersEq
  have mapped := congrArg (List.map roundAt) infosEq
  rw [map_map, map_map] at mapped
  rw [valuesEq, keysEq]
  exact mapped

end PartialSignaturesWithRound

open PartialSignaturesWithRound

/-! ## The collected timeouts -/

/-- The carried timeout was accepted, every signature is valid, and the carried round is the
highest signed one. -/
structure Collected (env : VotingEnv) (verifier : ValidatorVerifier) (epoch round : Nat)
    (collected : TwoChainTimeoutWithPartialSignatures) : Prop where
  epochEq : collected.timeout.epoch = epoch
  roundEq : collected.timeout.round = round
  accepted : collected.timeout.verify env.blsLedgerInfo env.voteDataHash verifier = .ok ()
  signed : ∀ entry ∈ collected.signatures.entries,
    verifier.verify env.blsTimeout entry.1 ⟨epoch, round, entry.2.1⟩ entry.2.2 = .ok () ∧
      entry.2.1 ≤ collected.timeout.hqcRound
  highest : ∃ entry ∈ collected.signatures.entries, entry.2.1 = collected.timeout.hqcRound

/-- A timeout of the round that passes its own verification. -/
structure TwoChainTimeout.Signed (env : VotingEnv) (verifier : ValidatorVerifier)
    (epoch round : Nat) (timeout : TwoChainTimeout) (author : Author) (signature : Signature) :
    Prop where
  epochEq : timeout.epoch = epoch
  roundEq : timeout.round = round
  verified : timeout.verifySigned env author signature verifier = .ok ()

section Collecting

variable {env : VotingEnv} {verifier : ValidatorVerifier} {epoch round : Nat}
  {timeout : TwoChainTimeout} {author : Author} {signature : Signature}

theorem TwoChainTimeout.Signed.accepted
    (signed : timeout.Signed env verifier epoch round author signature) :
    timeout.verify env.blsLedgerInfo env.voteDataHash verifier = .ok () ∧
      verifier.verify env.blsTimeout author ⟨epoch, round, timeout.hqcRound⟩
        signature = .ok () := by
  have verified := signed.verified
  unfold TwoChainTimeout.verifySigned at verified
  simp only [bind_eq_ok, mapError_eq_ok] at verified
  obtain ⟨_, timeoutOk, signatureOk⟩ := verified
  rw [TwoChainTimeout.signingFormat, signed.epochEq, signed.roundEq] at signatureOk
  exact ⟨timeoutOk, signatureOk⟩

theorem mem_addSignature {signatures : PartialSignaturesWithRound} {round : Nat}
    (isNew : author ∉ signatures.keys) {entry : AccountAddress × Nat × Signature} :
    entry ∈ (addSignature signatures author round signature).entries ↔
      entry = (author, round, signature) ∨ entry ∈ signatures.entries := by
  have absent := get?_eq_none_iff.mpr isNew
  rw [addSignature, orInsert, absent]
  simp only [SortedMap.insert]
  rw [SortedMap.mem_insertEntry signatures.sorted]
  constructor
  · intro member
    exact member.imp_right And.left
  · intro member
    refine member.imp_right fun inEntries => ⟨inEntries, ?_⟩
    intro keyEq
    exact isNew (mem_map.mpr ⟨entry, inEntries, keyEq⟩)

theorem collected_first (signed : timeout.Signed env verifier epoch round author signature) :
    Collected env verifier epoch round ((new timeout).add author timeout signature) := by
  obtain ⟨timeoutOk, signatureOk⟩ := signed.accepted
  have onlyEntry : ((new timeout).add author timeout
        signature).signatures.entries = [(author, timeout.hqcRound, signature)] := rfl
  have sameTimeout : ((new timeout).add author timeout signature).timeout = timeout := by
    simp [TwoChainTimeoutWithPartialSignatures.add, new]
  refine ⟨?_, ?_, ?_, ?_, ?_⟩ <;> rw [sameTimeout]
  · exact signed.epochEq
  · exact signed.roundEq
  · exact timeoutOk
  · intro entry member
    rw [onlyEntry, mem_singleton] at member
    subst member
    exact ⟨signatureOk, le_rfl⟩
  · rw [onlyEntry]
    exact ⟨_, mem_singleton_self _, rfl⟩

variable {collected : TwoChainTimeoutWithPartialSignatures}
  (invariant : Collected env verifier epoch round collected) {tc : TwoChainTimeoutCertificate}

include invariant

theorem Collected.add (signed : timeout.Signed env verifier epoch round author signature)
    (inStep : author ∈ collected.signers → timeout.hqcRound ≤ collected.timeout.hqcRound) :
    Collected env verifier epoch round (collected.add author timeout signature) := by
  obtain ⟨timeoutOk, signatureOk⟩ := signed.accepted
  by_cases isAgain : author ∈ collected.signers
  · have notHigher := inStep isAgain
    have unchanged : collected.add author timeout signature = collected := by
      obtain ⟨value, found⟩ := Option.ne_none_iff_exists'.mp
        fun absent => get?_eq_none_iff.mp absent isAgain
      unfold TwoChainTimeoutWithPartialSignatures.add
      rw [if_neg (Nat.not_lt_of_le notHigher), addSignature, orInsert, found]
    rw [unchanged]
    exact invariant
  · have mem_iff : ∀ entry, entry ∈ (collected.add author timeout signature).signatures.entries ↔
        entry = (author, timeout.hqcRound, signature) ∨ entry ∈ collected.signatures.entries :=
      fun _ => mem_addSignature isAgain
    have carried {next : TwoChainTimeout}
        (isNext : (collected.add author timeout signature).timeout = next)
        (epochEq : next.epoch = epoch) (roundEq : next.round = round)
        (accepted : next.verify env.blsLedgerInfo env.voteDataHash verifier = .ok ())
        (atLeast : timeout.hqcRound ≤ next.hqcRound ∧ collected.timeout.hqcRound ≤ next.hqcRound)
        (either : timeout = next ∨ collected.timeout = next) :
        Collected env verifier epoch round (collected.add author timeout signature) := by
      subst isNext
      refine ⟨epochEq, roundEq, accepted, ?_, ?_⟩
      · intro entry member
        rcases (mem_iff entry).mp member with rfl | isOld
        · exact ⟨signatureOk, atLeast.1⟩
        · obtain ⟨valid, notAbove⟩ := invariant.signed entry isOld
          exact ⟨valid, notAbove.trans atLeast.2⟩
      · rcases either with isNew | isOld
        · exact ⟨_, (mem_iff _).mpr (.inl rfl), congrArg TwoChainTimeout.hqcRound isNew⟩
        · obtain ⟨entry, member, isHighest⟩ := invariant.highest
          exact ⟨entry, (mem_iff entry).mpr (.inr member),
            isHighest.trans (congrArg TwoChainTimeout.hqcRound isOld)⟩
    by_cases higher : timeout.hqcRound > collected.timeout.hqcRound
    · exact carried (if_pos higher) signed.epochEq signed.roundEq timeoutOk
        ⟨le_rfl, Nat.le_of_lt higher⟩ (.inl rfl)
    · exact carried (if_neg higher) invariant.epochEq invariant.roundEq invariant.accepted
        ⟨Nat.le_of_not_lt higher, le_rfl⟩ (.inr rfl)

theorem Collected.known : PartialSignaturesWithRound.Known verifier collected.signatures := by
  intro author member
  obtain ⟨entry, entryMember, rfl⟩ := mem_map.mp member
  obtain ⟨info, found, _⟩ := verify_eq_ok.mp
    (invariant.signed entry entryMember).1
  obtain ⟨index, isIndex, _⟩ := Option.bind_eq_some_iff.mp found
  exact ⟨index, isIndex⟩

theorem Collected.signer_valid (distinct : verifier.Distinct) {signer : ValidatorConsensusInfo}
    (isValidator : signer ∈ verifier.validatorInfos)
    (isAuthor : signer.address ∈ collected.signatures.keys) : env.blsTimeout.verify signer.publicKey
        ⟨epoch, round, collected.signatures.roundOf signer.address⟩
        (collected.signatures.signatureOf signer.address) = true ∧
      collected.signatures.roundOf signer.address ≤
        collected.timeout.hqcRound := by
  obtain ⟨⟨author, signedRound, signature⟩, member, addressEq⟩ := mem_map.mp isAuthor
  simp only at addressEq
  subst addressEq
  obtain ⟨roundEq, signatureEq⟩ := of_mem member
  obtain ⟨valid, notAbove⟩ := invariant.signed _ member
  rw [roundEq, signatureEq]
  exact ⟨verify_publicKey distinct isValidator valid, notAbove⟩

/-- The certificate that is built: the carried timeout and the signers' rounds. -/
theorem Collected.aggregates (distinct : verifier.Distinct) (fits : verifier.Fits)
    (aggregated : collected.aggregateSignatures env.blsTimeout verifier = some (.ok tc)) :
    ∃ signers multiSig, verifier.Aggregates collected.signatures.byAuthor
          tc.signaturesWithRounds.sig signers ∧
        tc.signaturesWithRounds.sig.sig = some multiSig ∧
        env.blsTimeout.aggregate (collected.signatures.byAuthor.map Prod.snd) = some multiSig ∧
        tc.timeout = collected.timeout ∧
        tc.signaturesWithRounds.rounds = signers.map fun signer =>
          collected.signatures.roundOf signer.address := by
  have known := invariant.known
  unfold aggregateSignatures at aggregated
  rw [known.getPartialSigWithRounds_eq] at aggregated
  cases partialEq : verifier.aggregateSignatures env.blsTimeout collected.signatures.byAuthor with
  | error => simp [partialEq] at aggregated
  | ok =>
    simp only [partialEq] at aggregated
    split at aggregated
    · simp only [Option.some.injEq, Except.ok.injEq] at aggregated
      have nodup := collected.signatures.keys_nodup
      rw [← collected.signatures.authors_eq] at nodup
      obtain ⟨signers, multiSig, aggregates, sigEq, multiSigEq⟩ :=
        aggregateSignatures_eq_ok distinct fits nodup partialEq
      subst aggregated
      exact ⟨signers, multiSig, aggregates, sigEq, multiSigEq, rfl, known.rounds_eq aggregates⟩
    · cases aggregated

theorem Collected.certificate_accepted (distinct : verifier.Distinct) (fits : verifier.Fits)
    (sound : env.blsTimeout.AggregateSound) {sum : Nat}
    (checked : verifier.checkVotingPower collected.signers true = .ok sum)
    (aggregated : collected.aggregateSignatures env.blsTimeout verifier = some (.ok tc)) :
    tc.verify env.blsLedgerInfo env.blsTimeout env.voteDataHash verifier = .ok () ∧
      tc.signaturesWithRounds.rounds.max? = some tc.highestHqcRound := by
  obtain ⟨signers, multiSig, aggregates, sigEq, multiSigEq, timeoutEq,
    roundsEq⟩ := invariant.aggregates distinct fits aggregated
  have authorsPerm := aggregates.authors
  rw [collected.signatures.authors_eq] at authorsPerm
  have isAuthor : ∀ signer ∈ signers, signer.address ∈ collected.signatures.keys := by
    intro signer member
    exact authorsPerm.mem_iff.mp (mem_map_of_mem member)
  have highest : tc.signaturesWithRounds.rounds.max? = some tc.highestHqcRound := by
    rw [roundsEq, TwoChainTimeoutCertificate.highestHqcRound, timeoutEq]
    apply List.max?_eq_some_iff.mpr
    constructor
    · obtain ⟨entry, member, isHighest⟩ := invariant.highest
      have isKey : entry.1 ∈ collected.signers := mem_map.mpr ⟨entry, member, rfl⟩
      obtain ⟨signer, signerMember, addressEq⟩ := mem_map.mp (authorsPerm.mem_iff.mpr isKey)
      refine mem_map.mpr ⟨signer, signerMember, ?_⟩
      rw [addressEq, ← isHighest]
      exact (of_mem member).1
    · intro other member
      obtain ⟨signer, signerMember, rfl⟩ := mem_map.mp member
      exact (invariant.signer_valid distinct
        (mem_infos aggregates.signersEq signerMember)
        (isAuthor signer signerMember)).2
  have messagesEq : tc.timeoutMessages verifier = signers.map fun signer =>
        ⟨epoch, round, collected.signatures.roundOf signer.address⟩ := by
    unfold TwoChainTimeoutCertificate.timeoutMessages
      AggregateSignatureWithRounds.getVotersAndRounds
    rw [aggregates.getSignersAddresses fits, roundsEq, timeoutEq,
      invariant.epochEq, invariant.roundEq, zip_map', map_map]
    rfl
  have signaturesPerm := aggregates.signatures_perm
    (forall_mem_map.mpr fun entry member => (of_mem member).2.symm)
  have nonempty : signers ≠ [] := by
    intro isEmpty
    rw [roundsEq, isEmpty] at highest
    cases highest
  have verified : env.blsTimeout.verifyAggregate multiSig (tc.timeoutMessages verifier)
      (signers.map ValidatorConsensusInfo.publicKey) = true := by
    have law := sound.distinct (signers.map fun signer =>
        (signer.publicKey, (⟨epoch, round, collected.signatures.roundOf signer.address⟩ :
            TimeoutSigningRepr),
          collected.signatures.signatureOf signer.address))
      (collected.signatures.byAuthor.map Prod.snd) multiSig
      (by simpa using nonempty)
      (by
        intro entry member
        obtain ⟨signer, signerMember, rfl⟩ := mem_map.mp member
        exact (invariant.signer_valid distinct
        (mem_infos aggregates.signersEq signerMember)
          (isAuthor signer signerMember)).1)
      (by
        rw [map_map]
        exact signaturesPerm)
      multiSigEq
    rw [map_map, map_map] at law
    rw [messagesEq]
    exact law
  refine ⟨TwoChainTimeoutCertificate.verify_eq_ok.mpr
    ⟨timeoutEq ▸ invariant.accepted, ?_, highest⟩, highest⟩
  have authorsChecked : verifier.checkVotingPower
      (collected.signatures.byAuthor.map Prod.fst) true = .ok sum := by
    rw [collected.signatures.authors_eq]
    exact checked
  unfold ValidatorVerifier.verifyAggregateSignatures
  rw [aggregates.quorumSigners authorsChecked, sigEq]
  simp only [bind, Except.bind, verified, if_true]

end Collecting

namespace PendingVotes

/-! ## Runs of one round -/

section Runs

variable (env : VotingEnv) (verifier : ValidatorVerifier)

def Message.timeout? : Message → Option (Author × TwoChainTimeout × Signature)
  | .roundTimeout expired =>
    some (expired.author, expired.timeout, expired.signature)
  | .vote received =>
    received.vote.twoChainTimeout.map fun (timeout, signature) =>
      (received.author, timeout, signature)

/-- A message of the round that passes its own verification. -/
def Message.Verified (epoch round : Nat) : Message → Prop
  | .roundTimeout expired =>
    expired.timeout.epoch = epoch ∧ expired.timeout.round = round ∧
      expired.verify env verifier = .ok ()
  | .vote received =>
    received.vote.epoch = epoch ∧ received.vote.round = round ∧
      ∃ settings, received.verify env verifier settings = .ok ()

/-- The message brings no second timeout of an author with a higher certificate round. -/
def Message.InStep (pending : PendingVotes) (message : Message) : Prop :=
  ∀ author timeout signature, message.timeout? = some (author, timeout, signature) →
      ∀ votes, pending.maybe2chainTimeoutVotes = some votes →
        author ∈ votes.partial2chainTc.signers →
          timeout.hqcRound ≤ votes.partial2chainTc.timeout.hqcRound

def RunInStep (pending : PendingVotes) : List Message → Prop
  | [] => True
  | message :: rest =>
    message.InStep pending ∧ RunInStep (pending.insert env verifier message).2 rest

variable {env verifier} {epoch round : Nat} {message : Message} {author : Author}
  {timeout : TwoChainTimeout} {signature : Signature} {tc : TwoChainTimeoutCertificate}

theorem Message.Verified.signed (verified : message.Verified env verifier epoch round)
    (carries : message.timeout? = some (author, timeout, signature)) :
    timeout.Signed env verifier epoch round author signature := by
  cases message with
  | roundTimeout =>
    cases carries
    obtain ⟨epochEq, roundEq, accepted⟩ := verified
    exact ⟨epochEq, roundEq, accepted⟩
  | vote =>
    obtain ⟨epochEq, roundEq, settings, accepted⟩ := verified
    obtain ⟨⟨voteTimeout, voteSignature⟩, isTimeout, same⟩ := Option.map_eq_some_iff.mp carries
    cases same
    unfold ReceivedVote.verify ReceivedVote.verifyTimeout at accepted
    simp only [bind_eq_ok, ensure_eq_ok, isTimeout] at accepted
    obtain ⟨_, _, _, _, _, ⟨_, sameRound, signedOk⟩, _⟩ := accepted
    obtain ⟨sameEpoch, sameRound⟩ := Prod.mk.inj sameRound
    exact ⟨sameEpoch.trans epochEq, sameRound.trans roundEq, signedOk⟩

/-- A call does nothing to the timeouts, or adds the one of its message; a timeout certificate
comes from the latter only. -/
inductive AddsTimeout (env : VotingEnv) (verifier : ValidatorVerifier)
    (pending : PendingVotes) (message : Message)
    (result : Option VoteReceptionResult) (after : PendingVotes) : Prop
  | unchanged
      (same : after.maybe2chainTimeoutVotes = pending.maybe2chainTimeoutVotes)
      (noCertificate : ∀ tc, result ≠ some (.new2ChainTimeoutCertificate tc))
  | added {author : Author} {timeout : TwoChainTimeout}
      {signature : Signature} {votes : TwoChainTimeoutVotes}
      (carries : message.timeout? = some (author, timeout, signature))
      (votesEq : pending.timeoutsWith author timeout signature = votes)
      (afterEq : after.maybe2chainTimeoutVotes = some votes)
      (certificate : ∀ tc, result = some (.new2ChainTimeoutCertificate tc) →
          (∃ sum, verifier.checkVotingPower votes.partial2chainTc.signers true = .ok sum) ∧
            votes.partial2chainTc.aggregateSignatures env.blsTimeout verifier = some (.ok tc))

variable {pending : PendingVotes}

/-- Only the timeouts matter. -/
theorem AddsTimeout.of_same {other after : PendingVotes} {result : Option VoteReceptionResult}
    (adds : AddsTimeout env verifier other message result after)
    (sameTimeouts : other.maybe2chainTimeoutVotes = pending.maybe2chainTimeoutVotes) :
    AddsTimeout env verifier pending message result after := by
  cases adds with
  | unchanged same noCertificate =>
    exact .unchanged (same.trans sameTimeouts) noCertificate
  | added carries votesEq afterEq certificate =>
    rw [timeoutsWith, sameTimeouts] at votesEq
    exact .added carries votesEq afterEq certificate

section Adds

variable (env verifier)

theorem addTimeout_adds (pending : PendingVotes)
    (votingPower : Nat → Nat) (carries : message.timeout? = some (author, timeout, signature)) :
    let called := pending.addTimeout env verifier author timeout signature
    AddsTimeout env verifier pending message (called.1.map (finish votingPower)) called.2 := by
  intro called
  refine .added carries rfl addTimeout_frame.1 ?_
  intro tc isTc
  obtain ⟨progress, isProgress, finished⟩ := Option.map_eq_some_iff.mp isTc
  cases progress with
  | goOn => cases finished
  | done =>
    rw [finish] at finished
    subst finished
    exact (addTimeout_result isProgress).2 tc rfl

theorem addVoteTimeout_adds (pending : PendingVotes) (received : ReceivedVote) (votingPower : Nat) :
    let called := pending.addVoteTimeout env verifier received.vote votingPower
    AddsTimeout env verifier pending (.vote received) called.1 called.2 := by
  intro called
  simp only [called, addVoteTimeout]
  split
  · exact .unchanged rfl (by simp)
  · rename_i timeout signature carried
    have carries : (Message.vote received).timeout? =
        some (received.author, timeout, signature) := by
      simp [Message.timeout?, carried]
    exact addTimeout_adds env verifier pending (fun _ => votingPower) carries

theorem countVote_adds (pending : PendingVotes) (received : ReceivedVote) (liDigest : HashValue) :
    let called := pending.countVote env verifier received liDigest
    AddsTimeout env verifier pending (.vote received) called.1 called.2.1 := by
  intro called
  simp only [called, countVote]
  split
  · exact .unchanged rfl (by simp)
  · next isDone =>
    refine .unchanged rfl ?_
    rintro tc ⟨⟩
    exact addVote_result isDone
  · exact (addVoteTimeout_adds env verifier _ received _).of_same rfl

theorem insert_adds (pending : PendingVotes) (message : Message) :
    let called := pending.insert env verifier message
    AddsTimeout env verifier pending message called.1 called.2 := by
  intro called
  cases message with
  | roundTimeout expired =>
    exact addTimeout_adds env verifier pending id rfl
  | vote received =>
    simp only [called, insert, insertVote]
    split
    · rename_i result refused
      refine .unchanged rfl ?_
      intro tc isTc
      cases isTc
      rcases alreadyVoted_result refused with isDuplicate | isEquivocation
      · cases isDuplicate
      · cases isEquivocation
    · split
      · exact .unchanged rfl (by simp)
      · exact (countVote_adds env verifier _ received _).of_same rfl

end Adds

/-- The collected timeouts stay consistent, and returned certificates are accepted. -/
theorem results_accepted (distinct : verifier.Distinct) (fits : verifier.Fits)
    (sound : env.blsTimeout.AggregateSound) (messages : List Message)
    (invariant : ∀ votes, pending.maybe2chainTimeoutVotes = some votes →
      Collected env verifier epoch round votes.partial2chainTc)
    (verified : ∀ message ∈ messages, message.Verified env verifier epoch round)
    (inStep : pending.RunInStep env verifier messages)
    (returned : some (.new2ChainTimeoutCertificate tc) ∈ pending.results env verifier messages) :
    tc.verify env.blsLedgerInfo env.blsTimeout env.voteDataHash verifier = .ok () ∧
      tc.signaturesWithRounds.rounds.max? = some tc.highestHqcRound := by
  induction messages generalizing pending with
  | nil => cases returned
  | cons message rest inductionHypothesis =>
    obtain ⟨messageInStep, restInStep⟩ := inStep
    have restVerified : ∀ other ∈ rest, other.Verified env verifier epoch round :=
      (forall_mem_cons.mp verified).2
    cases insert_adds env verifier pending message with
    | unchanged same noCertificate =>
      rcases mem_cons.mp returned with isFirst | inRest
      · exact absurd isFirst.symm (noCertificate tc)
      · exact inductionHypothesis (same ▸ invariant) restVerified restInStep inRest
    | @added _ _ _ after carries votesEq afterEq certificate =>
      have signed := (verified message (mem_cons_self ..)).signed carries
      have collected : Collected env verifier epoch round after.partial2chainTc := by
        rw [← votesEq, timeoutsWith]
        cases started : pending.maybe2chainTimeoutVotes with
        | none => exact collected_first signed
        | some votes =>
          exact (invariant votes started).add signed (messageInStep _ _ _ carries votes started)
      rcases mem_cons.mp returned with isFirst | inRest
      · obtain ⟨⟨sum, checked⟩, aggregated⟩ := certificate tc isFirst.symm
        exact collected.certificate_accepted distinct fits sound checked aggregated
      · refine inductionHypothesis ?_ restVerified restInStep inRest
        intro votes isVotes
        rw [afterEq] at isVotes
        cases isVotes
        exact collected

/-- In every run of verified messages of one round, each in step, every timeout certificate that
is returned is accepted and carries its highest round. -/
theorem timeout_certificate_accepted (distinct : verifier.Distinct) (fits : verifier.Fits)
    (sound : env.blsTimeout.AggregateSound) (epoch round : Nat) (messages : List Message)
    (verified : ∀ message ∈ messages, message.Verified env verifier epoch round)
    (inStep : PendingVotes.new.RunInStep env verifier messages) (tc : TwoChainTimeoutCertificate)
    (returned : some (.new2ChainTimeoutCertificate tc) ∈ PendingVotes.new.results env verifier
      messages) :
    tc.verify env.blsLedgerInfo env.blsTimeout env.voteDataHash verifier = .ok () ∧
      tc.signaturesWithRounds.rounds.max? = some tc.highestHqcRound := by
  refine results_accepted distinct fits sound messages ?_ verified inStep returned
  nofun

end Runs

/-! ## An author that times out twice

Validator 1 times out with certificates of round 1 and then 3: the second is carried,
but its round is not signed. -/

namespace TimesOutTwice

open FourValidators

def signers : AggregateSignature := ⟨(((ValidatorBitVec.withNumBits 4).set 0).set 1).set 2, some []⟩

def qc (round : Nat) : QuorumCert := ⟨⟨info round, info (round - 1)⟩,
    ⟨⟨info (round - 1), Fin.ofNat _ round⟩, signers⟩⟩

def timeout (author : Author) (hqcRound : Nat) : Message :=
  .roundTimeout ⟨⟨1, 5, qc hqcRound⟩, author, []⟩

def messages : List Message := [timeout 1 1, timeout 1 3, timeout 2 1, timeout 3 1]

theorem verified : ∀ message ∈ messages, message.Verified env verifier 1 5 := by
  intro message member
  simp only [messages, mem_cons, not_mem_nil, or_false] at member
  rcases member with rfl | rfl | rfl | rfl <;> exact ⟨rfl, rfl, rfl⟩

def certificate (rounds : List Nat) : TwoChainTimeoutCertificate :=
  ⟨⟨1, 5, qc 3⟩, ⟨signers, rounds⟩⟩

/-- The same round without the second timeout. -/
def inStepMessages : List Message := [timeout 1 1, timeout 2 3, timeout 3 1]

theorem inStep_verified : ∀ message ∈ inStepMessages, message.Verified env verifier 1 5 := by
  intro message member
  simp only [inStepMessages, mem_cons, not_mem_nil, or_false] at member
  rcases member with rfl | rfl | rfl <;> exact ⟨rfl, rfl, rfl⟩

theorem runInStep : PendingVotes.new.RunInStep env verifier inStepMessages := by
  refine ⟨?_, ?_, ?_, trivial⟩
  · nofun
  · intro author timeout signature carries votes isVotes isSigner
    cases carries
    cases isVotes
    exact absurd isSigner (by decide)
  · intro author timeout signature carries votes isVotes isSigner
    cases carries
    cases isVotes
    exact absurd isSigner (by decide)

end TimesOutTwice

open FourValidators TimesOutTwice

theorem certificate_of_three_timeouts_accepted : (certificate [1, 3, 1]).verify
        env.blsLedgerInfo env.blsTimeout env.voteDataHash verifier = .ok () ∧
    [1, 3, 1].max? = some 3 :=
  timeout_certificate_accepted (by decide) (by decide) (Bls.aggregateSound_ofEmpty _) 1 5
    inStepMessages inStep_verified runInStep (certificate [1, 3, 1]) (by decide)

/-- Validly signed timeouts whose certificate is not accepted. -/
theorem certificate_of_two_timeouts_rejected : ¬ ∀ (env : VotingEnv) (verifier : ValidatorVerifier)
      (epoch round : Nat) (messages : List Message)
      (tc : TwoChainTimeoutCertificate),
    verifier.Distinct → verifier.Fits → env.blsTimeout.AggregateSound → (∀ message ∈ messages,
        message.Verified env verifier epoch round) →
      some (.new2ChainTimeoutCertificate tc) ∈ PendingVotes.new.results env verifier messages →
      tc.verify env.blsLedgerInfo env.blsTimeout env.voteDataHash verifier = .ok () := by
  intro claimed
  have accepted := claimed env verifier 1 5 messages (certificate [1, 1, 1]) (by decide) (by decide)
    (Bls.aggregateSound_ofEmpty _) verified (by decide)
  exact absurd accepted (by decide)

end PendingVotes

end LumioNode
