import LumioNode.Consensus.PendingVotes

/-! # Quorum certificates built from pending votes

Every certificate verifies, and without one the valid signatures do not reach a quorum. -/

namespace LumioNode

open Library List

/-- Exactly the non-empty lists of signatures are aggregated. -/
def Bls.AggregatesNonempty {M : Type} (bls : Bls M) : Prop :=
  ∀ signatures, (bls.aggregate signatures).isSome ↔ signatures ≠ []

theorem isOk_eq_true_iff {ε : Type} {outcome : Except ε Unit} :
    outcome.isOk = true ↔ outcome = .ok () := by
  cases outcome with
  | error | ok => simp [Except.isOk, Except.toBool]

namespace ValidatorVerifier

variable {M : Type} {bls : Bls M} {verifier : ValidatorVerifier}

variable {signatures : List (AccountAddress × Signature)}

theorem collectSignatures_of_known (masks : ValidatorBitVec)
    (known : ∀ entry ∈ signatures, (verifier.getVotingPower entry.1).isSome) :
    ∃ allMasks, verifier.collectSignatures masks signatures =
      .ok (allMasks, signatures.map Prod.snd) := by
  induction signatures generalizing masks with
  | nil => exact ⟨masks, rfl⟩
  | cons entry rest inductionHypothesis =>
    have isKnown := known entry (mem_cons_self ..)
    rw [getVotingPower, Option.isSome_map] at isKnown
    obtain ⟨info, found⟩ := Option.isSome_iff_exists.mp isKnown
    obtain ⟨index, isIndex, _⟩ := Option.bind_eq_some_iff.mp found
    obtain ⟨allMasks, collected⟩ :=
      inductionHypothesis (masks.set (asU16 index)) (forall_mem_cons.mp known).2
    refine ⟨allMasks, ?_⟩
    rw [collectSignatures, isIndex]
    simp only [collected]
    rfl

theorem aggregateSignatures_nonempty (aggregates : bls.AggregatesNonempty)
    {signature : AggregateSignature}
    (aggregated : verifier.aggregateSignatures bls signatures = .ok signature) :
    signatures ≠ [] := by
  intro isEmpty
  subst isEmpty
  have noAggregate : bls.aggregate [] = none := by
    rw [← Option.not_isSome_iff_eq_none, aggregates []]
    simp
  unfold aggregateSignatures collectSignatures at aggregated
  simp [bind, Except.bind, noAggregate] at aggregated

theorem aggregateSignatures_of_known (aggregates : bls.AggregatesNonempty)
    (nonempty : signatures ≠ [])
    (known : ∀ entry ∈ signatures, (verifier.getVotingPower entry.1).isSome) :
    ∃ signature, verifier.aggregateSignatures bls signatures = .ok signature := by
  obtain ⟨allMasks, collected⟩ := collectSignatures_of_known
    (ValidatorBitVec.withNumBits (asU16 verifier.len)) known
  have someSignature : signatures.map Prod.snd ≠ [] := by simpa using nonempty
  obtain ⟨aggregated, isAggregated⟩ := Option.isSome_iff_exists.mp
    ((aggregates (signatures.map Prod.snd)).mpr someSignature)
  refine ⟨⟨allMasks, some aggregated⟩, ?_⟩
  unfold aggregateSignatures
  rw [collected]
  simp only [bind, Except.bind, isAggregated]

end ValidatorVerifier

open ValidatorVerifier

namespace SignatureAggregator

variable {M : Type} {bls : Bls M} {verifier : ValidatorVerifier}

def accepts (bls : Bls M) (verifier : ValidatorVerifier) (aggregator : SignatureAggregator M)
    (entry : AccountAddress × SignatureWithStatus) : Bool :=
  (verifier.verify bls entry.1 aggregator.data entry.2.signature).isOk

def validVoters (bls : Bls M) (verifier : ValidatorVerifier)
    (aggregator : SignatureAggregator M) : List AccountAddress :=
  (aggregator.signatures.entries.filter (aggregator.accepts bls verifier)).map Prod.fst

/-- Authors are validators, and a signature marked as verified is valid. -/
structure Sound (bls : Bls M) (verifier : ValidatorVerifier)
    (aggregator : SignatureAggregator M) : Prop where
  known : ∀ entry ∈ aggregator.signatures.entries, (verifier.getVotingPower entry.1).isSome
  verified : ∀ entry ∈ aggregator.signatures.entries,
    entry.2.isVerified = true → aggregator.accepts bls verifier entry = true

/-- The valid signatures do not reach a quorum. -/
def Short (bls : Bls M) (verifier : ValidatorVerifier)
    (aggregator : SignatureAggregator M) : Prop :=
  aggregator.validVoters bls verifier ≠ [] →
    ((aggregator.validVoters bls verifier).map verifier.power).sum < verifier.quorumVotingPower

variable {aggregator : SignatureAggregator M}

theorem authors_eq : aggregator.allSignatures.map Prod.fst = aggregator.allVoters := by
  rw [allSignatures, map_map]
  rfl

theorem Sound.known_voters (sound : aggregator.Sound bls verifier) :
    ∀ author ∈ aggregator.allVoters, (verifier.getVotingPower author).isSome :=
  forall_mem_map.mpr sound.known

theorem allSignatures_nodup : (aggregator.allSignatures.map Prod.fst).Nodup := by
  rw [authors_eq]
  exact aggregator.signatures.keys_nodup

def filtered (bls : Bls M) (verifier : ValidatorVerifier)
    (aggregator : SignatureAggregator M) : SignatureAggregator M :=
  (aggregator.filterInvalidSignatures bls verifier).1

section

variable (sound : aggregator.Sound bls verifier)

include sound

theorem Sound.filtered_entries :
    (aggregator.filtered bls verifier).signatures.entries = (aggregator.signatures.entries.filter
        (aggregator.accepts bls verifier)).map fun entry => (entry.1, entry.2.setVerified) := by
  have keepsEq : ∀ entry ∈ aggregator.signatures.entries,
      verifier.keepsSignature bls aggregator.data entry.1 entry.2 =
        aggregator.accepts bls verifier entry := by
    intro entry member
    unfold keepsSignature
    cases isVerified : entry.2.isVerified with
    | false => simp [accepts]
    | true => simp [sound.verified entry member isVerified]
  simp only [filtered, filterInvalidSignatures,
    ValidatorVerifier.filterInvalidSignatures, SortedMap.filterMap]
  rw [← filterMap_eq_map, ← filterMap_eq_filter, filterMap_filterMap]
  apply filterMap_congr
  intro entry member
  rw [keepsEq entry member]
  cases accepted : aggregator.accepts bls verifier entry with
  | false | true => simp [Option.guard, accepted]

/-- A signature that is kept was there before, and is valid. -/
theorem Sound.mem_filtered {entry : AccountAddress × SignatureWithStatus} :
    entry ∈ (aggregator.filtered bls verifier).signatures.entries ↔
      ∃ original ∈ aggregator.signatures.entries, aggregator.accepts bls verifier original = true ∧
          entry = (original.1, original.2.setVerified) := by
  rw [sound.filtered_entries, mem_map]
  constructor
  · intro ⟨original, member, entryEq⟩
    obtain ⟨isEntry, accepted⟩ := mem_filter.mp member
    exact ⟨original, isEntry, accepted, entryEq.symm⟩
  · intro ⟨original, isEntry, accepted, entryEq⟩
    exact ⟨original, mem_filter.mpr ⟨isEntry, accepted⟩, entryEq.symm⟩

theorem Sound.filtered_accepts : ∀ entry ∈ (aggregator.filtered bls verifier).signatures.entries,
    (aggregator.filtered bls verifier).accepts bls verifier entry =
      true := by
  intro entry member
  obtain ⟨original, _, accepted, rfl⟩ := sound.mem_filtered.mp member
  exact accepted

theorem Sound.filtered_sound : (aggregator.filtered bls verifier).Sound bls verifier where
  known := by
    intro entry member
    obtain ⟨original, isEntry, _, rfl⟩ := sound.mem_filtered.mp member
    exact sound.known original isEntry
  verified := by
    intro entry member _
    exact sound.filtered_accepts entry member

end

theorem validVoters_of_accepts (accepted : ∀ entry ∈ aggregator.signatures.entries,
      aggregator.accepts bls verifier entry = true) :
    aggregator.validVoters bls verifier = aggregator.allVoters := by
  rw [validVoters, filter_eq_self.mpr accepted]
  rfl

variable {signature : AggregateSignature}

theorem verifyMultiSignatures_of_accepts (distinct : verifier.Distinct) (fits : verifier.Fits)
    (law : bls.AggregateSound)
    (accepted : ∀ entry ∈ aggregator.signatures.entries, aggregator.accepts bls verifier entry =
      true) (nonempty : aggregator.signatures.entries ≠ []) {sum : Nat}
    (checked : aggregator.checkVotingPower verifier true = .ok sum)
    (aggregated : verifier.aggregateSignatures bls aggregator.allSignatures = .ok signature) :
    verifier.verifyMultiSignatures bls aggregator.data signature = .ok () := by
  obtain ⟨signers, multiSig, aggregates, sigEq, multiSigEq⟩ :=
    aggregateSignatures_eq_ok distinct fits allSignatures_nodup aggregated
  let signatureOf (author : AccountAddress) : Signature := ((aggregator.signatures.get? author).map
      SignatureWithStatus.signature).getD []
  have authorsPerm := aggregates.authors
  rw [authors_eq] at authorsPerm
  have isOf : ∀ entry ∈ aggregator.signatures.entries,
      entry.2.signature = signatureOf entry.1 := by
    intro entry member
    simp [signatureOf, SortedMap.get?_eq_some_iff.mpr member]
  have valid : ∀ signer ∈ signers, bls.verify signer.publicKey aggregator.data
      (signatureOf signer.address) = true := by
    intro signer member
    have isVoter : signer.address ∈ aggregator.allVoters :=
      authorsPerm.mem_iff.mp (mem_map_of_mem member)
    obtain ⟨entry, isEntry, addressEq⟩ := mem_map.mp isVoter
    have verified := isOk_eq_true_iff.mp (accepted entry isEntry)
    rw [isOf entry isEntry, addressEq] at verified
    exact verify_publicKey distinct (mem_infos aggregates.signersEq member) verified
  have someSigner : signers ≠ [] := by
    intro isEmpty
    rw [isEmpty] at authorsPerm
    have noVoter : aggregator.allVoters = [] := authorsPerm.symm.eq_nil
    exact nonempty (map_eq_nil_iff.mp noVoter)
  obtain ⟨key, keyEq, verified⟩ := law.multi aggregator.data (signers.map fun signer =>
      (signer.publicKey, signatureOf signer.address))
    (aggregator.allSignatures.map Prod.snd) multiSig
    (by simpa using someSigner)
    (by
      intro entry member
      obtain ⟨signer, signerMember, rfl⟩ := mem_map.mp member
      exact valid signer signerMember)
    (by
      rw [map_map]
      exact aggregates.signatures_perm (forall_mem_map.mpr isOf))
    multiSigEq
  rw [map_map] at keyEq
  have authorsChecked : verifier.checkVotingPower
      (aggregator.allSignatures.map Prod.fst) true = .ok sum := by
    rw [authors_eq]
    exact checked
  have keysEq : bls.aggregateKeys (signers.map ValidatorConsensusInfo.publicKey) = some key := keyEq
  unfold verifyMultiSignatures
  rw [aggregates.quorumSigners authorsChecked, sigEq]
  simp only [bind, Except.bind, keysEq, verified, if_true]

theorem mem_authors (distinct : verifier.Distinct) (fits : verifier.Fits)
    (aggregated : verifier.aggregateSignatures bls aggregator.allSignatures = .ok signature)
    {author : AccountAddress} :
    author ∈ verifier.aggregateSignatureAuthors signature ↔ author ∈ aggregator.allVoters := by
  obtain ⟨signers, multiSig, aggregates, _, _⟩ :=
    aggregateSignatures_eq_ok distinct fits allSignatures_nodup aggregated
  rw [authors_of_signersOf aggregates.signersEq, aggregates.authors.mem_iff, authors_eq]

section

variable (sound : aggregator.Sound bls verifier) (aggregates : bls.AggregatesNonempty)
  (nonempty : aggregator.signatures.entries ≠ [])

include sound aggregates nonempty

theorem Sound.aggregated :
    ∃ signature, verifier.aggregateSignatures bls aggregator.allSignatures = .ok signature := by
  have someSignature : aggregator.allSignatures ≠ [] := by simpa [allSignatures] using nonempty
  exact aggregateSignatures_of_known aggregates someSignature (forall_mem_map.mpr sound.known)

/-- Aggregation fails only for lack of voting power. -/
theorem Sound.tryAggregate_eq_error {failure : VerifyError}
    (failed : aggregator.tryAggregate bls verifier = .error failure) :
    (aggregator.allVoters.map verifier.power).sum <
      verifier.quorumVotingPower := by
  have checkedEq := checkVotingPower_of_known sound.known_voters
  by_contra enough
  rw [if_neg enough] at checkedEq
  obtain ⟨signature, aggregated⟩ := sound.aggregated aggregates nonempty
  unfold tryAggregate checkVotingPower at failed
  rw [checkedEq, aggregated] at failed
  cases failed

end

/-- After the quorum check: an aggregate that verifies, or valid signatures without a quorum. -/
theorem Sound.aggregateAndVerify_cases (distinct : verifier.Distinct) (fits : verifier.Fits)
    (law : bls.AggregateSound) (aggregates : bls.AggregatesNonempty)
    (sound : aggregator.Sound bls verifier) (nonempty : aggregator.signatures.entries ≠ [])
    {sum : Nat} (checked : aggregator.checkVotingPower verifier true = .ok sum) :
    (∃ signature, (aggregator.aggregateAndVerify bls verifier).1 =
            .ok (aggregator.data, signature) ∧
          verifier.verifyMultiSignatures bls aggregator.data signature = .ok () ∧
          ∀ author ∈ verifier.aggregateSignatureAuthors signature, author ∈ aggregator.allVoters) ∨
      ∃ failure, (aggregator.aggregateAndVerify bls verifier).1 = .error failure ∧
          (aggregator.aggregateAndVerify bls verifier).2.1 = aggregator.filtered bls verifier ∧
          (aggregator.filtered bls verifier).Short bls verifier := by
  obtain ⟨signature, aggregated⟩ := sound.aggregated aggregates nonempty
  have tried : aggregator.tryAggregate bls verifier = .ok signature := by
    unfold tryAggregate
    rw [checked]
    exact aggregated
  unfold aggregateAndVerify
  rw [tried]
  cases verified : verifier.verifyMultiSignatures bls aggregator.data signature with
  | ok =>
    left
    refine ⟨signature, by simp [verified], verified, ?_⟩
    intro author member
    exact (mem_authors distinct fits aggregated).mp member
  | error =>
    simp only [verified]
    have sameFiltered : (aggregator.filterInvalidSignatures bls
        verifier).1 = aggregator.filtered bls verifier := rfl
    rw [sameFiltered]
    have valid := validVoters_of_accepts sound.filtered_accepts
    cases again : (aggregator.filtered bls verifier).tryAggregate bls verifier with
    | error failure =>
      right
      refine ⟨failure, rfl, rfl, ?_⟩
      intro someValid
      rw [valid] at someValid ⊢
      apply sound.filtered_sound.tryAggregate_eq_error aggregates ?_ again
      intro isEmpty
      exact someValid (by rw [allVoters, SortedMap.keys, isEmpty]; rfl)
    | ok filteredSignature =>
      left
      obtain ⟨filteredSum, filteredChecked, filteredAggregated⟩ := of_bind again
      have someEntry : (aggregator.filtered bls verifier).signatures.entries ≠ [] := by
        have someSignature := aggregateSignatures_nonempty aggregates filteredAggregated
        simpa [allSignatures] using someSignature
      have accepted := verifyMultiSignatures_of_accepts distinct fits law
        sound.filtered_accepts someEntry filteredChecked
        filteredAggregated
      refine ⟨filteredSignature, rfl, accepted, ?_⟩
      intro author member
      have isVoter := (mem_authors distinct fits filteredAggregated).mp member
      obtain ⟨entry, isEntry, rfl⟩ := mem_map.mp isVoter
      obtain ⟨original, isOriginal, _, rfl⟩ := sound.mem_filtered.mp isEntry
      exact mem_map.mpr ⟨original, isOriginal, rfl⟩

end SignatureAggregator

end LumioNode
