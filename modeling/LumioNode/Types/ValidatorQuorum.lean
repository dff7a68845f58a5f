import LumioNode.Library.Fallible
import LumioNode.Library.WeightedQuorum
import LumioNode.Types.ValidatorVerifier

/-! # Quorums of validators

Which authors a bitmask names and what power they hold; the quorum of
`ValidatorVerifier::new` makes a weighted quorum system. -/

namespace LumioNode

open Library ValidatorConsensusInfo List

/-- An aggregate verifies only with as many messages as keys, each message signed with its key. -/
def Bls.AggregateUnforgeable {M : Type} (bls : Bls M) (Signed : PublicKey → M → Prop) : Prop :=
  ∀ signature messages keys, bls.verifyAggregate signature messages keys = true →
    List.Forall₂ Signed keys messages

/-- A multi-signature verifies only if its message was signed with each key. -/
def Bls.MultiUnforgeable {M : Type} (bls : Bls M) (Signed : PublicKey → M → Prop) : Prop :=
  ∀ keys aggregatedKey message signature, bls.aggregateKeys keys = some aggregatedKey →
    bls.verify aggregatedKey message signature = true → ∀ key ∈ keys, Signed key message

namespace ValidatorVerifier

def Distinct (verifier : ValidatorVerifier) : Prop := (verifier.validatorInfos.map address).Nodup

instance (verifier : ValidatorVerifier) : Decidable verifier.Distinct :=
  inferInstanceAs (Decidable (List.Nodup _))

def power (verifier : ValidatorVerifier) (author : AccountAddress) : Nat :=
  (verifier.getVotingPower author).getD 0

def members (verifier : ValidatorVerifier) : Finset AccountAddress :=
  verifier.getOrderedAccountAddresses.toFinset

variable {verifier : ValidatorVerifier}

variable {author : AccountAddress} {info : ValidatorConsensusInfo} {authors : List AccountAddress}
  {index sum : Nat} {indices : List Nat}

theorem address_of_index (found : verifier.addressToValidatorIndex author = some index) :
    (verifier.validatorInfos[index]?).map address = some author := by
  simpa using List.find?_some found

theorem lt_of_address (isAt : (verifier.validatorInfos[index]?).map address = some author) :
    index < verifier.validatorInfos.length := by
  obtain ⟨info, infoAt, _⟩ := Option.map_eq_some_iff.mp isAt
  exact (List.getElem?_eq_some_iff.mp infoAt).1

theorem addressToValidatorIndex_eq_some (distinct : verifier.Distinct) :
    verifier.addressToValidatorIndex author = some index ↔
      (verifier.validatorInfos[index]?).map address = some author := by
  constructor
  · exact address_of_index
  · intro isAt
    have isFound : (verifier.addressToValidatorIndex author).isSome := by
      refine List.find?_isSome.mpr ⟨index, ?_, by simpa using isAt⟩
      simpa using lt_of_address isAt
    obtain ⟨other, otherFound⟩ := Option.isSome_iff_exists.mp isFound
    have otherAt := address_of_index otherFound
    have inRange := lt_of_address otherAt
    have sameAddress : (verifier.validatorInfos.map address)[other]? =
        (verifier.validatorInfos.map address)[index]? := by
      rw [List.getElem?_map, List.getElem?_map, otherAt, isAt]
    have sameIndex : other = index :=
      (List.getElem?_inj (by simpa using inRange) distinct).mp sameAddress
    rw [otherFound, sameIndex]

theorem infoOf_eq_some (distinct : verifier.Distinct) : verifier.infoOf author = some info ↔
      info ∈ verifier.validatorInfos ∧ info.address = author := by
  unfold infoOf
  rw [Option.bind_eq_some_iff]
  constructor
  · intro ⟨index, found, isAt⟩
    have addressAt := address_of_index found
    rw [isAt, Option.map_some, Option.some.injEq] at addressAt
    exact ⟨mem_of_getElem? isAt, addressAt⟩
  · intro ⟨member, addressEq⟩
    obtain ⟨index, isAt⟩ := mem_iff_getElem?.mp member
    refine ⟨index, ?_, isAt⟩
    rw [addressToValidatorIndex_eq_some distinct, isAt, Option.map_some, addressEq]

theorem mem_members : author ∈ verifier.members ↔
    ∃ info ∈ verifier.validatorInfos, info.address = author := by
  simp [members, getOrderedAccountAddresses]

theorem sum_members (distinct : verifier.Distinct) :
    ∑ author ∈ verifier.members, verifier.power author = sumOfInfos verifier.validatorInfos := by
  have asList : ∑ author ∈ verifier.members, verifier.power author =
      (verifier.getOrderedAccountAddresses.map verifier.power).sum :=
    sum_toFinset _ distinct
  rw [asList, getOrderedAccountAddresses, map_map, sumOfInfos]
  congr 1
  refine map_congr_left fun info member => ?_
  have found := (infoOf_eq_some distinct).mpr ⟨member, rfl⟩
  simp [power, getVotingPower, found]

variable {signers : List ValidatorConsensusInfo}

theorem signersOf_eq_ok (collected : verifier.signersOf indices = .ok signers) :
    indices.map (fun index => verifier.validatorInfos[index]?) = signers.map some := by
  induction indices generalizing signers with
  | nil =>
    cases collected
    rfl
  | cons index rest inductionHypothesis =>
    rw [signersOf] at collected
    cases found : verifier.validatorInfos[index]? with
    | none =>
      rw [found] at collected
      cases collected
    | some =>
      rw [found] at collected
      obtain ⟨others, othersCollected, rfl⟩ := map_eq_ok.mp collected
      rw [map_cons, map_cons, found, inductionHypothesis othersCollected]

theorem mem_infos (collected : verifier.signersOf indices = .ok signers)
    {signer : ValidatorConsensusInfo} (isSigner : signer ∈ signers) :
    signer ∈ verifier.validatorInfos := by
  have isListed : some signer ∈ signers.map some := mem_map_of_mem isSigner
  rw [← signersOf_eq_ok collected] at isListed
  obtain ⟨index, _, isAt⟩ := mem_map.mp isListed
  exact mem_of_getElem? isAt

variable {signature : AggregateSignature}

theorem authors_of_signersOf
    (collected : verifier.signersOf signature.validatorBitmask.iterOnes = .ok signers) :
    verifier.aggregateSignatureAuthors signature = signers.map address := by
  have infosEq := signersOf_eq_ok collected
  have asFilterMap : verifier.aggregateSignatureAuthors signature =
      (signature.validatorBitmask.iterOnes.map fun index =>
        verifier.validatorInfos[index]?).filterMap (Option.map address) := by
    rw [filterMap_map]
    rfl
  rw [asFilterMap, infosEq, filterMap_map]
  simp

theorem signers_nodup (distinct : verifier.Distinct) (nodup : indices.Nodup)
    (collected : verifier.signersOf indices = .ok signers) : (signers.map address).Nodup := by
  have infosEq := signersOf_eq_ok collected
  have addressesEq : indices.map (fun index =>
          (verifier.validatorInfos[index]?).map address) =
        (signers.map address).map some := by
    have mapped := congrArg (List.map (Option.map address)) infosEq
    simpa [Function.comp_def] using mapped
  refine List.Nodup.of_map some ?_
  rw [← addressesEq]
  refine nodup.map_on ?_
  intro first firstMember second _ sameAddress
  have isKnown : ∃ info, verifier.validatorInfos[first]? = some info := by
    have member : verifier.validatorInfos[first]? ∈ signers.map some := by
      rw [← infosEq]
      exact mem_map_of_mem firstMember
    obtain ⟨info, _, isInfo⟩ := mem_map.mp member
    exact ⟨info, isInfo.symm⟩
  obtain ⟨info, isInfo⟩ := isKnown
  have firstFound : verifier.addressToValidatorIndex info.address = some first :=
    (addressToValidatorIndex_eq_some distinct).mpr (by
      rw [isInfo, Option.map_some])
  have secondFound : verifier.addressToValidatorIndex info.address = some second :=
    (addressToValidatorIndex_eq_some distinct).mpr (by
      rw [← sameAddress, isInfo, Option.map_some])
  exact Option.some.inj (firstFound.symm.trans secondFound)

theorem sumVotingPower_eq_ok (summed : verifier.sumVotingPower authors = .ok sum) :
    sum = (authors.map verifier.power).sum ∧
      ∀ author ∈ authors, (verifier.getVotingPower author).isSome := by
  induction authors generalizing sum with
  | nil =>
    cases summed
    simp
  | cons author rest inductionHypothesis =>
    rw [sumVotingPower] at summed
    cases found : verifier.getVotingPower author with
    | none =>
      rw [found] at summed
      cases summed
    | some =>
      rw [found] at summed
      obtain ⟨restSum, restSummed, rfl⟩ := map_eq_ok.mp summed
      obtain ⟨restEq, restKnown⟩ := inductionHypothesis restSummed
      refine ⟨?_, forall_mem_cons.mpr ⟨?_, restKnown⟩⟩
      · simp [power, found, restEq]
      · simp [found]

theorem checkVotingPower_eq_ok (checked : verifier.checkVotingPower authors true = .ok sum) :
    verifier.quorumVotingPower ≤ (authors.map verifier.power).sum ∧
      ∀ author ∈ authors, (verifier.getVotingPower author).isSome := by
  obtain ⟨total, summed, reached⟩ := of_bind checked
  obtain ⟨totalEq, known⟩ := sumVotingPower_eq_ok summed
  refine ⟨?_, known⟩
  simp only [checkAggregatedVotingPower, if_true] at reached
  split at reached
  · cases reached
  · rename_i enough
    rw [← totalEq]
    exact Nat.le_of_not_lt enough

theorem quorumSigners_eq_ok (distinct : verifier.Distinct)
    (accepted : verifier.quorumSigners signature.validatorBitmask = .ok signers) :
    verifier.aggregateSignatureAuthors signature = signers.map address ∧
      (verifier.aggregateSignatureAuthors signature).toFinset ⊆ verifier.members ∧
      verifier.quorumVotingPower ≤ ∑ author ∈
          (verifier.aggregateSignatureAuthors signature).toFinset,
          verifier.power author := by
  unfold quorumSigners at accepted
  simp only [bind_eq_ok, pure_eq_ok] at accepted
  obtain ⟨_, _, collectedSigners, collected, sum, checked, rfl⟩ := accepted
  have authorsEq := authors_of_signersOf collected
  have nodup := signers_nodup distinct signature.validatorBitmask.iterOnes_nodup collected
  obtain ⟨reached, known⟩ := checkVotingPower_eq_ok checked
  refine ⟨authorsEq, ?_, ?_⟩
  · intro author member
    rw [authorsEq, mem_toFinset] at member
    obtain ⟨info, isInfo⟩ := Option.isSome_iff_exists.mp (known author member)
    obtain ⟨validator, found, _⟩ := Option.map_eq_some_iff.mp isInfo
    exact mem_members.mpr ⟨validator, (infoOf_eq_some distinct).mp found⟩
  · rw [authorsEq, sum_toFinset _ nodup]
    exact reached

variable {M : Type} {bls : Bls M} {message : M}

theorem verify_eq_ok {signature : Signature} :
    verifier.verify bls author message signature = .ok () ↔
      ∃ info, verifier.infoOf author = some info ∧
        bls.verify info.publicKey message signature = true := by
  unfold verify getPublicKey
  cases found : verifier.infoOf author with
  | none => simp
  | some =>
    simp only [Option.map_some, Option.some.injEq, exists_eq_left']
    split <;> simp_all

theorem verify_publicKey (distinct : verifier.Distinct)
    (isValidator : info ∈ verifier.validatorInfos) {signature : Signature}
    (verified : verifier.verify bls info.address message signature = .ok ()) :
    bls.verify info.publicKey message signature = true := by
  obtain ⟨other, found, valid⟩ := verify_eq_ok.mp verified
  rw [(infoOf_eq_some distinct).mpr ⟨isValidator, rfl⟩] at found
  cases found
  exact valid

theorem verifyMultiSignatures_eq_ok
    (accepted : verifier.verifyMultiSignatures bls message signature = .ok ()) :
    ∃ signers multiSig aggregatedKey,
      verifier.quorumSigners signature.validatorBitmask = .ok signers ∧
        signature.sig = some multiSig ∧
        bls.aggregateKeys (signers.map publicKey) = some aggregatedKey ∧
        bls.verify aggregatedKey message multiSig = true := by
  obtain ⟨signers, isQuorum, verified⟩ := of_bind accepted
  cases sigEq : signature.sig with
  | none => simp [sigEq] at verified
  | some multiSig =>
    cases keyEq : bls.aggregateKeys (signers.map publicKey) with
    | none => simp [sigEq, keyEq] at verified
    | some aggregatedKey =>
      simp only [sigEq, keyEq] at verified
      split at verified
      · rename_i valid
        exact ⟨signers, multiSig, aggregatedKey, isQuorum, rfl, keyEq, valid⟩
      · cases verified

theorem verifyAggregateSignatures_eq_ok {messages : List M}
    (accepted : verifier.verifyAggregateSignatures bls messages signature = .ok ()) :
    ∃ signers aggregatedSig, verifier.quorumSigners signature.validatorBitmask = .ok signers ∧
      bls.verifyAggregate aggregatedSig messages (signers.map publicKey) = true := by
  obtain ⟨signers, isQuorum, verified⟩ := of_bind accepted
  split at verified
  · cases verified
  · split at verified
    · next isSigned => exact ⟨signers, _, isQuorum, isSigned⟩
    · cases verified

def quorumSystem {infos : List ValidatorConsensusInfo} (nonempty : infos ≠ [])
    (distinct : (new infos).Distinct) (faulty : Finset AccountAddress)
    (bounded : ∑ author ∈ (new infos).members ∩ faulty, (new infos).power author ≤
      (new infos).totalVotingPower - (new infos).quorumVotingPower) :
    WeightedQuorum AccountAddress where
  members := (new infos).members
  weight := (new infos).power
  threshold := (new infos).quorumVotingPower
  faulty := faulty
  twoThirds := by
    rw [sum_members distinct]
    have quorumEq : (new infos).quorumVotingPower = sumOfInfos infos * 2 / 3 + 1 := by
      simp [new, nonempty]
    have infosEq : (new infos).validatorInfos = infos := rfl
    rw [quorumEq, infosEq]
    omega
  faultyBound := by
    rw [sum_members distinct]
    have totalEq : (new infos).totalVotingPower = sumOfInfos (new infos).validatorInfos := rfl
    omega

end ValidatorVerifier

end LumioNode
