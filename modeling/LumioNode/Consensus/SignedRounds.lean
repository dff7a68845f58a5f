import LumioNode.Consensus.TimeoutAggregation

/-! # What a verified timeout certificate says

Signers are paired with rounds, while the highest round is taken over all.  A
certificate with more rounds than signers states a round that nobody signed. -/

namespace LumioNode

open Library List ValidatorVerifier ValidatorConsensusInfo ValidatorBitVec
  AggregateSignatureWithRounds

theorem length_iterOnes (vector : ValidatorBitVec) :
    vector.iterOnes.length = vector.countOnes := by
  have bitsEq : (List.range vector.bits.length).map vector.isSet = vector.bits := by
    apply ext_getElem
    · simp
    · intro position _ inside
      simp [isSet, inside]
  rw [iterOnes, ← countP_eq_length_filter, countOnes, List.count, ← bitsEq, countP_map]
  simp [Function.comp_def]

variable {validators : ValidatorVerifier} {bitvec : ValidatorBitVec}

theorem lt_of_checkNumOfVoters {numValidators : Nat}
    (checked : checkNumOfVoters numValidators bitvec = .ok ()) (position : Nat)
    (isOne : bitvec.isSet position = true) : position < numValidators := by
  have isListed := mem_iterOnes.mpr isOne
  obtain ⟨initial, last, onesEq⟩ := (eq_nil_or_concat' _).resolve_left
    (ne_nil_of_mem isListed)
  have sorted := bitvec.iterOnes_sorted
  rw [onesEq] at isListed sorted
  have below := (pairwise_append.mp sorted).2.2
  have atMost : position ≤ last := by
    rcases mem_append.mp isListed with isEarlier | isLast
    · exact (below position isEarlier last (mem_singleton_self last)).le
    · exact (mem_singleton.mp isLast).le
  simp only [checkNumOfVoters, ValidatorBitVec.lastSetBit, onesEq, List.getLast?_concat] at checked
  split at checked
  · cases checked
  · split at checked
    · cases checked
    · omega

namespace TwoChainTimeoutCertificate

variable {bls : Bls LedgerInfo} {blsTimeout : Bls TimeoutSigningRepr}
  {voteDataHash : VoteData → HashValue} {cert : TwoChainTimeoutCertificate}
  {Signed : PublicKey → TimeoutSigningRepr → Prop}

/-- The signers hold a quorum, each signed its own round, and the certificate states the
highest. -/
structure StatesSignedRounds (Signed : PublicKey → TimeoutSigningRepr → Prop)
    (validators : ValidatorVerifier) (cert : TwoChainTimeoutCertificate) : Prop where
  quorum : validators.quorumVotingPower ≤ ∑ author ∈
    (validators.aggregateSignatureAuthors cert.signaturesWithRounds.sig).toFinset,
      validators.power author
  areAuthors : (cert.signaturesWithRounds.getVotersAndRounds
      validators.getOrderedAccountAddresses).map Prod.fst =
    validators.aggregateSignatureAuthors cert.signaturesWithRounds.sig
  signed : ∀ voter ∈ cert.signaturesWithRounds.getVotersAndRounds
      validators.getOrderedAccountAddresses,
    ∃ info ∈ validators.validatorInfos, info.address = voter.1 ∧
      Signed info.publicKey ⟨cert.epoch, cert.round, voter.2⟩
  oneRoundEach : cert.signaturesWithRounds.rounds.length =
    cert.signaturesWithRounds.sig.validatorBitmask.countOnes
  highest : ((cert.signaturesWithRounds.getVotersAndRounds
      validators.getOrderedAccountAddresses).map Prod.snd).max? = some cert.highestHqcRound

/-- An accepted certificate is true of its signers exactly if it has no more rounds than
signers. -/
theorem verified_states_signed_rounds (distinct : validators.Distinct)
    (unforgeable : blsTimeout.AggregateUnforgeable Signed)
    (accepted : cert.verify bls blsTimeout voteDataHash validators = .ok ()) :
    StatesSignedRounds Signed validators cert ↔
      cert.signaturesWithRounds.rounds.length ≤
        cert.signaturesWithRounds.sig.validatorBitmask.countOnes := by
  refine ⟨fun states => states.oneRoundEach.le, fun noSurplus => ?_⟩
  obtain ⟨_, verified, highest⟩ := verify_eq_ok.mp accepted
  obtain ⟨timeout, sig, rounds⟩ := cert
  obtain ⟨signers, _, isQuorum, isSigned⟩ := verifyAggregateSignatures_eq_ok verified
  obtain ⟨authorsEq, _, quorum⟩ := quorumSigners_eq_ok distinct isQuorum
  obtain ⟨_, checked, isQuorum⟩ := of_bind isQuorum
  obtain ⟨_, collected, isQuorum⟩ := of_bind isQuorum
  obtain ⟨_, _, isSigners⟩ := of_bind isQuorum
  cases isSigners
  have signed := unforgeable _ _ _ isSigned
  obtain ⟨rest, addressesEq, _⟩ := getSignersAddresses_eq (Nat.mod_le validators.len (2 ^ 16))
    (Nat.mod_lt _ (by decide)).le (lt_of_checkNumOfVoters checked)
  have numSigners : signers.length = sig.validatorBitmask.countOnes := by
    simpa [length_iterOnes] using
      (congrArg List.length (signersOf_eq_ok collected)).symm
  have numMessages := signed.length_eq
  simp only [timeoutMessages, getVotersAndRounds, addressesEq, authorsEq, length_map,
    length_zip, length_append] at numMessages
  have numRounds : signers.length = rounds.length := by
    dsimp only at noSurplus
    omega
  have votersEq : getVotersAndRounds ⟨sig, rounds⟩ validators.getOrderedAccountAddresses =
      (signers.map address).zip rounds := by
    rw [getVotersAndRounds, addressesEq, authorsEq, ← append_nil rounds,
      zip_append (by simpa), zip_nil_right, append_nil, append_nil]
  have roundsEq : ((signers.map address).zip rounds).map Prod.snd = rounds :=
    map_snd_zip (by simp [numRounds])
  have messagesEq : timeoutMessages ⟨timeout, sig, rounds⟩ validators =
      rounds.map (⟨timeout.epoch, timeout.round, ·⟩) := by
    rw [timeoutMessages, votersEq]
    conv_rhs => rw [← roundsEq, map_map]
    rfl
  rw [messagesEq, forall₂_map_left_iff, forall₂_map_right_iff, forall₂_iff_zip] at signed
  refine ⟨quorum, ?_, ?_, numRounds.symm.trans numSigners, ?_⟩ <;> rw [votersEq]
  · rw [map_fst_zip (by simp [numRounds])]
    exact authorsEq.symm
  · intro voter isVoter
    rw [zip_map_left] at isVoter
    obtain ⟨⟨info, round⟩, isPair, rfl⟩ := mem_map.mp isVoter
    exact ⟨info, mem_infos collected (of_mem_zip isPair).1, rfl, signed.2 isPair⟩
  · rw [roundsEq]
    exact highest

end TwoChainTimeoutCertificate

namespace SurplusRound

open PendingVotes.FourValidators PendingVotes.TimesOutTwice TwoChainTimeoutCertificate

def Signed (_ : PublicKey) (message : TimeoutSigningRepr) : Prop := message.hqcRound = 1

instance (key : PublicKey) (message : TimeoutSigningRepr) : Decidable (Signed key message) :=
  inferInstanceAs (Decidable (_ = _))

def blsTimeout : Bls TimeoutSigningRepr :=
  { Bls.ofEmpty TimeoutSigningRepr with
    verifyAggregate := fun _ messages keys => decide (List.Forall₂ Signed keys messages) }

theorem unforgeable : blsTimeout.AggregateUnforgeable Signed := by
  intro signature messages keys verified
  exact of_decide_eq_true verified

/-- Three signers with four rounds: round 3 is stated, and the highest signed is 1. -/
theorem surplus_round_accepted : verifier.Distinct ∧ blsTimeout.AggregateUnforgeable Signed ∧
    (certificate [1, 1, 1, 3]).verify env.blsLedgerInfo blsTimeout env.voteDataHash verifier =
      .ok () ∧ (certificate [1, 1, 1, 3]).signaturesWithRounds.getVotersAndRounds
      verifier.getOrderedAccountAddresses = [(1, 1), (2, 1), (3, 1)] ∧
    (certificate [1, 1, 1, 3]).highestHqcRound = 3 :=
  ⟨by decide, unforgeable, by decide, by decide, by decide⟩

def signedCertificate : TwoChainTimeoutCertificate := ⟨⟨1, 5, qc 1⟩, ⟨signers, [1, 1, 1]⟩⟩

theorem signed_rounds_stated :
    signedCertificate.verify env.blsLedgerInfo blsTimeout env.voteDataHash verifier = .ok () ∧
    StatesSignedRounds Signed verifier signedCertificate := by
  have accepted : signedCertificate.verify env.blsLedgerInfo blsTimeout env.voteDataHash verifier =
      .ok () := by decide
  exact ⟨accepted, (verified_states_signed_rounds (by decide) unforgeable accepted).mpr
    (by decide)⟩

end SurplusRound

end LumioNode
