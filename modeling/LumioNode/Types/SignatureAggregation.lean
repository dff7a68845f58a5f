import LumioNode.Library.SortedMap
import LumioNode.Types.ValidatorQuorum

/-! # Aggregates of signatures

With at most `u16::MAX` validators the bitmask names the authors of the signatures, in
the order of the validators.  Signatures are verified one by one only if the aggregate
is not valid. -/

namespace LumioNode

open Library ValidatorConsensusInfo ValidatorBitVec List

/-- An aggregate of valid signatures verifies, in whatever order they were added. -/
structure Bls.AggregateSound {M : Type} (bls : Bls M) : Prop where
  multi : ∀ (message : M) (signed : List (PublicKey × Signature))
      (signatures : List Signature) (aggregated : Signature),
    signed ≠ [] → (∀ entry ∈ signed, bls.verify entry.1 message entry.2 = true) →
      signatures.Perm (signed.map Prod.snd) →
      bls.aggregate signatures = some aggregated →
        ∃ key, bls.aggregateKeys (signed.map Prod.fst) = some key ∧
          bls.verify key message aggregated = true
  distinct : ∀ (signed : List (PublicKey × M × Signature))
      (signatures : List Signature) (aggregated : Signature),
    signed ≠ [] → (∀ entry ∈ signed, bls.verify entry.1 entry.2.1 entry.2.2 = true) →
      signatures.Perm (signed.map fun entry => entry.2.2) →
      bls.aggregate signatures = some aggregated →
        bls.verifyAggregate aggregated (signed.map fun entry => entry.2.1)
          (signed.map Prod.fst) = true

theorem Bls.aggregate_ofEmpty {M : Type} {signatures : List Signature} {aggregated : Signature}
    (isAggregate : (Bls.ofEmpty M).aggregate signatures = some aggregated) :
    aggregated = signatures.flatten := by
  simp only [ofEmpty] at isAggregate
  split at isAggregate
  · cases isAggregate
  · exact (Option.some.inj isAggregate).symm

theorem Bls.aggregateSound_ofEmpty (M : Type) : (Bls.ofEmpty M).AggregateSound := by
  have keepsEmpty {signatures : List Signature} {aggregated : Signature}
      (isAggregate : (Bls.ofEmpty M).aggregate signatures = some aggregated)
      (allEmpty : ∀ signature ∈ signatures, signature.isEmpty = true) :
      aggregated.isEmpty = true := by
    rw [aggregate_ofEmpty isAggregate, List.isEmpty_iff, flatten_eq_nil_iff]
    exact fun signature member => List.isEmpty_iff.mp (allEmpty signature member)
  constructor
  · intro message signed signatures aggregated nonempty valid perm isAggregate
    obtain ⟨entry, rest, rfl⟩ := exists_cons_of_ne_nil nonempty
    refine ⟨entry.1, rfl, keepsEmpty isAggregate fun signature member => ?_⟩
    obtain ⟨other, isOther, rfl⟩ := mem_map.mp (perm.mem_iff.mp member)
    exact valid other isOther
  · intro signed signatures aggregated _ valid perm isAggregate
    have isEmpty : aggregated.isEmpty = true := by
      refine keepsEmpty isAggregate fun signature member => ?_
      obtain ⟨other, isOther, rfl⟩ := mem_map.mp (perm.mem_iff.mp member)
      exact valid other isOther
    simp [ofEmpty, isEmpty]

namespace ValidatorVerifier

variable {M : Type} {bls : Bls M} {verifier : ValidatorVerifier}

/-- The validator set fits the 16-bit positions of the bit vector. -/
def Fits (verifier : ValidatorVerifier) : Prop := verifier.len < 2 ^ 16

instance (verifier : ValidatorVerifier) : Decidable verifier.Fits :=
  inferInstanceAs (Decidable (_ < _))

variable {author : AccountAddress}

theorem index_lt {index : Nat} (found : verifier.addressToValidatorIndex author = some index) :
    index < verifier.len :=
  lt_of_address (address_of_index found)

/-! ## The bitmask -/

variable {indices : List Nat} {vector : ValidatorBitVec} {bound sum : Nat}

theorem numBuckets_set {position : Nat} (buckets : vector.numBuckets = requiredBuckets bound)
    (inside : position < bound) : (vector.set position).numBuckets = requiredBuckets bound := by
  unfold numBuckets requiredBuckets at *
  have lengthEq : (vector.set position).bits.length = max vector.bits.length
      ((position / bucketSize + 1) * bucketSize) := by
    rw [ValidatorBitVec.set, length_set, ValidatorBitVec.length_resized]
  rw [lengthEq]
  unfold bucketSize at *
  have nonzero : bound ≠ 0 := by omega
  rw [if_neg nonzero] at buckets ⊢
  omega

variable {signatures : List (AccountAddress × Signature)}

/-- The loop of `aggregate_signatures`: one bit for each author. -/
theorem collectSignatures_eq_ok (fits : verifier.Fits) {masks allMasks : ValidatorBitVec}
    {sigs : List Signature} (buckets : masks.numBuckets = requiredBuckets verifier.len)
    (collected : verifier.collectSignatures masks signatures = .ok (allMasks, sigs)) :
    sigs = signatures.map Prod.snd ∧ allMasks.numBuckets = requiredBuckets verifier.len ∧
      (∀ entry ∈ signatures, ∃ index, verifier.addressToValidatorIndex entry.1 = some index) ∧
      ∀ position, allMasks.isSet position = true ↔ masks.isSet position = true ∨
          ∃ entry ∈ signatures, verifier.addressToValidatorIndex entry.1 = some position := by
  induction signatures generalizing masks sigs with
  | nil =>
    cases collected
    simp [buckets]
  | cons entry rest inductionHypothesis =>
    obtain ⟨address, signature⟩ := entry
    rw [collectSignatures] at collected
    cases found : verifier.addressToValidatorIndex address with
    | none =>
      rw [found] at collected
      cases collected
    | some index =>
      rw [found] at collected
      obtain ⟨result, restCollected, resultEq⟩ := map_eq_ok.mp collected
      cases resultEq
      rw [asU16, Nat.mod_eq_of_lt ((index_lt found).trans fits)] at restCollected
      have nextBuckets := numBuckets_set buckets (index_lt found)
      obtain ⟨sigsEq, bucketsEq, known, isSetIff⟩ := inductionHypothesis nextBuckets restCollected
      refine ⟨by rw [sigsEq]; rfl, bucketsEq,
        forall_mem_cons.mpr ⟨⟨index, found⟩, known⟩, ?_⟩
      intro position
      rw [isSetIff, isSet_set, Bool.or_eq_true, decide_eq_true_eq]
      simp only [exists_mem_cons_iff, found, Option.some.injEq, eq_comm (a := index)]
      tauto

variable {signers : List ValidatorConsensusInfo}

theorem mem_signers (collected : verifier.signersOf indices = .ok signers) :
    author ∈ signers.map address ↔ ∃ index ∈ indices,
        (verifier.validatorInfos[index]?).map address = some author := by
  have infosEq := signersOf_eq_ok collected
  have addressesEq := congrArg (List.map (Option.map address)) infosEq
  rw [map_map, map_map] at addressesEq
  have inAddresses : author ∈ signers.map address ↔ some author ∈ signers.map
      (Option.map address ∘ some) := by
    simp
  rw [inAddresses, ← addressesEq, mem_map]
  rfl

theorem signersOf_of_lt (inside : ∀ index ∈ indices, index < verifier.len) :
    ∃ signers, verifier.signersOf indices = .ok signers := by
  induction indices with
  | nil => exact ⟨[], rfl⟩
  | cons index rest inductionHypothesis =>
    obtain ⟨others, othersEq⟩ := inductionHypothesis (forall_mem_cons.mp inside).2
    have inRange : index < verifier.validatorInfos.length := inside index (mem_cons_self ..)
    rw [signersOf, List.getElem?_eq_getElem inRange, othersEq]
    exact ⟨_, rfl⟩

/-- The signers are the authors of the signatures, in the order of the validators. -/
structure Aggregates (verifier : ValidatorVerifier) (signatures : List (AccountAddress × Signature))
    (signature : AggregateSignature) (signers : List ValidatorConsensusInfo) : Prop where
  isSet : ∀ position, signature.validatorBitmask.isSet position = true ↔ ∃ entry ∈ signatures,
        verifier.addressToValidatorIndex entry.1 = some position
  voters : checkNumOfVoters (asU16 verifier.len) signature.validatorBitmask = .ok ()
  signersEq : verifier.signersOf signature.validatorBitmask.iterOnes = .ok signers
  authors : (signers.map address).Perm (signatures.map Prod.fst)

variable {signature : AggregateSignature}

theorem checkNumOfVoters_of_isSet {bitvec : ValidatorBitVec}
    (buckets : bitvec.numBuckets = requiredBuckets bound)
    (inside : ∀ position, bitvec.isSet position = true → position < bound) :
    checkNumOfVoters bound bitvec = .ok () := by
  unfold checkNumOfVoters
  rw [if_neg (not_not_intro buckets)]
  cases last : bitvec.lastSetBit with
  | none => rfl
  | some lastBit =>
    have isSet : bitvec.isSet lastBit = true := mem_iterOnes.mp (mem_of_getLast? last)
    exact if_neg (Nat.not_le_of_lt (inside lastBit isSet))

theorem aggregateSignatures_eq_ok (distinct : verifier.Distinct) (fits : verifier.Fits)
    (nodup : (signatures.map Prod.fst).Nodup)
    (aggregated : verifier.aggregateSignatures bls signatures = .ok signature) :
    ∃ signers aggregatedSig, verifier.Aggregates signatures signature signers ∧
        signature.sig = some aggregatedSig ∧
        bls.aggregate (signatures.map Prod.snd) = some aggregatedSig := by
  obtain ⟨⟨masks, sigs⟩, collected, result⟩ := of_bind aggregated
  have lenEq : asU16 verifier.len = verifier.len := Nat.mod_eq_of_lt fits
  rw [lenEq] at collected
  obtain ⟨sigsEq, bucketsEq, known, isSetIff⟩ :=
    collectSignatures_eq_ok fits (by simp [numBuckets, withNumBits, bucketSize]) collected
  have isSet : ∀ position, masks.isSet position = true ↔ ∃ entry ∈ signatures,
      verifier.addressToValidatorIndex entry.1 = some position := by
    intro position
    rw [isSetIff, isSet_withNumBits]
    simp
  have inside : ∀ position, masks.isSet position = true → position < verifier.len := by
    intro position isOne
    obtain ⟨_, _, found⟩ := (isSet position).mp isOne
    exact index_lt found
  have onesInside : ∀ index ∈ masks.iterOnes, index < verifier.len :=
    fun index member => inside index (mem_iterOnes.mp member)
  obtain ⟨signers, signersEq⟩ := signersOf_of_lt onesInside
  have authors : (signers.map address).Perm (signatures.map Prod.fst) := by
    have signersNodup := signers_nodup distinct masks.iterOnes_nodup signersEq
    apply (perm_ext_iff_of_nodup signersNodup nodup).mpr
    intro author
    rw [mem_signers signersEq, mem_map]
    constructor
    · rintro ⟨index, member, isAt⟩
      have isOne := mem_iterOnes.mp member
      obtain ⟨entry, entryMember, found⟩ := (isSet index).mp isOne
      have entryAt := address_of_index found
      rw [isAt] at entryAt
      exact ⟨entry, entryMember, (Option.some.inj entryAt).symm⟩
    · rintro ⟨entry, entryMember, authorEq⟩
      obtain ⟨index, found⟩ := known entry entryMember
      have isOne := (isSet index).mpr ⟨entry, entryMember, found⟩
      exact ⟨index, mem_iterOnes.mpr isOne, authorEq ▸ address_of_index found⟩
  have voters : checkNumOfVoters (asU16 verifier.len) masks = .ok () := by
    rw [lenEq]
    exact checkNumOfVoters_of_isSet bucketsEq inside
  subst sigsEq
  cases sigEq : bls.aggregate (signatures.map Prod.snd) with
  | none => simp [sigEq] at result
  | some aggregatedSig =>
    simp only [sigEq] at result
    cases result
    exact ⟨signers, aggregatedSig, ⟨isSet, voters, signersEq, authors⟩, rfl, rfl⟩

/-! ## The order of the signers -/

theorem filterMap_zipIdx {α : Type} (items : List α) (keep : Nat → Bool) :
    (items.zipIdx.filterMap fun entry =>
        if keep entry.2 then some entry.1 else none) =
      ((List.range items.length).filter keep).filterMap fun index => items[index]? := by
  induction items using List.reverseRecOn with
  | nil => rfl
  | append_singleton initial last inductionHypothesis =>
    have initialEq : ((List.range initial.length).filter keep).filterMap
          (fun index => (initial ++ [last])[index]?) =
        ((List.range initial.length).filter keep).filterMap fun index => initial[index]? := by
      apply filterMap_congr
      intro index member
      have inside := mem_range.mp (mem_filter.mp member).1
      rw [List.getElem?_append_left inside]
    rw [zipIdx_append, filterMap_append, inductionHypothesis, length_append, length_singleton,
      range_succ, filter_append, filterMap_append, initialEq]
    congr 1
    by_cases keepLast : keep initial.length = true
    · simp [keepLast]
    · simp [keepLast]

/-- The set positions, listed up to a bound of them. -/
theorem filter_isSet_range (inside : ∀ position, vector.isSet position = true → position < bound) :
    (List.range bound).filter vector.isSet = vector.iterOnes := by
  apply eq_of_increasing
  · exact List.Pairwise.filter _ pairwise_lt_range
  · exact vector.iterOnes_sorted
  · intro position
    rw [mem_filter, mem_range, mem_iterOnes]
    exact ⟨And.right, fun isOne => ⟨inside position isOne, isOne⟩⟩

/-! ## The quorum check -/

variable {authors : List AccountAddress}

section

variable (known : ∀ author ∈ authors, (verifier.getVotingPower author).isSome)

include known

theorem sumVotingPower_of_known :
    verifier.sumVotingPower authors = .ok (authors.map verifier.power).sum := by
  induction authors with
  | nil => rfl
  | cons author rest inductionHypothesis =>
    have restKnown := inductionHypothesis (forall_mem_cons.mp known).2
    obtain ⟨votingPower, found⟩ := Option.isSome_iff_exists.mp
      (known author (mem_cons_self ..))
    rw [sumVotingPower, found, restKnown]
    simp [power, found, Except.map]

theorem checkVotingPower_of_known : verifier.checkVotingPower authors true =
      if (authors.map verifier.power).sum < verifier.quorumVotingPower then
        .error (.tooLittleVotingPower (authors.map verifier.power).sum verifier.quorumVotingPower)
      else .ok (authors.map verifier.power).sum := by
  unfold checkVotingPower
  rw [sumVotingPower_of_known known]
  rfl

end

theorem checkVotingPower_perm {others : List AccountAddress} (perm : authors.Perm others)
    (checked : verifier.checkVotingPower others true = .ok sum) :
    ∃ total, verifier.checkVotingPower authors true = .ok total := by
  obtain ⟨reached, known⟩ := checkVotingPower_eq_ok checked
  have sameSum : (authors.map verifier.power).sum =
      (others.map verifier.power).sum := (perm.map _).sum_eq
  have authorsKnown : ∀ author ∈ authors, (verifier.getVotingPower author).isSome :=
    fun author member => known author (perm.mem_iff.mp member)
  rw [checkVotingPower_of_known authorsKnown, if_neg (by omega)]
  exact ⟨_, rfl⟩

variable (aggregates : verifier.Aggregates signatures signature signers)

include aggregates

theorem Aggregates.signatures_perm {signatureOf : AccountAddress → Signature}
    (areOf : ∀ entry ∈ signatures, entry.2 = signatureOf entry.1) :
    (signatures.map Prod.snd).Perm (signers.map fun signer => signatureOf signer.address) := by
  have permuted := (aggregates.authors.map signatureOf).symm
  rw [map_map, map_map] at permuted
  rw [map_congr_left areOf]
  exact permuted

theorem Aggregates.quorumSigners
    (checked : verifier.checkVotingPower (signatures.map Prod.fst) true = .ok sum) :
    verifier.quorumSigners signature.validatorBitmask = .ok signers := by
  obtain ⟨total, reached⟩ := checkVotingPower_perm aggregates.authors checked
  unfold ValidatorVerifier.quorumSigners
  rw [aggregates.voters, aggregates.signersEq]
  simp only [bind, Except.bind, reached, pure, Except.pure]

end ValidatorVerifier

/-! ## Optimistic verification

The source's shared flag only goes from unverified to verified. -/

structure SignatureWithStatus where
  signature : Signature
  isVerified : Bool
deriving DecidableEq

def SignatureWithStatus.setVerified (status : SignatureWithStatus) : SignatureWithStatus :=
  { status with isVerified := true }

/-- The fields of the verifier that change during a run. -/
structure OptimisticVerification where
  optimisticSigVerification : Bool
  pessimisticVerifySet : List AccountAddress

namespace ValidatorVerifier

variable {M : Type}

/-- Verify a signature now only if its author is not trusted. -/
def optimisticVerify (bls : Bls M) (verifier : ValidatorVerifier)
    (settings : OptimisticVerification) (author : AccountAddress) (message : M)
    (signature : SignatureWithStatus) : Except VerifyError SignatureWithStatus :=
  if (verifier.getPublicKey author).isNone then .error .unknownAuthor
  else if (!settings.optimisticSigVerification || settings.pessimisticVerifySet.contains author) &&
      !signature.isVerified then
    (verifier.verify bls author message signature.signature).map fun _ =>
      signature.setVerified
  else .ok signature

def keepsSignature (bls : Bls M) (verifier : ValidatorVerifier) (message : M)
    (author : AccountAddress) (signature : SignatureWithStatus) : Bool :=
  signature.isVerified || (verifier.verify bls author message signature.signature).isOk

/-- The kept signatures, now verified, and the authors of the others. -/
def filterInvalidSignatures (bls : Bls M) (verifier : ValidatorVerifier) (message : M)
    (signatures : SortedMap AccountAddress SignatureWithStatus) :
    SortedMap AccountAddress SignatureWithStatus × List AccountAddress :=
  (signatures.filterMap fun author signature =>
      if verifier.keepsSignature bls message author signature then
        some signature.setVerified
      else none,
    (signatures.entries.filter fun entry =>
      !verifier.keepsSignature bls message entry.1 entry.2).map Prod.fst)

end ValidatorVerifier

/-- The signatures received on one message. -/
structure SignatureAggregator (M : Type) where
  data : M
  signatures : SortedMap AccountAddress SignatureWithStatus

namespace SignatureAggregator

variable {M : Type}

def new (data : M) : SignatureAggregator M := ⟨data, SortedMap.empty⟩

variable (aggregator : SignatureAggregator M)

/-- A later signature of an author replaces the earlier one. -/
def addSignature (validator : AccountAddress)
    (signature : SignatureWithStatus) : SignatureAggregator M :=
  { aggregator with
    signatures := aggregator.signatures.insert validator signature }

def allVoters : List AccountAddress :=
  aggregator.signatures.keys

def checkVotingPower (verifier : ValidatorVerifier)
    (checkSuperMajority : Bool) : Except VerifyError Nat :=
  verifier.checkVotingPower aggregator.allVoters checkSuperMajority

def allSignatures : List (AccountAddress × Signature) :=
  aggregator.signatures.entries.map fun entry =>
    (entry.1, entry.2.signature)

def tryAggregate (bls : Bls M) (aggregator : SignatureAggregator M) (verifier : ValidatorVerifier) :
    Except VerifyError AggregateSignature := do
  let _ ← aggregator.checkVotingPower verifier true
  verifier.aggregateSignatures bls aggregator.allSignatures

def filterInvalidSignatures (bls : Bls M) (aggregator : SignatureAggregator M)
    (verifier : ValidatorVerifier) : SignatureAggregator M × List AccountAddress :=
  let (kept, rejected) := verifier.filterInvalidSignatures bls aggregator.data aggregator.signatures
  ({ aggregator with signatures := kept }, rejected)

/-- Aggregate all signatures if the power is enough, and once more without the invalid ones;
also returns who joins the pessimistic set. -/
def aggregateAndVerify (bls : Bls M) (aggregator : SignatureAggregator M)
    (verifier : ValidatorVerifier) :
    Except VerifyError (M × AggregateSignature) × SignatureAggregator M × List AccountAddress :=
  match aggregator.tryAggregate bls verifier with
  | .error failure => (.error failure, aggregator, [])
  | .ok aggregatedSig =>
    match verifier.verifyMultiSignatures bls aggregator.data aggregatedSig with
    | .ok _ => (.ok (aggregator.data, aggregatedSig), aggregator, [])
    | .error _ =>
      let (filtered, rejected) := aggregator.filterInvalidSignatures bls verifier
      ((filtered.tryAggregate bls verifier).map fun aggregatedSig =>
          (filtered.data, aggregatedSig),
        filtered, rejected)

end SignatureAggregator

end LumioNode
