import Mathlib.Order.Fin.Basic
import Mathlib.Data.List.GetD
import Mathlib.Data.List.Range
import Mathlib.Tactic.Ring
import Mathlib.Algebra.BigOperators.Group.List.Basic

/-! # `ValidatorVerifier`

Hash values and addresses are numbers below `2 ^ 256`.  The operations of BLS are the
fields of `Bls`.  Fields that change during a run are passed where they are read, and a
bit vector is kept position by position. -/

namespace LumioNode

abbrev HashValue := Fin (2 ^ 256)

instance HashValue.neZero : NeZero (2 ^ 256) := ⟨(Nat.two_pow_pos 256).ne'⟩

def HashValue.zero : HashValue := 0

abbrev AccountAddress := Fin (2 ^ 256)

abbrev Author := AccountAddress

abbrev Signature := List UInt8

abbrev PublicKey := List UInt8

abbrev PrivateKey := List UInt8

def u64Max : Nat := 2 ^ 64 - 1

def checkedAdd (left right : Nat) : Option Nat :=
  if left + right ≤ u64Max then some (left + right) else none

theorem checkedAdd_eq_some {left right sum : Nat} :
    checkedAdd left right = some sum ↔ left + right ≤ u64Max ∧ left + right = sum := by
  unfold checkedAdd
  split <;> simp_all

/-- The BLS operations on messages of type `M`, which include the type's hasher seed. -/
structure Bls (M : Type) where
  /-- `Signature::verify`, also used on a multi-signature with an aggregated key. -/
  verify : PublicKey → M → Signature → Bool
  /-- `Signature::aggregate`. -/
  aggregate : List Signature → Option Signature
  /-- `PublicKey::aggregate`. -/
  aggregateKeys : List PublicKey → Option PublicKey
  /-- `Signature::verify_aggregate`. -/
  verifyAggregate : Signature → List M → List PublicKey → Bool
  sign : PrivateKey → M → Option Signature
  publicKey : PrivateKey → PublicKey

/-- A scheme for small runs: the valid signatures are empty. -/
def Bls.ofEmpty (M : Type) : Bls M where
  verify _ _ signature := signature.isEmpty
  aggregate signatures := if signatures.isEmpty then none else some signatures.flatten
  aggregateKeys := List.head?
  verifyAggregate signature messages keys :=
    signature.isEmpty && keys.length == messages.length
  sign _ _ := some []
  publicKey := id

/-- Values of type `N`, each signed as the message that `message` makes of it. -/
def Bls.on {M N : Type} (bls : Bls M) (message : N → M) : Bls N where
  verify key value := bls.verify key (message value)
  aggregate := bls.aggregate
  aggregateKeys := bls.aggregateKeys
  verifyAggregate signature values := bls.verifyAggregate signature (values.map message)
  sign key value := bls.sign key (message value)
  publicKey := bls.publicKey

def bucketSize : Nat := 8

/-- Bits are stored position by position; only whole buckets exist. -/
structure ValidatorBitVec where
  bits : List Bool
  wholeBuckets : bits.length % bucketSize = 0
deriving DecidableEq

namespace ValidatorBitVec

open List

def requiredBuckets (numBits : Nat) : Nat :=
  if numBits = 0 then 0 else (numBits - 1) / bucketSize + 1

variable (vector : ValidatorBitVec)

def numBuckets : Nat := vector.bits.length / bucketSize

/-- `BitVec::is_set`: positions past the last bucket are not set. -/
def isSet (position : Nat) : Bool := vector.bits.getD position false

def withNumBits (numBits : Nat) : ValidatorBitVec where
  bits := List.replicate (requiredBuckets numBits * bucketSize) false
  wholeBuckets := by simp

def empty : ValidatorBitVec where
  bits := []
  wholeBuckets := rfl

/-- The bits after `inner.resize(bucket + 1, 0)`, when that grows. -/
def resized (bits : List Bool) (position : Nat) : List Bool := bits ++ List.replicate
      ((position / bucketSize + 1) * bucketSize - bits.length) false

theorem length_resized (bits : List Bool) (position : Nat) : (resized bits position).length =
    max bits.length ((position / bucketSize + 1) * bucketSize) := by
  simp only [resized, length_append, length_replicate]
  omega

def set (position : Nat) : ValidatorBitVec where
  bits := (resized vector.bits position).set position true
  wholeBuckets := by
    rw [length_set, length_resized]
    rcases Nat.le_total vector.bits.length
      ((position / bucketSize + 1) * bucketSize) with grows | fits
    · rw [Nat.max_eq_right grows]
      exact Nat.mul_mod_left _ _
    · rw [Nat.max_eq_left fits]
      exact vector.wholeBuckets

def countOnes : Nat := vector.bits.count true

/-- `BitVec::iter_ones`: the set positions in increasing order. -/
def iterOnes : List Nat :=
  (List.range vector.bits.length).filter vector.isSet

def lastSetBit : Option Nat := vector.iterOnes.getLast?

@[simp]
theorem mem_iterOnes {vector : ValidatorBitVec} {position : Nat} :
    position ∈ vector.iterOnes ↔ vector.isSet position = true := by
  rw [iterOnes, mem_filter, mem_range]
  refine ⟨fun member => member.2, fun isOne => ⟨?_, isOne⟩⟩
  by_contra beyond
  rw [isSet, getD_eq_default _ _ (Nat.le_of_not_lt beyond)] at isOne
  cases isOne

theorem iterOnes_sorted : vector.iterOnes.Pairwise (· < ·) :=
  List.Pairwise.filter _ pairwise_lt_range

theorem iterOnes_nodup : vector.iterOnes.Nodup :=
  List.Pairwise.imp (fun less => Nat.ne_of_lt less) vector.iterOnes_sorted

theorem isSet_withNumBits (numBits position : Nat) :
    (withNumBits numBits).isSet position = false := by
  simp only [isSet, withNumBits, getD_eq_getElem?_getD, List.getElem?_replicate]
  split <;> rfl

theorem isSet_set (target position : Nat) :
    (vector.set target).isSet position = (decide (position = target) || vector.isSet position) := by
  have grown : target < (resized vector.bits target).length := by
    rw [length_resized]
    have := Nat.div_add_mod target bucketSize
    have := Nat.mod_lt target (show 0 < bucketSize by decide)
    have expand : (target / bucketSize + 1) * bucketSize =
          bucketSize * (target / bucketSize) + bucketSize := by ring
    omega
  have padded : (resized vector.bits target).getD position false =
      vector.bits.getD position false := by
    unfold resized
    rcases Nat.lt_or_ge position vector.bits.length with inside | beyond
    · rw [getD_append _ _ _ _ inside]
    · rw [getD_append_right _ _ _ _ beyond, getD_eq_default vector.bits _ beyond]
      simp only [getD_eq_getElem?_getD, List.getElem?_replicate]
      split <;> rfl
  unfold isSet set
  by_cases same : position = target
  · subst position
    simp [getD_eq_getElem?_getD, grown]
  · rw [← padded]
    simp [getD_eq_getElem?_getD, List.getElem?_set_ne (Ne.symm same), same]

end ValidatorBitVec

inductive VerifyError where
  | unknownAuthor
  | tooLittleVotingPower (votingPower expectedVotingPower : Nat)
  | emptySignature
  | invalidMultiSignature
  | invalidAggregatedSignature
  | inconsistentBlockInfo
  | failedToAggregatePubKey
  | failedToAggregateSignature
  | failedToVerifyMultiSignature
  | invalidBitVec
  | failedToVerifyAggregatedSignature
deriving DecidableEq, Repr

def VerifyError.message : VerifyError → String
  | unknownAuthor => "Author is unknown"
  | tooLittleVotingPower votingPower expectedVotingPower =>
    "The voting power (" ++ toString votingPower ++ ") is less than expected voting power (" ++
      toString expectedVotingPower ++ ")"
  | emptySignature => "Signature is empty"
  | invalidMultiSignature => "Multi signature is invalid"
  | invalidAggregatedSignature => "Aggregated signature is invalid"
  | inconsistentBlockInfo => "Inconsistent Block Info"
  | failedToAggregatePubKey => "Failed to aggregate public keys"
  | failedToAggregateSignature => "Failed to aggregate signatures"
  | failedToVerifyMultiSignature => "Failed to verify multi-signature"
  | invalidBitVec => "Invalid bitvec from the multi-signature"
  | failedToVerifyAggregatedSignature =>
    "Failed to verify aggreagated signature"

structure ValidatorConsensusInfo where
  address : AccountAddress
  publicKey : PublicKey
  votingPower : Nat
deriving DecidableEq

/-- A signature of several validators with the positions of the signers. -/
structure AggregateSignature where
  validatorBitmask : ValidatorBitVec
  sig : Option Signature
deriving DecidableEq

def AggregateSignature.empty : AggregateSignature := ⟨ValidatorBitVec.empty, none⟩

structure ValidatorVerifier where
  validatorInfos : List ValidatorConsensusInfo
  quorumVotingPower : Nat
  totalVotingPower : Nat
deriving DecidableEq

namespace ValidatorVerifier

/-- The free function `sum_voting_power` over a list of validators. -/
def sumOfInfos (infos : List ValidatorConsensusInfo) : Nat :=
  (infos.map ValidatorConsensusInfo.votingPower).sum

/-- The quorum is `2f + 1`, or zero without validators. -/
def new (infos : List ValidatorConsensusInfo) : ValidatorVerifier where
  validatorInfos := infos
  quorumVotingPower := if infos.isEmpty then 0 else sumOfInfos infos * 2 / 3 + 1
  totalVotingPower := sumOfInfos infos

variable {M : Type}

variable (verifier : ValidatorVerifier)

/-- As `build_index` collects it: the last of several validators with one address. -/
def addressToValidatorIndex (address : AccountAddress) : Option Nat :=
  (List.range verifier.validatorInfos.length).reverse.find? fun index =>
    (verifier.validatorInfos[index]?).map ValidatorConsensusInfo.address == some address

def infoOf (author : AccountAddress) :
    Option ValidatorConsensusInfo :=
  (verifier.addressToValidatorIndex author).bind fun index =>
    verifier.validatorInfos[index]?

def getPublicKey (author : AccountAddress) : Option PublicKey :=
  (verifier.infoOf author).map ValidatorConsensusInfo.publicKey

def getVotingPower (author : AccountAddress) : Option Nat :=
  (verifier.infoOf author).map ValidatorConsensusInfo.votingPower

def len : Nat := verifier.validatorInfos.length

/-- The cast `as u16` of lengths and indices. -/
def asU16 (value : Nat) : Nat := value % 2 ^ 16

def verify (bls : Bls M) (verifier : ValidatorVerifier) (author : AccountAddress)
    (message : M) (signature : Signature) : Except VerifyError Unit :=
  match verifier.getPublicKey author with
  | some publicKey =>
    if bls.verify publicKey message signature then .ok ()
    else .error .invalidMultiSignature
  | none => .error .unknownAuthor

/-- Ensure there are not more than the maximum expected voters. -/
def checkNumOfVoters (numValidators : Nat) (bitvec : ValidatorBitVec) : Except VerifyError Unit :=
  if bitvec.numBuckets ≠ ValidatorBitVec.requiredBuckets numValidators then
    .error .invalidBitVec
  else
    match bitvec.lastSetBit with
    | some lastBit =>
      if lastBit ≥ numValidators then .error .invalidBitVec else .ok ()
    | none => .ok ()

/-- `sum_voting_power`: leaves at the first unknown author. -/
def sumVotingPower (verifier : ValidatorVerifier) : List AccountAddress → Except VerifyError Nat
  | [] => .ok 0
  | author :: rest =>
    match verifier.getVotingPower author with
    | none => .error .unknownAuthor
    | some votingPower =>
      (verifier.sumVotingPower rest).map (votingPower + ·)

def checkAggregatedVotingPower (aggregatedVotingPower : Nat)
    (checkSuperMajority : Bool) : Except VerifyError Nat :=
  let target := if checkSuperMajority then verifier.quorumVotingPower
    else verifier.totalVotingPower - verifier.quorumVotingPower + 1
  if aggregatedVotingPower < target then
    .error (.tooLittleVotingPower aggregatedVotingPower target)
  else .ok aggregatedVotingPower

/-- At least the quorum's voting power, and known authors only. -/
def checkVotingPower (authors : List AccountAddress)
    (checkSuperMajority : Bool) : Except VerifyError Nat := do
  let aggregatedVotingPower ← verifier.sumVotingPower authors
  verifier.checkAggregatedVotingPower aggregatedVotingPower checkSuperMajority

/-- The loop over `iter_ones` that collects the validators of a bitmask. -/
def signersOf (verifier : ValidatorVerifier) :
    List Nat → Except VerifyError (List ValidatorConsensusInfo)
  | [] => .ok []
  | index :: rest =>
    match verifier.validatorInfos[index]? with
    | none => .error .unknownAuthor
    | some validator => (verifier.signersOf rest).map (validator :: ·)

/-- The validators in the bitmask, once they hold a quorum. -/
def quorumSigners (bitmask : ValidatorBitVec) :
    Except VerifyError (List ValidatorConsensusInfo) := do
  checkNumOfVoters (asU16 verifier.len) bitmask
  let signers ← verifier.signersOf bitmask.iterOnes
  let _ ← verifier.checkVotingPower (signers.map ValidatorConsensusInfo.address) true
  return signers

/-- One signature on one message by a quorum of known authors. -/
def verifyMultiSignatures (bls : Bls M) (verifier : ValidatorVerifier) (message : M)
    (multiSignature : AggregateSignature) : Except VerifyError Unit := do
  let signers ← verifier.quorumSigners multiSignature.validatorBitmask
  match multiSignature.sig with
  | none => .error .emptySignature
  | some multiSig =>
    match bls.aggregateKeys (signers.map ValidatorConsensusInfo.publicKey) with
    | none => .error .failedToAggregatePubKey
    | some aggregatedKey =>
      if bls.verify aggregatedKey message multiSig then .ok ()
      else .error .invalidMultiSignature

/-- One signature by a quorum of known authors, each on a message of its own. -/
def verifyAggregateSignatures (bls : Bls M) (verifier : ValidatorVerifier) (messages : List M)
    (aggregatedSignature : AggregateSignature) : Except VerifyError Unit := do
  let signers ← verifier.quorumSigners aggregatedSignature.validatorBitmask
  match aggregatedSignature.sig with
  | none => .error .emptySignature
  | some aggregatedSig =>
    if bls.verifyAggregate aggregatedSig messages
        (signers.map ValidatorConsensusInfo.publicKey) then .ok ()
    else .error .invalidAggregatedSignature

/-- Sets a bit for each author and collects the signatures in the order given. -/
def collectSignatures (verifier : ValidatorVerifier) :
    ValidatorBitVec → List (AccountAddress × Signature) →
      Except VerifyError (ValidatorBitVec × List Signature)
  | masks, [] => .ok (masks, [])
  | masks, (address, signature) :: rest =>
    match verifier.addressToValidatorIndex address with
    | none => .error .unknownAuthor
    | some index =>
      (verifier.collectSignatures (masks.set (asU16 index)) rest).map
        fun (allMasks, signatures) => (allMasks, signature :: signatures)

def aggregateSignatures (bls : Bls M) (verifier : ValidatorVerifier)
    (signatures : List (AccountAddress × Signature)) : Except VerifyError AggregateSignature := do
  let (masks, sigs) ← verifier.collectSignatures
    (ValidatorBitVec.withNumBits (asU16 verifier.len)) signatures
  match bls.aggregate sigs with
  | none => .error .failedToAggregateSignature
  | some aggregatedSig => .ok ⟨masks, some aggregatedSig⟩

/-- The authors of a bitmask, without positions past the validator set. -/
def aggregateSignatureAuthors
    (aggregatedSignature : AggregateSignature) : List AccountAddress :=
  aggregatedSignature.validatorBitmask.iterOnes.filterMap fun index =>
    (verifier.validatorInfos[index]?).map ValidatorConsensusInfo.address

def getOrderedAccountAddresses : List AccountAddress :=
  verifier.validatorInfos.map ValidatorConsensusInfo.address

end ValidatorVerifier

end LumioNode
