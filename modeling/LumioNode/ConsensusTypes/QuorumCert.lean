import LumioNode.Library.Fallible
import LumioNode.Library.SortedMap
import LumioNode.Types.LedgerInfo

/-!
# Quorum certificates, and the timeouts of the 2-chain protocol
-/

namespace LumioNode

open Library

/-- A vote is cast on a proposed block together with its parent. -/
structure VoteData where
  proposed : BlockInfo
  parent : BlockInfo
deriving DecidableEq

def VoteData.verify (voteData : VoteData) : Except String Unit := do
  ensure (voteData.parent.epoch = voteData.proposed.epoch) "Parent and proposed epochs do not match"
  ensure (voteData.parent.round < voteData.proposed.round)
    "Proposed round is less than parent round"
  ensure (voteData.parent.timestampUsecs ≤ voteData.proposed.timestampUsecs)
    "Proposed happened before parent"
  ensure (voteData.proposed.version = 0 ∨ voteData.parent.version ≤ voteData.proposed.version)
    "Proposed version is less than parent version"

structure QuorumCert where
  voteData : VoteData
  signedLedgerInfo : LedgerInfoWithSignatures
deriving DecidableEq

namespace QuorumCert

def certifiedBlock (cert : QuorumCert) : BlockInfo := cert.voteData.proposed

def parentBlock (cert : QuorumCert) : BlockInfo := cert.voteData.parent

def commitInfo (cert : QuorumCert) : BlockInfo := cert.signedLedgerInfo.ledgerInfo.commitInfo

def endsEpoch (cert : QuorumCert) : Bool := cert.signedLedgerInfo.ledgerInfo.endsEpoch

/-- `QuorumCert::verify`; round zero stands for a genesis block without signatures. -/
def verify (bls : Bls LedgerInfo) (voteDataHash : VoteData → HashValue) (cert : QuorumCert)
    (validator : ValidatorVerifier) : Except String Unit := do
  ensure (cert.signedLedgerInfo.ledgerInfo.consensusDataHash = voteDataHash cert.voteData)
    "Quorum Cert's hash mismatch LedgerInfo"
  if cert.certifiedBlock.round = 0 then
    ensure (cert.parentBlock = cert.certifiedBlock)
      "Genesis QC has inconsistent parent block with certified block"
    ensure (cert.certifiedBlock = cert.commitInfo)
      "Genesis QC has inconsistent commit block with certified block"
    ensure (cert.signedLedgerInfo.getNumVoters = 0) "Genesis QC should not carry signatures"
  else
    (cert.signedLedgerInfo.verifySignatures bls validator).mapError
      fun _ => "Fail to verify QuorumCert"
    cert.voteData.verify

end QuorumCert

/-- A signed ledger info without a check of its vote data. -/
structure WrappedLedgerInfo where
  voteData : VoteData
  signedLedgerInfo : LedgerInfoWithSignatures
deriving DecidableEq

namespace WrappedLedgerInfo

def commitInfo (wrapped : WrappedLedgerInfo) : BlockInfo :=
  wrapped.signedLedgerInfo.ledgerInfo.commitInfo

def createMergedWithExecutedState (wrapped : WrappedLedgerInfo)
    (executed : LedgerInfoWithSignatures) : Except String WrappedLedgerInfo := do
  ensure (wrapped.commitInfo.matchOrderedOnly executed.ledgerInfo.commitInfo)
    "Block info from QC and executed LI need to match"
  return ⟨wrapped.voteData, executed⟩

end WrappedLedgerInfo

def QuorumCert.intoWrappedLedgerInfo (cert : QuorumCert) : WrappedLedgerInfo :=
  ⟨cert.voteData, cert.signedLedgerInfo⟩

structure TwoChainTimeout where
  epoch : Nat
  round : Nat
  quorumCert : QuorumCert
deriving DecidableEq

/-- What validators sign, without the certificate's signatures. -/
structure TimeoutSigningRepr where
  epoch : Nat
  round : Nat
  hqcRound : Nat
deriving DecidableEq

namespace TwoChainTimeout

def hqcRound (timeout : TwoChainTimeout) : Nat := timeout.quorumCert.certifiedBlock.round

def signingFormat (timeout : TwoChainTimeout) : TimeoutSigningRepr :=
  ⟨timeout.epoch, timeout.round, timeout.hqcRound⟩

def verify (bls : Bls LedgerInfo) (voteDataHash : VoteData → HashValue) (timeout : TwoChainTimeout)
    (validators : ValidatorVerifier) : Except String Unit := do
  ensure (timeout.hqcRound < timeout.round) "Timeout round should be larger than the QC round"
  timeout.quorumCert.verify bls voteDataHash validators

end TwoChainTimeout

/-- An aggregated signature with the signers' rounds, in the order of the bitmask. -/
structure AggregateSignatureWithRounds where
  sig : AggregateSignature
  rounds : List Nat
deriving DecidableEq

/-- `get_signers_addresses`: the addresses at the set positions. -/
def AggregateSignature.getSignersAddresses (signature : AggregateSignature)
    (addresses : List AccountAddress) : List AccountAddress :=
  addresses.zipIdx.filterMap fun (address, index) =>
    if signature.validatorBitmask.isSet (ValidatorVerifier.asU16 index)
    then some address else none

def AggregateSignatureWithRounds.getVotersAndRounds (signatures : AggregateSignatureWithRounds)
    (orderedValidatorAddresses : List AccountAddress) : List (AccountAddress × Nat) :=
  (signatures.sig.getSignersAddresses orderedValidatorAddresses).zip signatures.rounds

/-- A quorum timed out in a round; carries the timeout with the highest certificate. -/
structure TwoChainTimeoutCertificate where
  timeout : TwoChainTimeout
  signaturesWithRounds : AggregateSignatureWithRounds
deriving DecidableEq

namespace TwoChainTimeoutCertificate

variable (cert : TwoChainTimeoutCertificate)

def epoch : Nat := cert.timeout.epoch

def round : Nat := cert.timeout.round

def highestHqcRound : Nat := cert.timeout.hqcRound

/-- Each signer's message: its own round under the certificate's epoch and round. -/
def timeoutMessages
    (validators : ValidatorVerifier) : List TimeoutSigningRepr :=
  (cert.signaturesWithRounds.getVotersAndRounds
    validators.getOrderedAccountAddresses).map fun (_, round) =>
      ⟨cert.timeout.epoch, cert.timeout.round, round⟩

def verify (bls : Bls LedgerInfo) (blsTimeout : Bls TimeoutSigningRepr)
    (voteDataHash : VoteData → HashValue) (cert : TwoChainTimeoutCertificate)
    (validators : ValidatorVerifier) : Except String Unit := do
  cert.timeout.verify bls voteDataHash validators
  (validators.verifyAggregateSignatures blsTimeout (cert.timeoutMessages validators)
    cert.signaturesWithRounds.sig).mapError VerifyError.message
  match cert.signaturesWithRounds.rounds.max? with
  | none => .error "Empty rounds"
  | some signedHqc =>
    ensure (cert.timeout.hqcRound = signedHqc) ("Inconsistent hqc round, qc has round " ++
        toString cert.timeout.hqcRound ++ ", highest signed round " ++
        toString signedHqc)

/-- The timeout and the signatures were accepted, and no round is above the carried one. -/
theorem verify_eq_ok {bls : Bls LedgerInfo} {blsTimeout : Bls TimeoutSigningRepr}
    {voteDataHash : VoteData → HashValue}
    {cert : TwoChainTimeoutCertificate} {validators : ValidatorVerifier} :
    cert.verify bls blsTimeout voteDataHash validators = .ok () ↔
      cert.timeout.verify bls voteDataHash validators = .ok () ∧
        validators.verifyAggregateSignatures blsTimeout (cert.timeoutMessages validators)
          cert.signaturesWithRounds.sig = .ok () ∧
        cert.signaturesWithRounds.rounds.max? = some cert.timeout.hqcRound := by
  unfold verify
  simp only [bind_eq_ok, mapError_eq_ok]
  cases rounds : cert.signaturesWithRounds.rounds.max? with
  | none => simp
  | some =>
    simp only [ensure_eq_ok, Option.some.injEq]
    constructor
    · rintro ⟨_, timeoutOk, _, signed, highest⟩
      exact ⟨timeoutOk, signed, highest.symm⟩
    · rintro ⟨timeoutOk, signed, highest⟩
      exact ⟨(), timeoutOk, (), signed, highest.symm⟩

end TwoChainTimeoutCertificate

/-- Signatures collected so far, with the round each author signed. -/
abbrev PartialSignaturesWithRound := SortedMap AccountAddress (Nat × Signature)

namespace PartialSignaturesWithRound

/-- Keeps the first signature of an author. -/
def addSignature (signatures : PartialSignaturesWithRound) (validator : AccountAddress)
    (round : Nat) (signature : Signature) : PartialSignaturesWithRound :=
  signatures.orInsert validator (round, signature)

/-- Signatures of known validators by address, and rounds by validator index. -/
def getPartialSigWithRounds (signatures : PartialSignaturesWithRound)
    (addressToValidatorIndex : AccountAddress → Option Nat) :
    List (AccountAddress × Signature) × List Nat :=
  let known := signatures.entries.filterMap fun (address, round, sig) =>
    (addressToValidatorIndex address).map fun index =>
      (address, index, round, sig)
  (known.map fun (address, _, _, sig) => (address, sig), (known.foldl
      (fun (rounds : SortedMap Nat Nat) (_, index, round, _) =>
        rounds.insert index round)
      SortedMap.empty).entries.map Prod.snd)

end PartialSignaturesWithRound

structure TwoChainTimeoutWithPartialSignatures where
  timeout : TwoChainTimeout
  signatures : PartialSignaturesWithRound

namespace TwoChainTimeoutWithPartialSignatures

def new (timeout : TwoChainTimeout) : TwoChainTimeoutWithPartialSignatures :=
  ⟨timeout, SortedMap.empty⟩

def signers (collected : TwoChainTimeoutWithPartialSignatures) : List AccountAddress :=
  collected.signatures.keys

/-- Add a timeout, which replaces the carried one if its certificate is higher. -/
def add (collected : TwoChainTimeoutWithPartialSignatures) (author : Author)
    (timeout : TwoChainTimeout) (signature : Signature) : TwoChainTimeoutWithPartialSignatures where
  timeout := if timeout.hqcRound > collected.timeout.hqcRound then timeout
    else collected.timeout
  signatures := PartialSignaturesWithRound.addSignature collected.signatures author
      timeout.hqcRound signature

/-- Aggregate the partial signatures; `none` is the panic of an assertion. -/
def aggregateSignatures (blsTimeout : Bls TimeoutSigningRepr)
    (collected : TwoChainTimeoutWithPartialSignatures) (verifier : ValidatorVerifier) :
    Option (Except VerifyError TwoChainTimeoutCertificate) :=
  let (partialSig, orderedRounds) :=
    PartialSignaturesWithRound.getPartialSigWithRounds collected.signatures
      verifier.addressToValidatorIndex
  match verifier.aggregateSignatures blsTimeout partialSig with
  | .error failure => some (.error failure)
  | .ok aggregatedSig =>
    if aggregatedSig.validatorBitmask.countOnes = orderedRounds.length then
      some (.ok ⟨collected.timeout, ⟨aggregatedSig, orderedRounds⟩⟩)
    else none

end TwoChainTimeoutWithPartialSignatures

end LumioNode
