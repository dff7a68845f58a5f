import LumioNode.Types.ValidatorVerifier

/-! # Ledger infos, epochs and waypoints

The texts of `anyhow::Error` are those that `to_string` gives. -/

namespace LumioNode

/-- `create_literal_hash`: the bytes of a word, padded with zeros. -/
def createLiteralHash (word : String) : HashValue := Fin.ofNat (2 ^ 256)
    (word.toList.foldl (fun value char => value * 256 + char.toNat) 0 * 256 ^ (32 - word.length))

def accumulatorPlaceholderHash : HashValue := createLiteralHash "ACCUMULATOR_PLACEHOLDER_HASH"

def sparseMerklePlaceholderHash : HashValue := createLiteralHash "SPARSE_MERKLE_PLACEHOLDER_HASH"

/-- `HashValue::to_hex`: two hexadecimal digits for each of the 32 bytes. -/
def HashValue.toHex (hash : HashValue) : String :=
  String.ofList <| (List.range 64).map fun position =>
    Nat.digitChar (hash.val / 16 ^ (63 - position) % 16)

/-- `Display for HashValue` prints the first four bytes. -/
def HashValue.display (hash : HashValue) : String := (hash.toHex.take 8).toString

structure EpochState where
  epoch : Nat
  verifier : ValidatorVerifier
deriving DecidableEq

structure BlockInfo where
  epoch : Nat
  round : Nat
  id : HashValue
  executedStateId : HashValue
  version : Nat
  timestampUsecs : Nat
  nextEpochState : Option EpochState
deriving DecidableEq

namespace BlockInfo

def empty : BlockInfo := ⟨0, 0, HashValue.zero, HashValue.zero, 0, 0, none⟩

def isEmpty (info : BlockInfo) : Bool := info == empty

def hasReconfiguration (info : BlockInfo) : Bool := info.nextEpochState.isSome

/-- The ordered block `info` is the executed block, up to execution results. -/
def matchOrderedOnly (info executed : BlockInfo) : Bool := info.epoch == executed.epoch
    && info.round == executed.round
    && info.id == executed.id
    && (info.timestampUsecs == executed.timestampUsecs
      || (decide (info.timestampUsecs > executed.timestampUsecs)
        && executed.hasReconfiguration))

end BlockInfo

structure LedgerInfo where
  commitInfo : BlockInfo
  consensusDataHash : HashValue
deriving DecidableEq

namespace LedgerInfo

variable (ledgerInfo : LedgerInfo)

def epoch : Nat := ledgerInfo.commitInfo.epoch

def version : Nat := ledgerInfo.commitInfo.version

def transactionAccumulatorHash : HashValue :=
  ledgerInfo.commitInfo.executedStateId

def nextEpochState : Option EpochState :=
  ledgerInfo.commitInfo.nextEpochState

def endsEpoch : Bool := ledgerInfo.nextEpochState.isSome

end LedgerInfo

structure LedgerInfoWithSignatures where
  ledgerInfo : LedgerInfo
  signatures : AggregateSignature
deriving DecidableEq

namespace LedgerInfoWithSignatures

def getNumVoters (signed : LedgerInfoWithSignatures) : Nat :=
  signed.signatures.validatorBitmask.countOnes

def verifySignatures (bls : Bls LedgerInfo) (signed : LedgerInfoWithSignatures)
    (verifier : ValidatorVerifier) : Except VerifyError Unit :=
  verifier.verifyMultiSignatures bls signed.ledgerInfo signed.signatures

end LedgerInfoWithSignatures

/-- The part of a ledger info that a waypoint fixes. -/
structure Ledger2WaypointConverter where
  epoch : Nat
  rootHash : HashValue
  version : Nat
  timestampUsecs : Nat
  nextEpochState : Option EpochState
deriving DecidableEq

def Ledger2WaypointConverter.new (ledgerInfo : LedgerInfo) : Ledger2WaypointConverter where
  epoch := ledgerInfo.epoch
  rootHash := ledgerInfo.commitInfo.executedStateId
  version := ledgerInfo.version
  timestampUsecs := ledgerInfo.commitInfo.timestampUsecs
  nextEpochState := ledgerInfo.nextEpochState

structure Waypoint where
  version : Nat
  value : HashValue
deriving DecidableEq

namespace Waypoint

variable (hash : Ledger2WaypointConverter → HashValue)

def newAny (ledgerInfo : LedgerInfo) : Waypoint :=
  ⟨ledgerInfo.version, hash (Ledger2WaypointConverter.new ledgerInfo)⟩

def newEpochBoundary (ledgerInfo : LedgerInfo) : Except String Waypoint :=
  if ledgerInfo.endsEpoch then .ok (newAny hash ledgerInfo)
  else .error "No validator set"

def verify (waypoint : Waypoint) (ledgerInfo : LedgerInfo) : Except String Unit :=
  let value := hash (Ledger2WaypointConverter.new ledgerInfo)
  if ledgerInfo.version ≠ waypoint.version then
    .error ("Waypoint version mismatch: waypoint version = " ++
      toString waypoint.version ++ ", given version = " ++
      toString ledgerInfo.version)
  else if value ≠ waypoint.value then
    .error ("Waypoint value mismatch: waypoint value = " ++
      waypoint.value.toHex ++ ", given value = " ++ value.toHex)
  else .ok ()

def isLedgerInfoStale (waypoint : Waypoint) (ledgerInfo : LedgerInfo) : Bool :=
  decide (ledgerInfo.version < waypoint.version)

end Waypoint

def EpochState.verify (bls : Bls LedgerInfo) (epochState : EpochState)
    (signed : LedgerInfoWithSignatures) : Except String Unit :=
  if epochState.epoch ≠ signed.ledgerInfo.epoch then
    .error ("LedgerInfo has unexpected epoch " ++
      toString signed.ledgerInfo.epoch ++ ", expected " ++
      toString epochState.epoch)
  else
    (signed.verifySignatures bls epochState.verifier).mapError VerifyError.message

/-- The verifier that the next ledger info of a proof is checked with. -/
inductive ChangeVerifier where
  | waypoint (waypoint : Waypoint)
  | epochState (epochState : EpochState)

structure EpochChangeProof where
  ledgerInfoWithSigs : List LedgerInfoWithSignatures
  more : Bool

namespace EpochChangeProof

variable (bls : Bls LedgerInfo)
variable (hash : Ledger2WaypointConverter → HashValue)

def verifyOne (verifier : ChangeVerifier) (signed : LedgerInfoWithSignatures) :
    Except String Unit :=
  match verifier with
  | .waypoint waypoint => waypoint.verify hash signed.ledgerInfo
  | .epochState epochState => epochState.verify bls signed

/-- Each ledger info is checked by the epoch state of the one before it. -/
def verifyChain : ChangeVerifier → List LedgerInfoWithSignatures → Except String Unit
  | _, [] => .ok ()
  | verifier, signed :: rest => do
      verifyOne bls hash verifier signed
      match signed.ledgerInfo.nextEpochState with
      | none => .error "LedgerInfo doesn't carry a ValidatorSet"
      | some epochState => verifyChain (.epochState epochState) rest

/-- `EpochChangeProof::verify`; ledger infos older than the waypoint are skipped. -/
def verify (proof : EpochChangeProof) (waypoint : Waypoint) :
    Except String LedgerInfoWithSignatures :=
  match proof.ledgerInfoWithSigs.getLast? with
  | none => .error "The EpochChangeProof is empty"
  | some last =>
    if waypoint.isLedgerInfoStale last.ledgerInfo then
      .error ("The EpochChangeProof is stale as our verifier is " ++
        "already ahead of the entire EpochChangeProof")
    else
      (verifyChain bls hash (.waypoint waypoint) (proof.ledgerInfoWithSigs.dropWhile fun signed =>
          waypoint.isLedgerInfoStale signed.ledgerInfo)).map
        fun _ => last

end EpochChangeProof

/-- An author with its key; `private_key` is shared with the key store. -/
structure ValidatorSigner where
  author : AccountAddress
  privateKey : PrivateKey
deriving DecidableEq

def ValidatorSigner.publicKey {M : Type} (bls : Bls M) (signer : ValidatorSigner) : PublicKey :=
  bls.publicKey signer.privateKey

end LumioNode
