import LumioNode.ConsensusTypes.Block
import LumioNode.Types.SignatureAggregation

/-! # Votes, order votes and timeout messages

The verification flag is ignored by equality and false on votes of the safety rules, so
`Vote` keeps the signature alone; a received vote comes with the flag. -/

namespace LumioNode

open Library

structure Vote where
  voteData : VoteData
  author : Author
  ledgerInfo : LedgerInfo
  signature : Signature
  twoChainTimeout : Option (TwoChainTimeout × Signature)
deriving DecidableEq

namespace Vote

def newWithSignature (voteData : VoteData) (author : Author)
    (ledgerInfo : LedgerInfo) (signature : Signature) : Vote :=
  ⟨voteData, author, ledgerInfo, signature, none⟩

def epoch (vote : Vote) : Nat := vote.voteData.proposed.epoch

def round (vote : Vote) : Nat := vote.voteData.proposed.round

def isTimeout (vote : Vote) : Bool := vote.twoChainTimeout.isSome

end Vote

structure OrderVote where
  author : Author
  ledgerInfo : LedgerInfo
  signature : Signature
deriving DecidableEq

/-- The persisted state of the safety rules. -/
structure SafetyData where
  epoch : Nat
  lastVotedRound : Nat
  preferredRound : Nat
  oneChainRound : Nat
  lastVote : Option Vote
  highestTimeoutRound : Nat
deriving DecidableEq

structure RoundTimeout where
  timeout : TwoChainTimeout
  author : Author
  signature : Signature
deriving DecidableEq

/-- Code outside this crate: signatures on the two kinds of messages, and hashes. -/
structure VotingEnv where
  blsLedgerInfo : Bls LedgerInfo
  blsTimeout : Bls TimeoutSigningRepr
  voteDataHash : VoteData → HashValue
  ledgerInfoHash : LedgerInfo → HashValue

def TwoChainTimeout.verifySigned (env : VotingEnv) (timeout : TwoChainTimeout) (author : Author)
    (signature : Signature) (validator : ValidatorVerifier) : Except String Unit := do
  timeout.verify env.blsLedgerInfo env.voteDataHash validator
  (validator.verify env.blsTimeout author timeout.signingFormat
    signature).mapError fun _ => "Failed to verify 2-chain timeout signature"

def RoundTimeout.verify (env : VotingEnv) (roundTimeout : RoundTimeout)
    (validator : ValidatorVerifier) : Except String Unit :=
  roundTimeout.timeout.verifySigned env roundTimeout.author roundTimeout.signature validator

structure ReceivedVote where
  vote : Vote
  isVerified : Bool
deriving DecidableEq

namespace ReceivedVote

def author (received : ReceivedVote) : Author := received.vote.author

def ledgerInfo (received : ReceivedVote) : LedgerInfo := received.vote.ledgerInfo

def signatureWithStatus (received : ReceivedVote) : SignatureWithStatus :=
  ⟨received.vote.signature, received.isVerified⟩

/-- The timeout that a vote carries is one of the vote's epoch and round. -/
def verifyTimeout (env : VotingEnv) (received : ReceivedVote)
    (validator : ValidatorVerifier) : Except String Unit :=
  match received.vote.twoChainTimeout with
  | none => .ok ()
  | some (timeout, signature) => do
      ensure ((timeout.epoch, timeout.round) = (received.vote.epoch, received.vote.round))
        "2-chain timeout has different (epoch, round) than Vote"
      timeout.verifySigned env received.author signature validator

def verify (env : VotingEnv) (received : ReceivedVote) (validator : ValidatorVerifier)
    (settings : OptimisticVerification) : Except String Unit := do
  ensure (received.ledgerInfo.consensusDataHash = env.voteDataHash received.vote.voteData)
    "Vote's hash mismatch with LedgerInfo"
  let _ ← (validator.optimisticVerify env.blsLedgerInfo settings received.author received.ledgerInfo
    received.signatureWithStatus).mapError fun _ => "Failed to verify Vote"
  received.verifyTimeout env validator
  received.vote.voteData.verify

end ReceivedVote

end LumioNode
