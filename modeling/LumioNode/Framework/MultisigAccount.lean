import LumioNode.Library.Fallible
import LumioNode.Library.SortedMap
import LumioNode.Library.SwapVector

/-! # Multisig accounts

Owners create transactions, vote on them and remove rejected ones.  An execution
validates the next one, runs its payload, which may call the module, and cleans up. -/

namespace LumioNode.Framework.Multisig

open Library

abbrev Bytes := List UInt8

/-- The module's error constants, an addition past `u64`, and keys missing or twice. -/
inductive MultisigAbort where
  | notOwner
  | transactionNotFound
  | notEnoughApprovals
  | notEnoughRejections
  | payloadCannotBeEmpty
  | invalidPayloadHash
  | payloadDoesNotMatchHash
  | payloadDoesNotMatch
  | invalidSequenceNumber
  | maxPendingTransactionsExceeded
  | multisigV2EnhancementNotEnabled
  | ownerCannotBeMultisigAccountItself
  | duplicateOwner
  | ownersToRemoveNewOwnersOverlap
  | invalidSignaturesRequired
  | notEnoughOwners
  | arithmetic
  | table
deriving DecidableEq, Repr

abbrev Checked := Except MultisigAbort

structure MultisigTransaction where
  payload : Option Bytes
  payloadHash : Option Bytes
  votes : SortedMap Nat Bool
  stored : payload.isSome ∨ payloadHash.isSome

/-- A transaction with the owners and threshold for which votes are counted. -/
structure Counted where
  sequenceNumber : Nat
  transaction : MultisigTransaction
  owners : List Nat
  numSignaturesRequired : Nat

structure Execution where
  counted : Counted
  executor : Nat
  payload : Bytes

/-- The event that a transaction left the queue, executed or rejected. -/
structure Departure extends Counted where
  execution : Option Execution

/-- The resource, with the events of its history. -/
structure MultisigAccount where
  owners : List Nat
  numSignaturesRequired : Nat
  transactions : SortedMap Nat MultisigTransaction
  lastExecutedSequenceNumber : Nat
  nextSequenceNumber : Nat
  departures : List Departure

/-- The features that the module reads. -/
structure Features where
  multisigV2Enhancement : Bool
  abortIfMultisigPayloadMismatch : Bool

def maxPendingTransactions : Nat := 20

def successor (number : Nat) : Checked Nat :=
  if number + 1 < 2 ^ 64 then .ok (number + 1) else .error .arithmetic

def numApprovalsAndRejections (owners : List Nat) (transaction : MultisigTransaction) : Nat × Nat :=
  (owners.countP (transaction.votes.get? · = some true),
    owners.countP (transaction.votes.get? · = some false))

namespace MultisigAccount

variable (self : Nat) (sha3 : Bytes → Bytes) (features : Features) (account : MultisigAccount)

def validateOwners (distinctOwners : List Nat) : List Nat → Checked Unit
  | [] => .ok ()
  | owner :: owners => do
    ensure (owner ≠ self) .ownerCannotBeMultisigAccountItself
    ensure (owner ∉ distinctOwners) .duplicateOwner
    validateOwners (distinctOwners ++ [owner]) owners

def createWithOwners (owners : List Nat) (numSignaturesRequired : Nat) :
    Checked MultisigAccount := do
  ensure (0 < numSignaturesRequired ∧ numSignaturesRequired ≤ owners.length)
    .invalidSignaturesRequired
  validateOwners self [] owners
  return ⟨owners, numSignaturesRequired, .empty, 0, 1, []⟩

def assertIsOwner (owner : Nat) : Checked Unit := ensure (owner ∈ account.owners) .notOwner

/-- The transaction with a number that was given out. -/
def validTransaction (sequenceNumber : Nat) : Checked MultisigTransaction := do
  ensure (0 < sequenceNumber ∧ sequenceNumber < account.nextSequenceNumber)
    .invalidSequenceNumber
  expect .table (account.transactions.get? sequenceNumber)

def vote (sequenceNumber owner : Nat) : Checked (Option Bool) := do
  return (← account.validTransaction sequenceNumber).votes.get? owner

def canBeExecuted (sequenceNumber : Nat) : Checked Bool := do
  let transaction ← account.validTransaction sequenceNumber
  return sequenceNumber = account.lastExecutedSequenceNumber + 1 ∧
    account.numSignaturesRequired ≤ (numApprovalsAndRejections account.owners transaction).1

variable (owner sequenceNumber : Nat)

def canExecute : Checked Bool := do
  let transaction ← account.validTransaction sequenceNumber
  let ownVote ← account.vote sequenceNumber owner
  let approvals := (numApprovalsAndRejections account.owners transaction).1 +
    if ownVote = some true then 0 else 1
  return owner ∈ account.owners ∧ sequenceNumber = account.lastExecutedSequenceNumber + 1 ∧
    account.numSignaturesRequired ≤ approvals

/-- Only with the enhancement does the executor count. -/
def hasEnoughApprovals : Checked Bool :=
  if features.multisigV2Enhancement then account.canExecute owner sequenceNumber
  else account.canBeExecuted sequenceNumber

def availableTransactionQueueCapacity : Nat :=
  maxPendingTransactions -
    (account.nextSequenceNumber - account.lastExecutedSequenceNumber - 1)

def addTransaction (creator : Nat) (transaction : MultisigTransaction) :
    Checked MultisigAccount := do
  if features.multisigV2Enhancement then
    ensure (0 < account.availableTransactionQueueCapacity) .maxPendingTransactionsExceeded
  let sequenceNumber := account.nextSequenceNumber
  let next ← successor sequenceNumber
  ensure (account.transactions.get? sequenceNumber = none) .table
  return { account with
    nextSequenceNumber := next
    transactions := account.transactions.insert sequenceNumber
      { transaction with votes := transaction.votes.insert creator true } }

def createTransaction (owner : Nat) (payload : Bytes) : Checked MultisigAccount := do
  ensure (0 < payload.length) .payloadCannotBeEmpty
  account.assertIsOwner owner
  account.addTransaction features owner ⟨some payload, none, .empty, .inl rfl⟩

def createTransactionWithHash (owner : Nat) (payloadHash : Bytes) : Checked MultisigAccount := do
  ensure (payloadHash.length = 32) .invalidPayloadHash
  account.assertIsOwner owner
  account.addTransaction features owner ⟨none, some payloadHash, .empty, .inr rfl⟩

/-- Called by `approve_transaction` and `reject_transaction`; the source's spelling. -/
def voteTransanction (approved : Bool) : Checked MultisigAccount := do
  account.assertIsOwner owner
  let transaction ← expect .transactionNotFound (account.transactions.get? sequenceNumber)
  return { account with
    transactions := account.transactions.insert sequenceNumber
      { transaction with votes := transaction.votes.insert owner approved } }

def voteTransactions (owner startingSequenceNumber finalSequenceNumber : Nat)
    (approved : Bool) : Checked MultisigAccount := do
  ensure (features.multisigV2Enhancement = true) .multisigV2EnhancementNotEnabled
  runAll (fun account sequenceNumber => account.voteTransanction owner sequenceNumber approved)
    account (List.range' startingSequenceNumber
      (finalSequenceNumber + 1 - startingSequenceNumber))

/-- Returns the votes of the transaction that left. -/
def removeExecutedTransaction (execution : Option Execution) :
    Checked (MultisigAccount × Nat × Nat) := do
  let sequenceNumber ← successor account.lastExecutedSequenceNumber
  let transaction ← expect .table (account.transactions.get? sequenceNumber)
  let counted := ⟨sequenceNumber, transaction, account.owners, account.numSignaturesRequired⟩
  return ({ account with
      transactions := account.transactions.erase sequenceNumber
      lastExecutedSequenceNumber := sequenceNumber
      departures := account.departures ++ [⟨counted, execution⟩] },
    numApprovalsAndRejections account.owners transaction)

def rejectImplicitly : Checked MultisigAccount := do
  if features.multisigV2Enhancement then
    if (← account.vote sequenceNumber owner) ≠ some false then
      return ← account.voteTransanction owner sequenceNumber false
  return account

def executeRejectedTransaction (owner : Nat) : Checked MultisigAccount := do
  account.assertIsOwner owner
  let sequenceNumber ← successor account.lastExecutedSequenceNumber
  let account ← account.rejectImplicitly features owner sequenceNumber
  let (after, _, numRejections) ← account.removeExecutedTransaction none
  ensure (after.numSignaturesRequired ≤ numRejections) .notEnoughRejections
  return after

/-- One transaction is removed in every round. -/
def executeRejectedTransactions (owner finalSequenceNumber : Nat) : Checked MultisigAccount := do
  ensure (features.multisigV2Enhancement = true) .multisigV2EnhancementNotEnabled
  let last := account.lastExecutedSequenceNumber
  ensure (last < finalSequenceNumber) .invalidSequenceNumber
  ensure (finalSequenceNumber < account.nextSequenceNumber) .invalidSequenceNumber
  runAll (executeRejectedTransaction features) account
    (List.replicate (finalSequenceNumber - last) owner)

def removeOwner (owners : List Nat) (owner : Nat) : List Nat :=
  if owner ∈ owners then swapRemove owners (owners.idxOf owner) else owners

def updateOwnerSchema (newOwners ownersToRemove : List Nat)
    (optionalNewNumSignaturesRequired : Option Nat) : Checked MultisigAccount := do
  ensure (∀ owner ∈ newOwners, owner ∉ ownersToRemove) .ownersToRemoveNewOwnersOverlap
  if 0 < newOwners.length then
    validateOwners self [] (account.owners ++ newOwners)
  let owners := ownersToRemove.foldl removeOwner (account.owners ++ newOwners)
  ensure (optionalNewNumSignaturesRequired ≠ some 0) .invalidSignaturesRequired
  let numSignaturesRequired :=
    optionalNewNumSignaturesRequired.getD account.numSignaturesRequired
  ensure (numSignaturesRequired ≤ owners.length) .notEnoughOwners
  return { account with owners, numSignaturesRequired }

def validateMultisigTransaction (owner : Nat) (payload : Bytes) : Checked Counted := do
  account.assertIsOwner owner
  let sequenceNumber ← successor account.lastExecutedSequenceNumber
  let transaction ← expect .transactionNotFound (account.transactions.get? sequenceNumber)
  let enough ← account.hasEnoughApprovals features owner sequenceNumber
  ensure (enough = true) .notEnoughApprovals
  ensure (∀ payloadHash ∈ transaction.payloadHash, sha3 payload = payloadHash)
    .payloadDoesNotMatchHash
  if features.abortIfMultisigPayloadMismatch ∧ payload ≠ [] then
    ensure (∀ storedPayload ∈ transaction.payload, payload = storedPayload)
      .payloadDoesNotMatch
  return ⟨sequenceNumber, transaction, account.owners, account.numSignaturesRequired⟩

def getNextTransactionPayload (providedPayload : Bytes) : Checked Bytes := do
  let sequenceNumber ← successor account.lastExecutedSequenceNumber
  let transaction ← expect .table (account.transactions.get? sequenceNumber)
  return transaction.payload.getD providedPayload

/-- `successful_transaction_execution_cleanup`, and the one for a failure. -/
def transactionExecutionCleanup (execution : Execution) : Checked MultisigAccount := do
  let sequenceNumber ← successor account.lastExecutedSequenceNumber
  let _ ← account.vote sequenceNumber execution.executor
  let (after, _) ← account.removeExecutedTransaction (some execution)
  return after

end MultisigAccount

/-- Calls of the module, by anyone who holds the signer they ask for. -/
inductive Call where
  | createTransaction (owner : Nat) (payload : Bytes)
  | createTransactionWithHash (owner : Nat) (payloadHash : Bytes)
  | voteTransanction (owner sequenceNumber : Nat) (approved : Bool)
  | voteTransactions (owner startingSequenceNumber finalSequenceNumber : Nat)
      (approved : Bool)
  | updateOwnerSchema (newOwners ownersToRemove : List Nat)
      (optionalNewNumSignaturesRequired : Option Nat)
  | executeRejectedTransaction (owner : Nat)
  | executeRejectedTransactions (owner finalSequenceNumber : Nat)

/-- A step of a history.  A payload is what it calls and whether it aborts. -/
inductive Step where
  | call (call : Call)
  | execute (executor : Nat) (providedPayload : Bytes) (calls : List Call) (aborts : Bool)

namespace MultisigAccount

variable (self : Nat) (sha3 : Bytes → Bytes) (features : Features) (account : MultisigAccount)

def performCall : Call → Checked MultisigAccount
  | .createTransaction owner payload => account.createTransaction features owner payload
  | .createTransactionWithHash owner hash =>
    account.createTransactionWithHash features owner hash
  | .voteTransanction owner number approved => account.voteTransanction owner number approved
  | .voteTransactions owner starting final approved =>
    account.voteTransactions features owner starting final approved
  | .updateOwnerSchema newOwners ownersToRemove required =>
    account.updateOwnerSchema self newOwners ownersToRemove required
  | .executeRejectedTransaction owner => account.executeRejectedTransaction features owner
  | .executeRejectedTransactions owner final =>
    account.executeRejectedTransactions features owner final

/-- What a payload leaves behind: nothing if it or one of its calls aborts. -/
def runPayload (calls : List Call) (aborts : Bool) : MultisigAccount :=
  match runAll (performCall self features) account calls, aborts with
  | .ok after, false => after
  | _, _ => account

/-- A step, under the features that are enabled at its time. -/
def perform : Features × Step → Checked MultisigAccount
  | (features, .call call) => account.performCall self features call
  | (features, .execute executor providedPayload calls aborts) => do
    let counted ← account.validateMultisigTransaction sha3 features executor providedPayload
    let payload ← account.getNextTransactionPayload providedPayload
    let after := account.runPayload self features calls aborts
    after.transactionExecutionCleanup ⟨counted, executor, payload⟩

end MultisigAccount

end LumioNode.Framework.Multisig
