import LumioNode.Framework.MultisigAccount

/-! # Why multisig transactions leave the queue

Approvals are counted at validation, but the cleanup reads the number again: a payload
that removes its own transaction makes it remove the next one, whose payload never ran. -/

namespace LumioNode.Framework.Multisig

open Library MultisigAccount List Option

variable {self : Nat} {sha3 : Bytes → Bytes} {features : Features}

@[simp]
theorem successor_eq_ok {number next : Nat} :
    successor number = .ok next ↔ number + 1 < 2 ^ 64 ∧ number + 1 = next := by
  unfold successor
  split <;> simp_all

/-- It was validated, its payload ran and enough owners approved, or enough rejected it. -/
def Departure.Justified (sha3 : Bytes → Bytes) (departure : Departure) : Prop :=
  departure.owners.Nodup ∧
  match departure.execution with
  | some ⟨counted, executor, payload⟩ =>
    counted.sequenceNumber = departure.sequenceNumber ∧ counted.owners.Nodup ∧
    (counted.transaction.payload = some payload ∨ counted.transaction.payload = none ∧
      counted.transaction.payloadHash = some (sha3 payload)) ∧
    executor ∈ counted.owners ∧
    counted.numSignaturesRequired ≤ counted.owners.countP fun owner =>
      owner = executor ∨ counted.transaction.votes.get? owner = some true
  | none =>
    departure.numSignaturesRequired ≤
      departure.owners.countP (departure.transaction.votes.get? · = some false)

/-- The queue holds the numbers after the last one that left; those before left in order and for
cause. -/
structure InOrder (sha3 : Bytes → Bytes) (account : MultisigAccount) : Prop where
  distinct : account.owners.Nodup
  ahead : account.lastExecutedSequenceNumber < account.nextSequenceNumber
  queued : ∀ number, (account.transactions.get? number).isSome ↔
    account.lastExecutedSequenceNumber < number ∧ number < account.nextSequenceNumber
  inOrder : account.departures.map (·.sequenceNumber) =
    List.range' 1 account.lastExecutedSequenceNumber
  justified : ∀ departure ∈ account.departures, departure.Justified sha3

/-- A change after which no transaction has left the queue. -/
def KeepsQueue (sha3 : Bytes → Bytes) (change : MultisigAccount → Checked MultisigAccount) : Prop :=
  ∀ account after, InOrder sha3 account → change account = .ok after →
    InOrder sha3 after ∧ after.departures = account.departures

/-! ## Calls that keep the queue -/

theorem keepsQueue_addTransaction (creator : Nat) (transaction : MultisigTransaction) :
    KeepsQueue sha3 (·.addTransaction features creator transaction) := by
  intro account after ordered added
  have created : after = { account with
      nextSequenceNumber := account.nextSequenceNumber + 1
      transactions := account.transactions.insert account.nextSequenceNumber
        { transaction with votes := transaction.votes.insert creator true } } := by
    unfold addTransaction at added
    split at added <;> grind [bind_eq_ok, ensure_eq_ok, pure_eq_ok, successor_eq_ok]
  subst created
  have ahead := ordered.ahead
  refine ⟨{ ordered with ahead := by dsimp only; omega, queued := ?_ }, rfl⟩
  intro number
  have before := ordered.queued number
  dsimp only
  rw [SortedMap.get?_insert]
  split
  · simp only [isSome_some, true_iff]
    omega
  · rw [before]
    omega

theorem keepsQueue_voteTransanction (owner sequenceNumber : Nat) (approved : Bool) :
    KeepsQueue sha3 (·.voteTransanction owner sequenceNumber approved) := by
  intro account after ordered voted
  obtain ⟨_, _, voted⟩ := of_bind voted
  obtain ⟨transaction, found, voted⟩ := of_bind voted
  cases voted
  refine ⟨{ ordered with queued := ?_ }, rfl⟩
  intro number
  rw [← ordered.queued number, SortedMap.get?_insert]
  split <;> simp_all

theorem keepsQueue_runAll {σ : Type} {change : MultisigAccount → σ → Checked MultisigAccount}
    {calls : List σ} (keeps : ∀ call ∈ calls, KeepsQueue sha3 (change · call)) :
    KeepsQueue sha3 (runAll change · calls) := by
  intro account after ordered ran
  refine runAll_keeps (fun reached => InOrder sha3 reached ∧
    reached.departures = account.departures) ⟨ordered, rfl⟩ ?_ ran
  rintro before call isCall ⟨ordered, same⟩ after performed
  rw [← same]
  exact keeps call isCall before after ordered performed

theorem keepsQueue_rejectImplicitly (owner sequenceNumber : Nat) :
    KeepsQueue sha3 (·.rejectImplicitly features owner sequenceNumber) := by
  intro account after ordered rejected
  have outcome : after = account ∨
      account.voteTransanction owner sequenceNumber false = .ok after := by
    unfold rejectImplicitly at rejected
    split at rejected
    · obtain ⟨_, _, rejected⟩ := of_bind rejected
      split at rejected <;> grind [bind_eq_ok, pure_eq_ok]
    · exact .inl (pure_eq_ok.mp rejected).symm
  rcases outcome with rfl | voted
  · exact ⟨ordered, rfl⟩
  · exact keepsQueue_voteTransanction _ _ _ _ _ ordered voted

variable {owners : List Nat} {call : Call}

theorem nodup_of_validateOwners {seen : List Nat}
    (valid : validateOwners self seen owners = .ok ()) (distinct : seen.Nodup) :
    (seen ++ owners).Nodup := by
  induction owners generalizing seen with
  | nil => simpa using distinct
  | cons owner rest inductionHypothesis =>
    obtain ⟨_, _, valid⟩ := of_bind valid
    obtain ⟨_, isNew, valid⟩ := of_bind valid
    have restDistinct := inductionHypothesis valid (nodup_append_comm.mp (by simp_all))
    rwa [append_assoc] at restDistinct

theorem nodup_removeOwner (distinct : owners.Nodup) (owner : Nat) :
    (removeOwner owners owner).Nodup := by
  unfold removeOwner
  split
  · next isOwner =>
    have permuted := swapRemove_perm (idxOf_lt_length_of_mem isOwner)
    exact permuted.nodup_iff.mpr (distinct.eraseIdx _)
  · exact distinct

theorem keepsQueue_updateOwnerSchema (newOwners ownersToRemove : List Nat) (required : Option Nat) :
    KeepsQueue sha3 (·.updateOwnerSchema self newOwners ownersToRemove required) := by
  intro account after ordered updated
  obtain ⟨_, _, updated⟩ := of_bind updated
  have distinct : (account.owners ++ newOwners).Nodup ∧
      ∃ numSignaturesRequired, after = { account with
        owners := ownersToRemove.foldl removeOwner (account.owners ++ newOwners)
        numSignaturesRequired } := by
    split at updated
    · obtain ⟨_, valid, updated⟩ := of_bind updated
      have distinct := nodup_of_validateOwners valid nodup_nil
      grind [bind_eq_ok, pure_eq_ok]
    · have distinct := ordered.distinct
      grind [bind_eq_ok, pure_eq_ok]
  obtain ⟨distinct, numSignaturesRequired, rfl⟩ := distinct
  refine ⟨{ ordered with distinct := ?_ }, rfl⟩
  exact List.foldlRecOn ownersToRemove removeOwner distinct fun owners distinct owner _ =>
    nodup_removeOwner distinct owner

/-! ## Calls that remove a transaction -/

def Call.Rejects : Call → Bool
  | .executeRejectedTransaction _ => true
  | .executeRejectedTransactions _ _ => true
  | _ => false

/-- A payload of the step does not remove rejected transactions. -/
def Step.Quiet : Step → Prop
  | .call _ => True
  | .execute _ _ calls _ => ∀ call ∈ calls, call.Rejects = false

theorem keepsQueue_performCall (quiet : call.Rejects = false) :
    KeepsQueue sha3 (·.performCall self features call) := by
  intro account after ordered performed
  cases call with
  | createTransaction | createTransactionWithHash =>
    obtain ⟨_, _, created⟩ := of_bind performed
    obtain ⟨_, _, added⟩ := of_bind created
    exact keepsQueue_addTransaction _ _ account after ordered added
  | voteTransanction =>
    exact keepsQueue_voteTransanction _ _ _ account after ordered performed
  | voteTransactions owner first last approved =>
    obtain ⟨_, _, voted⟩ := of_bind performed
    refine keepsQueue_runAll ?_ account after ordered voted
    intro sequenceNumber _
    exact keepsQueue_voteTransanction owner sequenceNumber approved
  | updateOwnerSchema =>
    exact keepsQueue_updateOwnerSchema _ _ _ account after ordered performed
  | executeRejectedTransaction | executeRejectedTransactions => cases quiet

/-- The executor counts, though it has not voted for approval. -/
theorem countP_lt_of_executor {executor : Nat} {votes : SortedMap Nat Bool}
    (isOwner : executor ∈ owners) (notApproved : votes.get? executor ≠ some true) :
    owners.countP (votes.get? · = some true) <
      owners.countP fun owner => owner = executor ∨ votes.get? owner = some true :=
  countP_lt_of_mem isOwner (by simp_all) (by simp) (by simpa using notApproved)

namespace InOrder

variable {account after : MultisigAccount} (ordered : InOrder sha3 account)
include ordered

theorem length_departures : account.departures.length = account.lastExecutedSequenceNumber := by
  simpa using congrArg List.length ordered.inOrder

theorem removeExecutedTransaction {execution : Option Execution} {votes : Nat × Nat}
    (removed : account.removeExecutedTransaction execution = .ok (after, votes))
    (cause : ∀ transaction, votes = numApprovalsAndRejections account.owners transaction →
      Departure.Justified sha3 ⟨⟨account.lastExecutedSequenceNumber + 1, transaction,
      account.owners, account.numSignaturesRequired⟩, execution⟩) : InOrder sha3 after := by
  obtain ⟨sequenceNumber, isNext, removed⟩ := of_bind removed
  obtain ⟨transaction, found, removed⟩ := of_bind removed
  obtain ⟨_, rfl⟩ := successor_eq_ok.mp isNext
  have found := expect_eq_ok.mp found
  have inQueue := (ordered.queued _).mp (isSome_of_eq_some found)
  cases removed
  refine ⟨ordered.distinct, inQueue.2, ?_, ?_, ?_⟩
  · intro number
    have before := ordered.queued number
    dsimp only
    rw [SortedMap.get?_erase]
    split
    · simp only [isSome_none, Bool.false_eq_true, false_iff]
      omega
    · rw [before]
      omega
  · simp only [map_append, map_cons, map_nil, ordered.inOrder]
    rw [List.range'_concat, Nat.one_mul, Nat.add_comm]
  · intro departure isDeparture
    rcases mem_append.mp isDeparture with isEarlier | isLast
    · exact ordered.justified departure isEarlier
    · rw [mem_singleton.mp isLast]
      exact cause transaction rfl

theorem executeRejectedTransaction {owner : Nat}
    (executed : account.executeRejectedTransaction features owner = .ok after) :
    InOrder sha3 after := by
  obtain ⟨_, _, executed⟩ := of_bind executed
  obtain ⟨sequenceNumber, isNext, executed⟩ := of_bind executed
  obtain ⟨voted, rejected, executed⟩ := of_bind executed
  obtain ⟨⟨after, votes⟩, removed, executed⟩ := of_bind executed
  obtain ⟨enough, executed⟩ := of_ensure_bind executed
  cases executed
  have ordered := (keepsQueue_rejectImplicitly _ _ account voted ordered rejected).1
  have same : after.numSignaturesRequired = voted.numSignaturesRequired := by
    obtain ⟨_, _, removed⟩ := of_bind removed
    obtain ⟨_, _, removed⟩ := of_bind removed
    cases removed
    rfl
  apply ordered.removeExecutedTransaction removed
  rintro transaction rfl
  exact ⟨ordered.distinct, same ▸ enough⟩

theorem performCall (performed : account.performCall self features call = .ok after) :
    InOrder sha3 after := by
  cases rejects : call.Rejects
  · exact (keepsQueue_performCall rejects account after ordered performed).1
  · cases call <;> try cases rejects
    · exact ordered.executeRejectedTransaction performed
    · obtain ⟨_, _, performed⟩ := of_bind performed
      obtain ⟨_, _, performed⟩ := of_bind performed
      obtain ⟨_, _, performed⟩ := of_bind performed
      refine runAll_keeps (InOrder sha3) ordered ?_ performed
      intro before owner _ ordered after executed
      exact ordered.executeRejectedTransaction executed

theorem justified_of_validated {executor : Nat} {provided payload : Bytes} {counted : Counted}
    (departed : Counted) (distinct : departed.owners.Nodup)
    (isNext : departed.sequenceNumber = account.lastExecutedSequenceNumber + 1)
    (validated : account.validateMultisigTransaction sha3 features executor provided =
      .ok counted)
    (isPayload : account.getNextTransactionPayload provided = .ok payload) :
    Departure.Justified sha3 ⟨departed, some ⟨counted, executor, payload⟩⟩ := by
  obtain ⟨isOwner, validated⟩ := of_ensure_bind validated
  obtain ⟨_, isSuccessor, validated⟩ := of_bind validated
  obtain ⟨transaction, found, validated⟩ := of_bind validated
  have found := expect_eq_ok.mp found
  obtain ⟨_, rfl⟩ := successor_eq_ok.mp isSuccessor
  obtain ⟨enough, isEnough, validated⟩ := of_bind validated
  obtain ⟨rfl, validated⟩ := of_ensure_bind validated
  obtain ⟨_, _, validated⟩ := of_bind validated
  obtain rfl : ⟨account.lastExecutedSequenceNumber + 1, transaction, account.owners,
    account.numSignaturesRequired⟩ = counted := by
    split at validated <;> grind [bind_eq_ok, pure_eq_ok]
  refine ⟨distinct, isNext.symm, ordered.distinct, ?_, isOwner, ?_⟩
  · have isPayload : transaction.payload.getD provided = payload := by
      simpa [MultisigAccount.getNextTransactionPayload, isSuccessor, found, expect] using
        isPayload
    have stored := transaction.stored
    clear * - isPayload stored validated
    cases ofPayload : transaction.payload <;> cases ofHash : transaction.payloadHash <;>
      simp_all
  · have atMost : account.owners.countP (transaction.votes.get? · = some true) ≤
        account.owners.countP fun owner =>
          owner = executor ∨ transaction.votes.get? owner = some true :=
      countP_mono_left fun owner _ => by simp +contextual
    have oneMore : transaction.votes.get? executor ≠ some true → _ :=
      countP_lt_of_executor isOwner
    have numbers : account.numSignaturesRequired ≤
        account.owners.countP (transaction.votes.get? · = some true) +
          if features.multisigV2Enhancement = true ∧
            transaction.votes.get? executor ≠ some true then 1 else 0 := by
      simp only [hasEnoughApprovals, canExecute, canBeExecuted, vote, validTransaction, found,
        expect, numApprovalsAndRejections] at isEnough
      clear * - isEnough
      grind [bind_eq_ok, pure_eq_ok]
    grind

theorem runPayload {calls : List Call} (aborts : Bool)
    (quiet : ∀ call ∈ calls, call.Rejects = false) :
    InOrder sha3 (account.runPayload self features calls aborts) ∧
      (account.runPayload self features calls aborts).departures = account.departures := by
  unfold MultisigAccount.runPayload
  split
  · next after ran =>
    exact keepsQueue_runAll (fun call isCall => keepsQueue_performCall (quiet call isCall))
      account after ordered ran
  · exact ⟨ordered, rfl⟩

theorem perform {step : Features × Step} (quiet : step.2.Quiet)
    (performed : account.perform self sha3 step = .ok after) : InOrder sha3 after := by
  obtain ⟨features, call | ⟨executor, provided, calls, aborts⟩⟩ := step
  · exact ordered.performCall performed
  · obtain ⟨counted, validated, performed⟩ := of_bind performed
    obtain ⟨payload, isPayload, performed⟩ := of_bind performed
    obtain ⟨_, _, performed⟩ := of_bind performed
    obtain ⟨_, _, performed⟩ := of_bind performed
    obtain ⟨⟨after, votes⟩, removed, performed⟩ := of_bind performed
    cases performed
    obtain ⟨ran, same⟩ := ordered.runPayload aborts quiet
    have isNext := congrArg (List.length · + 1) same
    rw [ran.length_departures, ordered.length_departures] at isNext
    apply ran.removeExecutedTransaction removed
    intro transaction _
    exact ordered.justified_of_validated _ ran.distinct isNext validated isPayload

end InOrder

/-- If payloads never remove rejected transactions, numbers leave the queue in order, each
because its own payload ran with enough approvals or because enough owners rejected it. -/
theorem transactions_leave_once_for_cause {owners : List Nat} {required : Nat}
    {start reached : MultisigAccount} {steps : List (Features × Step)}
    (created : createWithOwners self owners required = .ok start)
    (quiet : ∀ step ∈ steps, step.2.Quiet)
    (ran : runAll (MultisigAccount.perform self sha3) start steps = .ok reached) :
    reached.departures.map (·.sequenceNumber) =
        List.range' 1 reached.lastExecutedSequenceNumber ∧
      (∀ departure ∈ reached.departures, departure.Justified sha3) ∧
      ∀ number, (reached.transactions.get? number).isSome ↔
        reached.lastExecutedSequenceNumber < number ∧ number < reached.nextSequenceNumber := by
  obtain ⟨_, _, created⟩ := of_bind created
  obtain ⟨_, valid, created⟩ := of_bind created
  cases created
  have starts : InOrder sha3 ⟨owners, required, .empty, 0, 1, []⟩ := by
    refine ⟨nodup_of_validateOwners valid nodup_nil, Nat.zero_lt_one, ?_, rfl, nofun⟩
    intro number
    simp only [SortedMap.get?_empty, isSome_none, Bool.false_eq_true, false_iff]
    omega
  have ordered : InOrder sha3 reached := by
    refine runAll_keeps (InOrder sha3) starts ?_ ran
    intro before step isStep ordered after performed
    exact ordered.perform (quiet step isStep) performed
  exact ⟨ordered.inOrder, ordered.justified, ordered.queued⟩

/-! ## A payload that removes its own transaction -/

namespace Reentrant

/-- One of two owners creates two transactions and executes the first. -/
def steps (calls : List Call) : List (Features × Step) :=
  [.call (.createTransaction 1 [1]), .call (.createTransaction 1 [2]),
    .execute 1 [] calls false].map (⟨true, true⟩, ·)

/-- The numbers that left the queue, with the payloads that ran. -/
def departed (account : MultisigAccount) : List (Nat × Option Bytes) :=
  account.departures.map fun departure =>
    (departure.sequenceNumber, departure.execution.map (·.payload))

/-- The payload of the first transaction removes it as rejected, with the other owner's signer;
the second leaves as executed with the first's payload. -/
theorem second_transaction_leaves_unrun : ∃ start reached, createWithOwners 0 [1, 2] 1 = .ok start ∧
    runAll (MultisigAccount.perform 0 id) start (steps [.executeRejectedTransaction 2]) =
      .ok reached ∧
    departed reached = [(1, none), (2, some [1])] ∧
    ¬ ∀ departure ∈ reached.departures, departure.Justified id := by
  refine ⟨_, _, rfl, rfl, rfl, ?_⟩
  intro justified
  obtain ⟨_, isOwn, _⟩ := justified _ (mem_cons_of_mem _ mem_cons_self)
  cases isOwn

theorem first_transaction_leaves_executed : ∃ start reached,
    createWithOwners 0 [1, 2] 1 = .ok start ∧
    runAll (MultisigAccount.perform 0 id) start (steps [.voteTransanction 2 2 false]) =
      .ok reached ∧
    departed reached = [(1, some [1])] ∧
    ∀ departure ∈ reached.departures, departure.Justified id := by
  have created : createWithOwners 0 [1, 2] 1 = .ok ⟨[1, 2], 1, .empty, 0, 1, []⟩ := rfl
  have quiet : ∀ step ∈ steps [.voteTransanction 2 2 false], step.2.Quiet := by
    simp [steps, Step.Quiet, Call.Rejects]
  exact ⟨_, _, created, rfl, rfl, (transactions_leave_once_for_cause created quiet rfl).2.1⟩

end Reentrant

end LumioNode.Framework.Multisig
