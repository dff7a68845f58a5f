import LumioNode.QuorumStore.BatchProofQueue

/-!
# The counters of the queue

Each counter is a sum over the items, in which only items with a proof count.
-/

namespace LumioNode.BatchProofQueue

open Library Table

/-- The summand of `remaining_proofs`. -/
def proofWeight (_ : BatchKey) (item : QueueItem) : Nat := if item.proof.isSome then 1 else 0

/-- The summand of `remaining_txns_with_duplicates`. -/
def txnsWeight (_ : BatchKey) (item : QueueItem) : Nat :=
  if item.proof.isSome then item.info.numTxns else 0

def localWeight (myPeerId : AccountAddress) (weight : BatchKey → QueueItem → Nat) (key : BatchKey)
    (item : QueueItem) : Nat :=
  if item.info.author = myPeerId then weight key item else 0

/-- The summand of the occurrences of a transaction. -/
def occurrenceWeight (txn : TxnSummaryWithExpiration) (_ : BatchKey) (item : QueueItem) : Nat :=
  if item.proof.isSome then (item.txnSummaries.getD []).count txn else 0

/-- The weight is zero for items without a proof. -/
def ProofsOnly (weight : BatchKey → QueueItem → Nat) : Prop :=
  ∀ key item, item.proof.isSome = false → weight key item = 0

theorem proofsOnly_proofWeight : ProofsOnly proofWeight := by
  intro key item noProof
  simp [proofWeight, noProof]

theorem proofsOnly_txnsWeight : ProofsOnly txnsWeight := by
  intro key item noProof
  simp [txnsWeight, noProof]

variable {occurrences : Table TxnSummaryWithExpiration Nat} {weight : BatchKey → QueueItem → Nat}

theorem proofsOnly_localWeight (only : ProofsOnly weight) (myPeerId : AccountAddress) :
    ProofsOnly (localWeight myPeerId weight) := by
  intro key item noProof
  simp [localWeight, only key item noProof]

theorem proofsOnly_occurrenceWeight (txn : TxnSummaryWithExpiration) :
    ProofsOnly (occurrenceWeight txn) := by
  intro key item noProof
  simp [occurrenceWeight, noProof]

def occurrencesOf (occurrences : Table TxnSummaryWithExpiration Nat)
    (txn : TxnSummaryWithExpiration) : Nat :=
  (occurrences.lookup txn).getD 0

/-- The counters are the sums over a table of items. -/
structure Counted (queue : BatchProofQueue) (items : Table BatchKey QueueItem) : Prop where
  proofs : queue.remainingProofs = total proofWeight items
  txns : queue.remainingTxnsWithDuplicates = total txnsWeight items
  localProofs : queue.remainingLocalProofs = total (localWeight queue.myPeerId proofWeight) items
  localTxns : queue.remainingLocalTxns = total (localWeight queue.myPeerId txnsWeight) items
  occurrences : ∀ txn, occurrencesOf queue.txnSummaryNumOccurrences txn =
    total (occurrenceWeight txn) items
  positive : ∀ txn count, queue.txnSummaryNumOccurrences.lookup txn = some count → 0 < count

structure Counters where
  txns : Nat
  proofs : Nat
  localTxns : Nat
  localProofs : Nat
  occurrences : Table TxnSummaryWithExpiration Nat

def recount (queue : BatchProofQueue) (counters : Counters) : BatchProofQueue :=
  { queue with
    remainingTxnsWithDuplicates := counters.txns
    remainingProofs := counters.proofs
    remainingLocalTxns := counters.localTxns
    remainingLocalProofs := counters.localProofs
    txnSummaryNumOccurrences := counters.occurrences }

theorem occurrencesOf_addOccurrences (occurrences : Table TxnSummaryWithExpiration Nat)
    (summaries : List TxnSummaryWithExpiration) (txn : TxnSummaryWithExpiration) :
    occurrencesOf (addOccurrences occurrences summaries) txn =
      occurrencesOf occurrences txn + summaries.count txn := by
  induction summaries generalizing occurrences with
  | nil => rfl
  | cons summary rest inductionHypothesis =>
    rw [addOccurrences, inductionHypothesis, List.count_cons]
    by_cases same : txn = summary
    · subst same
      simp only [occurrencesOf, AList.lookup_insert, Option.getD_some, beq_self_eq_true, if_true]
      omega
    · simp [occurrencesOf, AList.lookup_insert_ne same, Ne.symm same]

theorem addOccurrences_positive
    (positive : ∀ txn count, occurrences.lookup txn = some count → 0 < count)
    (summaries : List TxnSummaryWithExpiration) :
    ∀ txn count, (addOccurrences occurrences summaries).lookup txn = some count → 0 < count := by
  induction summaries generalizing occurrences with
  | nil => exact positive
  | cons summary rest inductionHypothesis =>
    apply inductionHypothesis
    intro txn count found
    rw [lookup_insert_eq] at found
    split at found
    · cases found
      exact Nat.succ_pos _
    · exact positive txn count found

/-- Removing counted summaries succeeds and takes them off the counts. -/
theorem removeOccurrences_spec {summaries : List TxnSummaryWithExpiration}
    (positive : ∀ txn count, occurrences.lookup txn = some count → 0 < count)
    (counted : ∀ txn, summaries.count txn ≤ occurrencesOf occurrences txn) :
    ∃ after, removeOccurrences occurrences summaries = .ok after ∧
      (∀ txn count, after.lookup txn = some count → 0 < count) ∧
      ∀ txn, occurrencesOf after txn + summaries.count txn = occurrencesOf occurrences txn := by
  induction summaries generalizing occurrences with
  | nil => exact ⟨occurrences, rfl, positive, fun txn => rfl⟩
  | cons summary rest inductionHypothesis =>
    simp only [List.count_cons] at counted ⊢
    obtain ⟨count, found⟩ : ∃ count, occurrences.lookup summary = some count := by
      have headCounted := counted summary
      cases found : occurrences.lookup summary with
      | none => simp [occurrencesOf, found] at headCounted
      | some count => exact ⟨count, rfl⟩
    have isPositive : 1 ≤ count := positive summary count found
    let next : Table TxnSummaryWithExpiration Nat :=
      if count - 1 = 0 then occurrences.erase summary else occurrences.insert summary (count - 1)
    have isNext : removeOccurrences occurrences (summary :: rest) =
        removeOccurrences next rest := by
      simp only [removeOccurrences, found, checkedSub_of_le isPositive, ok_bind, next]
      split <;> rfl
    have lookup (txn : TxnSummaryWithExpiration) : next.lookup txn =
        if txn = summary then (if count - 1 = 0 then none else some (count - 1))
        else occurrences.lookup txn := by
      simp only [next]
      split
      · exact lookup_erase_eq _ _ _
      · exact lookup_insert_eq _ _ _ _
    have nextPositive (txn : TxnSummaryWithExpiration) (other : Nat)
        (isOther : next.lookup txn = some other) : 0 < other := by
      rw [lookup] at isOther
      split at isOther
      · split at isOther <;> cases isOther
        omega
      · exact positive txn other isOther
    have nextCounts (txn : TxnSummaryWithExpiration) :
        occurrencesOf next txn + (if summary == txn then 1 else 0) =
          occurrencesOf occurrences txn := by
      unfold occurrencesOf
      rw [lookup]
      by_cases same : txn = summary
      · subst same
        simp only [found, if_true, beq_self_eq_true, Option.getD_some]
        split <;> simp <;> omega
      · simp [same, Ne.symm same]
    obtain ⟨after, isAfter, afterPositive, afterCounts⟩ := inductionHypothesis nextPositive (by
      intro txn
      have wasCounted := counted txn
      have stepCounts := nextCounts txn
      omega)
    refine ⟨after, isNext.trans isAfter, afterPositive, ?_⟩
    intro txn
    have stepCounts := nextCounts txn
    have restCounts := afterCounts txn
    omega

namespace Counted

variable {queue : BatchProofQueue} {items after : Table BatchKey QueueItem}
  {key : BatchKey} {item : QueueItem}

theorem congr (counted : Counted queue items)
    (same : ∀ weight, ProofsOnly weight → total weight after = total weight items) :
    Counted queue after where
  proofs := counted.proofs.trans (same _ proofsOnly_proofWeight).symm
  txns := counted.txns.trans (same _ proofsOnly_txnsWeight).symm
  localProofs := counted.localProofs.trans
    (same _ (proofsOnly_localWeight proofsOnly_proofWeight _)).symm
  localTxns := counted.localTxns.trans
    (same _ (proofsOnly_localWeight proofsOnly_txnsWeight _)).symm
  occurrences := fun txn => (counted.occurrences txn).trans
    (same _ (proofsOnly_occurrenceWeight txn)).symm
  positive := counted.positive

section

variable (proofless : ∀ other, items.lookup key = some other → other.proof.isSome = false)

include proofless

theorem total_insert (only : ProofsOnly weight) :
    total weight (items.insert key item) = total weight items + weight key item := by
  cases isOther : items.lookup key with
  | none => exact total_add weight isOther item
  | some other =>
    have replaced := total_replace weight isOther item
    rw [only _ other (proofless other isOther)] at replaced
    exact replaced

theorem insert_proofless (counted : Counted queue items) (noProof : item.proof.isSome = false) :
    Counted queue (items.insert key item) := by
  refine counted.congr fun weight only => ?_
  rw [total_insert proofless only, only _ _ noProof, Nat.add_zero]

theorem add (counted : Counted queue items) (hasProof : item.proof.isSome)
    {info : BatchInfo} (isInfo : item.info = info) :
    Counted
      ({ queue with
        txnSummaryNumOccurrences := addOccurrences queue.txnSummaryNumOccurrences
            (item.txnSummaries.getD []) }.incRemainingProofs
        info.author info.numTxns) (items.insert key item) where
  proofs := by
    rw [total_insert proofless proofsOnly_proofWeight, ← counted.proofs, proofWeight,
      if_pos hasProof]
    rfl
  txns := by
    rw [total_insert proofless proofsOnly_txnsWeight, ← counted.txns, txnsWeight,
      if_pos hasProof, isInfo]
    rfl
  localProofs := by
    rw [total_insert proofless (proofsOnly_localWeight proofsOnly_proofWeight _)]
    rw [counted.localProofs, localWeight, proofWeight, if_pos hasProof, isInfo]
    rfl
  localTxns := by
    rw [total_insert proofless (proofsOnly_localWeight proofsOnly_txnsWeight _)]
    rw [counted.localTxns, localWeight, txnsWeight, if_pos hasProof, isInfo]
    rfl
  occurrences := by
    intro txn
    rw [total_insert proofless (proofsOnly_occurrenceWeight txn), ← counted.occurrences,
      occurrenceWeight, if_pos hasProof]
    exact occurrencesOf_addOccurrences _ _ _
  positive := addOccurrences_positive counted.positive _

end

theorem addSummaries (counted : Counted queue items) (found : items.lookup key = some item)
    (hasProof : item.proof.isSome) (noSummaries : item.txnSummaries = none)
    (summaries : List TxnSummaryWithExpiration) :
    Counted
      { queue with
        txnSummaryNumOccurrences := addOccurrences queue.txnSummaryNumOccurrences summaries }
      (items.insert key { item with txnSummaries := some summaries }) := by
  have unchanged (weight : BatchKey → QueueItem → Nat)
      (same : weight key { item with txnSummaries := some summaries } = weight key item) :
      total weight items = total weight (items.insert key
        { item with txnSummaries := some summaries }) := by
    have replaced := total_replace weight found { item with txnSummaries := some summaries }
    omega
  refine ⟨counted.proofs.trans (unchanged _ rfl), counted.txns.trans (unchanged _ rfl),
    counted.localProofs.trans (unchanged _ rfl),
    counted.localTxns.trans (unchanged _ rfl), ?_,
    addOccurrences_positive counted.positive _⟩
  intro txn
  have replaced := total_replace (occurrenceWeight txn) found
    { item with txnSummaries := some summaries }
  have before : occurrenceWeight txn key item = 0 := by simp [occurrenceWeight, noSummaries]
  have now : occurrenceWeight txn key
      { item with txnSummaries := some summaries } = summaries.count txn := by
    simp [occurrenceWeight, hasProof]
  have total := counted.occurrences txn
  rw [occurrencesOf_addOccurrences]
  omega

theorem removeProof (counted : Counted queue items) (hasProof : item.proof.isSome)
    (loses : ∀ weight, ProofsOnly weight → total weight after + weight key item = total weight
      items) :
    ∃ counters, queue.removeProof item item.info = .ok (queue.recount counters) ∧
      Counted (queue.recount counters) after := by
  have weightOf (txn : TxnSummaryWithExpiration) : occurrenceWeight txn key item =
      (item.txnSummaries.getD []).count txn :=
    if_pos hasProof
  obtain ⟨occurrences, isRemoved, positive, counts⟩ :=
    @removeOccurrences_spec queue.txnSummaryNumOccurrences
      (item.txnSummaries.getD []) counted.positive (by
        intro txn
        have total := loses _ (proofsOnly_occurrenceWeight txn)
        rw [weightOf, ← counted.occurrences] at total
        omega)
  have proofs := loses _ proofsOnly_proofWeight
  have txns := loses _ proofsOnly_txnsWeight
  have localProofs := loses _ (proofsOnly_localWeight proofsOnly_proofWeight queue.myPeerId)
  have localTxns := loses _ (proofsOnly_localWeight proofsOnly_txnsWeight queue.myPeerId)
  rw [← counted.proofs, proofWeight, if_pos hasProof] at proofs
  rw [← counted.txns, txnsWeight, if_pos hasProof] at txns
  rw [← counted.localProofs, localWeight, proofWeight, if_pos hasProof] at localProofs
  rw [← counted.localTxns, localWeight, txnsWeight, if_pos hasProof] at localTxns
  refine ⟨⟨queue.remainingTxnsWithDuplicates - item.info.numTxns, queue.remainingProofs - 1,
    queue.remainingLocalTxns - (if item.info.author = queue.myPeerId then item.info.numTxns else 0),
    queue.remainingLocalProofs - (if item.info.author = queue.myPeerId then 1 else 0),
    occurrences⟩, ?_, ?_⟩
  · simp only [BatchProofQueue.removeProof, isRemoved, ok_bind, decRemainingProofs]
    rw [checkedSub_of_le (by omega), ok_bind, checkedSub_of_le (by omega), ok_bind,
      checkedSub_of_le (by omega), ok_bind, checkedSub_of_le (by omega), ok_bind]
    rfl
  · refine ⟨?_, ?_, ?_, ?_, ?_, positive⟩
    · change queue.remainingProofs - 1 = _
      omega
    · change queue.remainingTxnsWithDuplicates - _ = _
      omega
    · change queue.remainingLocalProofs - (if item.info.author = queue.myPeerId then 1 else 0) =
          total (localWeight queue.myPeerId proofWeight) after
      omega
    · change queue.remainingLocalTxns - (if item.info.author = queue.myPeerId then item.info.numTxns
          else 0) =
          total (localWeight queue.myPeerId txnsWeight) after
      omega
    · intro txn
      have total := loses _ (proofsOnly_occurrenceWeight txn)
      have count := counts txn
      rw [weightOf, ← counted.occurrences] at total
      change occurrencesOf occurrences txn = _
      omega

end Counted

end LumioNode.BatchProofQueue
