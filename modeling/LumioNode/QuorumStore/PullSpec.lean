import LumioNode.QuorumStore.Filing
import LumioNode.QuorumStore.Pull
import Mathlib.Algebra.Order.Group.Multiset
import Mathlib.Data.Finset.Card

/-! # What a pull returns

The walk offers each entry at most once, so what every offer keeps, the pull keeps. -/

namespace LumioNode

open Library PullState PayloadTxnsSize List

abbrev QueueEntry := BatchSortKey × BatchInfo

namespace BatchProofQueue

/-- No item is so short-lived that its creation time would be negative. -/
def Datable (queue : BatchProofQueue) : Prop := ∀ key item, queue.items.lookup key = some item →
    queue.batchExpiryGapWhenInitUsecs ≤ item.info.expiration

structure Offers (queue : BatchProofQueue) (batchesWithoutProofs : Bool)
    (entry : QueueEntry) (item : QueueItem) : Prop where
  stored : queue.items.lookup entry.1.batchKey = some item
  notCommitted : item.isCommitted = false
  kind : item.proof.isNone = batchesWithoutProofs

section Walk

variable {queue : BatchProofQueue} {request : PullRequest}
  {batchesWithoutProofs : Bool} {maxBatchCreation : Option Nat}

theorem nextBatch_spec (datable : queue.Datable) (iter : List QueueEntry) :
    queue.nextBatch batchesWithoutProofs maxBatchCreation iter = .ok none ∨
      ∃ front entry item left, iter = front ++ entry :: left ∧
        queue.Offers batchesWithoutProofs entry item ∧
        queue.nextBatch batchesWithoutProofs maxBatchCreation iter =
          .ok (some ((entry.2, item), left)) := by
  induction iter with
  | nil => exact .inl rfl
  | cons entry rest inductionHypothesis =>
    have passed (skips : queue.nextBatch batchesWithoutProofs maxBatchCreation (entry :: rest) =
          queue.nextBatch batchesWithoutProofs maxBatchCreation rest) :
        queue.nextBatch batchesWithoutProofs maxBatchCreation (entry :: rest) = .ok none ∨
          ∃ front found item left, entry :: rest = front ++ found :: left ∧
            queue.Offers batchesWithoutProofs found item ∧
            queue.nextBatch batchesWithoutProofs maxBatchCreation (entry :: rest) =
              .ok (some ((found.2, item), left)) := by
      rw [skips]
      rcases inductionHypothesis with
        exhausted | ⟨front, found, item, left, isSplit, offers, isNext⟩
      · exact .inl exhausted
      · exact .inr ⟨entry :: front, found, item, left,
          by rw [isSplit, cons_append], offers, isNext⟩
    cases stored : queue.items.lookup entry.1.batchKey with
    | none =>
      apply passed
      simp only [nextBatch, stored]
    | some item =>
      have dated := checkedSub_of_le (datable _ _ stored)
      by_cases young : maxBatchCreation.any (· <
          item.info.expiration - queue.batchExpiryGapWhenInitUsecs)
      · apply passed
        simp only [nextBatch, stored, dated, ok_bind, young, if_true]
      by_cases committed : item.isCommitted
      · apply passed
        simp only [nextBatch, stored, dated, ok_bind, young, committed, if_true]
        rfl
      by_cases kind : batchesWithoutProofs = item.proof.isNone
      · refine .inr ⟨[], entry, item, rest, rfl,
          ⟨stored, by simpa using committed, kind.symm⟩, ?_⟩
        simp only [nextBatch, stored, dated, ok_bind, young, committed, if_pos kind]
        rfl
      · apply passed
        simp only [nextBatch, stored, dated, ok_bind, young, committed, if_neg kind]
        rfl

/-- A relation between the loop's variables and the entries not yet reached. -/
structure WalkInvariant (queue : BatchProofQueue) (request : PullRequest)
    (batchesWithoutProofs : Bool) (holds : PullState → Multiset QueueEntry → Prop) : Prop where
  drops : ∀ {state ahead fewer}, holds state ahead → fewer ≤ ahead → holds state fewer
  offers : ∀ {state entry item ahead}, holds state (entry ::ₘ ahead) →
    queue.Offers batchesWithoutProofs entry item → state.full = false →
      ∃ next, state.offer request batchesWithoutProofs entry.2 item = .ok next ∧ holds next.1 ahead

variable {holds : PullState → Multiset QueueEntry → Prop}

theorem pullRound_spec (datable : queue.Datable)
    (invariant : WalkInvariant queue request batchesWithoutProofs holds)
    (iters : List (List QueueEntry)) {state : PullState} {others : Multiset QueueEntry}
    (start : holds state (↑iters.flatten + others)) :
    ∃ kept next, queue.pullRound request batchesWithoutProofs
        maxBatchCreation iters state = .ok (kept, next) ∧
      holds next (↑kept.flatten + others) ∧
      walkFuel kept + iters.length ≤ walkFuel iters := by
  induction iters generalizing state others with
  | nil => exact ⟨[], state, rfl, start, le_rfl⟩
  | cons iter rest inductionHypothesis =>
    have dropped {next : PullState} (atRest : holds next (↑rest.flatten + others)) :
        ∃ kept final, queue.pullRound request batchesWithoutProofs
            maxBatchCreation rest next = .ok (kept, final) ∧
          holds final (↑kept.flatten + others) ∧
          walkFuel kept + (iter :: rest).length ≤ walkFuel (iter :: rest) := by
      obtain ⟨kept, final, isRound, atEnd, shorter⟩ := inductionHypothesis atRest
      refine ⟨kept, final, isRound, atEnd, ?_⟩
      simp only [walkFuel, map_cons, sum_cons, length_cons] at shorter ⊢
      omega
    have withoutIter : holds state (↑rest.flatten + others) := by
      refine invariant.drops start ?_
      rw [flatten_cons, ← Multiset.coe_add, add_assoc]
      exact Multiset.le_add_left _ _
    by_cases isFull : state.full
    · simp only [pullRound, isFull, if_true]
      exact dropped withoutIter
    rcases @nextBatch_spec queue batchesWithoutProofs maxBatchCreation datable iter with exhausted |
      ⟨front, entry, item, left, isSplit, canOffer, isNext⟩
    · simp only [pullRound, isFull, exhausted, ok_bind]
      exact dropped withoutIter
    · have reached : holds state (entry ::ₘ (↑left + (↑rest.flatten + others))) := by
        refine invariant.drops start ?_
        rw [flatten_cons, isSplit, ← Multiset.coe_add, ← Multiset.coe_add, ← Multiset.cons_coe,
          add_assoc, add_assoc, Multiset.cons_add]
        exact Multiset.le_add_left _ _
      obtain ⟨⟨offered, keep⟩, isOffered, atNext⟩ :=
        invariant.offers reached canOffer (by simpa using isFull)
      have isRound (outcome : Except Fault (List (List QueueEntry) × PullState))
          (isOutcome : queue.pullRound request batchesWithoutProofs
            maxBatchCreation rest offered = outcome) :
          queue.pullRound request batchesWithoutProofs maxBatchCreation (iter :: rest) state =
            outcome >>= fun next =>
              .ok (if keep then left :: next.1 else next.1, next.2) := by
        simp only [pullRound, isFull, isNext, ok_bind, isOffered, isOutcome]
        rfl
      cases keep with
      | false =>
        obtain ⟨kept, final, isRest, atEnd, shorter⟩ :=
          dropped (invariant.drops atNext (Multiset.le_add_left _ _))
        exact ⟨kept, final, isRound _ isRest, atEnd, shorter⟩
      | true =>
        have regrouped : (↑left + (↑rest.flatten + others) :
            Multiset QueueEntry) = ↑rest.flatten + (↑left + others) := by
          rw [add_left_comm]
        rw [regrouped] at atNext
        obtain ⟨kept, final, isRest, atEnd, shorter⟩ := inductionHypothesis atNext
        refine ⟨left :: kept, final, isRound _ isRest, ?_, ?_⟩
        · rw [flatten_cons, ← Multiset.coe_add, add_assoc, add_left_comm]
          exact atEnd
        · have lengths : iter.length = front.length + left.length + 1 := by
            rw [isSplit, length_append, length_cons]
            omega
          simp only [walkFuel, map_cons, sum_cons, length_cons] at shorter ⊢
          omega

theorem walkFuel_perm {first second : List (List QueueEntry)}
    (isPerm : first.Perm second) : walkFuel first = walkFuel second :=
  (isPerm.map _).sum_eq

/-- With the fuel of its iterators the loop ends, whatever fuel is added. -/
theorem pullLoop_spec (datable : queue.Datable)
    (invariant : WalkInvariant queue request batchesWithoutProofs holds)
    (fuel round : Nat) (iters : List (List QueueEntry)) {state : PullState}
    (start : holds state ↑iters.flatten) (enough : walkFuel iters ≤ fuel) :
    ∃ final, holds final 0 ∧ ∀ extra, queue.pullLoop request batchesWithoutProofs maxBatchCreation
        (fuel + extra) round iters state = .ok final := by
  induction fuel generalizing round iters state with
  | zero =>
    have isNil : iters = [] := by
      cases iters with
      | nil => rfl
      | cons iter rest =>
        simp only [walkFuel, map_cons, sum_cons] at enough
        omega
    subst isNil
    refine ⟨state, start, ?_⟩
    intro extra
    cases extra with
    | zero => rfl
    | succ extra => rfl
  | succ fuel inductionHypothesis =>
    cases iters with
    | nil =>
      refine ⟨state, start, ?_⟩
      intro extra
      rw [Nat.succ_add]
      rfl
    | cons iter rest =>
      have isPerm := request.shuffle.perm round (iter :: rest)
      have shuffled : holds state (↑(request.shuffle.run round (iter :: rest)).flatten + 0) := by
        rw [add_zero, Multiset.coe_eq_coe.mpr isPerm.flatten]
        exact start
      obtain ⟨kept, next, isRound, atNext, shorter⟩ :=
        @pullRound_spec queue request batchesWithoutProofs
          maxBatchCreation holds datable invariant _ state 0 shuffled
      rw [walkFuel_perm isPerm, isPerm.length_eq, length_cons] at shorter
      rw [add_zero] at atNext
      obtain ⟨final, atFinal, isLoop⟩ := inductionHypothesis (round + 1) kept atNext (by omega)
      refine ⟨final, atFinal, ?_⟩
      intro extra
      rw [Nat.succ_add]
      simp only [pullLoop, isEmpty_cons, isRound, ok_bind]
      exact isLoop extra

end Walk

section Result

variable {queue : BatchProofQueue} {request : PullRequest} {batchesWithoutProofs : Bool}

def knownTxns (taken : List (QueueEntry × QueueItem)) : List TxnSummaryWithExpiration :=
  taken.flatMap fun pair => pair.2.txnSummaries.getD []

/-- The number of transactions of the taken batches without summaries. -/
def unknownTxns (taken : List (QueueEntry × QueueItem)) : Nat := (taken.map fun pair =>
    if pair.2.txnSummaries.isNone then pair.1.2.numTxns else 0).sum

/-- The unexpired transactions among `txns` that are not filtered out. -/
def newUnexpired (request : PullRequest) (filtered txns : List TxnSummaryWithExpiration) :
    Finset TxnSummaryWithExpiration :=
  (txns.filter (isUnexpired request)).toFinset \ filtered.toFinset

theorem mem_insertSummaries (request : PullRequest)
    (filtered summaries : List TxnSummaryWithExpiration) (tested : TxnSummaryWithExpiration) :
    tested ∈ (insertSummaries request filtered summaries).2 ↔
      tested ∈ filtered ∨ tested ∈ summaries := by
  induction summaries generalizing filtered with
  | nil => simp [insertSummaries]
  | cons summary rest inductionHypothesis =>
    unfold insertSummaries
    split
    · rename_i present
      rw [inductionHypothesis, mem_cons]
      constructor
      · rintro (inFiltered | inRest)
        · exact .inl inFiltered
        · exact .inr (.inr inRest)
      · rintro (inFiltered | rfl | inRest)
        · exact .inl inFiltered
        · exact .inl present
        · exact .inr inRest
    · rw [inductionHypothesis, mem_cons, mem_cons, or_assoc, or_left_comm]

theorem newUnexpired_append (request : PullRequest)
    {excluded filtered known : List TxnSummaryWithExpiration}
    (isFiltered : ∀ tested, tested ∈ filtered ↔ tested ∈ excluded ∨ tested ∈ known)
    (summaries : List TxnSummaryWithExpiration) :
    (newUnexpired request excluded (known ++ summaries)).card =
      (newUnexpired request excluded known).card +
        (newUnexpired request filtered summaries).card := by
  have isUnion : newUnexpired request excluded (known ++ summaries) =
      newUnexpired request excluded known ∪ newUnexpired request filtered summaries := by
    ext tested
    simp only [newUnexpired, Finset.mem_union, Finset.mem_sdiff,
      mem_toFinset, mem_filter, mem_append, isFiltered]
    tauto
  have disjoint : Disjoint (newUnexpired request excluded known)
      (newUnexpired request filtered summaries) := by
    rw [Finset.disjoint_left]
    intro tested inKnown inSummaries
    simp only [newUnexpired, Finset.mem_sdiff, mem_toFinset,
      mem_filter, isFiltered] at inKnown inSummaries
    exact inSummaries.2 (.inr inKnown.1.1)
  rw [isUnion, Finset.card_union_of_disjoint disjoint]

theorem insertSummaries_count (request : PullRequest)
    (filtered summaries : List TxnSummaryWithExpiration) :
    (insertSummaries request filtered summaries).1 =
      (newUnexpired request filtered summaries).card := by
  induction summaries generalizing filtered with
  | nil => simp [insertSummaries, newUnexpired]
  | cons summary rest inductionHypothesis =>
    unfold insertSummaries
    split
    · rename_i present
      have isFiltered (tested : TxnSummaryWithExpiration) :
          tested ∈ filtered ↔ tested ∈ filtered ∨ tested ∈ [summary] :=
        (or_iff_left_of_imp fun isHead => mem_singleton.mp isHead ▸ present).symm
      have counted := newUnexpired_append request isFiltered rest
      have none : newUnexpired request filtered [summary] = ∅ := by
        by_cases unexpired : isUnexpired request summary
        · simp [newUnexpired, unexpired, present]
        · simp [newUnexpired, unexpired]
      rwa [none, Finset.card_empty, Nat.zero_add, ← inductionHypothesis, eq_comm] at counted
    · rename_i isNew
      have isFiltered (tested : TxnSummaryWithExpiration) :
          tested ∈ summary :: filtered ↔ tested ∈ filtered ∨ tested ∈ [summary] := by
        rw [mem_cons, mem_singleton, or_comm]
      have counted := newUnexpired_append request isFiltered rest
      rw [← inductionHypothesis, Nat.add_comm, singleton_append] at counted
      rw [counted]
      by_cases unexpired : isUnexpired request summary
      · simp [newUnexpired, unexpired, isNew, Finset.sdiff_eq_self_of_disjoint]
      · simp [newUnexpired, unexpired]

theorem newUnexpired_card_le (request : PullRequest)
    (filtered summaries : List TxnSummaryWithExpiration) :
    (newUnexpired request filtered summaries).card ≤ summaries.countP fun summary =>
        decide (summary ∉ filtered) && isUnexpired request summary := by
  have isList : newUnexpired request filtered summaries =
      (summaries.filter fun summary => decide (summary ∉ filtered) &&
        isUnexpired request summary).toFinset := by
    ext tested
    simp only [newUnexpired, Finset.mem_sdiff, mem_toFinset,
      mem_filter, Bool.and_eq_true, decide_eq_true_eq]
    tauto
  rw [isList, countP_eq_length_filter]
  exact toFinset_card_le _

/-- The size and the unique transactions of taken batches are within the limits. -/
structure Measures (queue : BatchProofQueue) (request : PullRequest) (batchesWithoutProofs : Bool)
    (taken : List (QueueEntry × QueueItem)) (all : PayloadTxnsSize) (distinct : Nat) : Prop where
  offered : ∀ pair ∈ taken, queue.Offers batchesWithoutProofs pair.1 pair.2
  notExcluded : ∀ pair ∈ taken, pair.1.2 ∉ request.excludedBatches
  count : all.count = (taken.map fun pair => pair.1.2.numTxns).sum
  bytes : all.bytes = (taken.map fun pair => pair.1.2.size.bytes).sum
  countWithin : all.count ≤ request.maxTxns.count
  bytesWithin : all.bytes ≤ request.maxTxns.bytes
  unique : distinct = unknownTxns taken +
    (newUnexpired request (queue.excludedTxns request.excludedBatches) (knownTxns taken)).card
  uniqueWithin : distinct ≤ request.maxTxnsAfterFiltering

/-- The loop's variables describe the batches that were taken. -/
structure Takes (queue : BatchProofQueue) (request : PullRequest) (batchesWithoutProofs : Bool)
    (taken : List (QueueEntry × QueueItem)) (state : PullState) : Prop extends
    Measures queue request batchesWithoutProofs taken state.curAllTxns state.curUniqueTxns where
  result : state.result = taken.map Prod.snd
  filtered : ∀ tested, tested ∈ state.filteredTxns ↔
    tested ∈ queue.excludedTxns request.excludedBatches ∨ tested ∈ knownTxns taken

namespace Takes

variable {taken : List (QueueEntry × QueueItem)} {state : PullState}

theorem push (takes : Takes queue request batchesWithoutProofs taken state) {entry : QueueEntry}
    {item : QueueItem} (offers : queue.Offers batchesWithoutProofs entry item)
    (notExcluded : entry.2 ∉ request.excludedBatches)
    (fits : (state.curAllTxns.add entry.2.size).exceeds request.maxTxns = false)
    (fitsUnique : state.curUniqueTxns + state.newTxns request entry.2 item ≤
      request.maxTxnsAfterFiltering) :
    Takes queue request batchesWithoutProofs (taken ++ [(entry, item)])
      (state.push request entry.2 item) := by
  obtain ⟨countFits, bytesFit⟩ := exceeds_eq_false_iff.mp fits
  have pushedSize : (state.push request entry.2 item).curAllTxns =
      state.curAllTxns.add entry.2.size := rfl
  have sizeCount : entry.2.size.count = entry.2.numTxns := count_new _ _
  let added := (if item.txnSummaries.isNone then entry.2.numTxns else 0) +
    (newUnexpired request state.filteredTxns (item.txnSummaries.getD [])).card
  have isUnique : (state.push request entry.2 item).curUniqueTxns =
      state.curUniqueTxns + added := by
    cases summaries : item.txnSummaries with
    | none => simp [added, PullState.push, summaries, newUnexpired]
    | some => simp [added, PullState.push, summaries, insertSummaries_count]
  have atMost : added ≤ state.newTxns request entry.2 item := by
    cases summaries : item.txnSummaries with
    | none => simp [added, newTxns, summaries, newUnexpired]
    | some =>
      simp only [added, newTxns, summaries, Option.isNone_some, Option.getD_some]
      simpa using newUnexpired_card_le _ _ _
  have moreKnown : knownTxns (taken ++ [(entry, item)]) =
      knownTxns taken ++ item.txnSummaries.getD [] := by
    simp [knownTxns]
  have moreUnknown : unknownTxns (taken ++ [(entry, item)]) =
      unknownTxns taken + if item.txnSummaries.isNone then entry.2.numTxns else 0 := by
    simp [unknownTxns]
  refine ⟨⟨forall_mem_append.mpr ⟨takes.offered, forall_mem_singleton.mpr offers⟩,
    forall_mem_append.mpr ⟨takes.notExcluded, forall_mem_singleton.mpr notExcluded⟩,
    ?_, ?_, ?_, ?_, ?_, by omega⟩, ?_, ?_⟩
  · rw [pushedSize, count_add, takes.count, sizeCount]
    simp
  · rw [pushedSize, bytes_add, takes.bytes]
    simp
  · rw [pushedSize]
    exact countFits
  · rw [pushedSize]
    exact bytesFit
  · rw [moreKnown, moreUnknown, newUnexpired_append request takes.filtered, isUnique, takes.unique]
    omega
  · change state.result ++ [item] = _
    rw [takes.result, map_append]
    rfl
  · intro tested
    rw [moreKnown, mem_append, ← or_assoc, ← takes.filtered]
    cases summaries : item.txnSummaries with
    | none => simp [PullState.push, summaries]
    | some => simp [PullState.push, summaries, mem_insertSummaries]

theorem offer (takes : Takes queue request batchesWithoutProofs taken state) {entry : QueueEntry}
    {item : QueueItem} (offers : queue.Offers batchesWithoutProofs entry item) :
    ∃ next, state.offer request batchesWithoutProofs entry.2 item = .ok next ∧
      (Takes queue request batchesWithoutProofs taken next.1 ∨
        Takes queue request batchesWithoutProofs (taken ++ [(entry, item)]) next.1) := by
  unfold PullState.offer
  split
  · exact ⟨_, rfl, .inl takes⟩
  · rename_i notExcluded
    split
    · exact ⟨_, rfl, .inl { takes with }⟩
    · rename_i fits
      rw [not_or, Bool.not_eq_true, not_lt] at fits
      have pushed := takes.push offers notExcluded fits.1 fits.2
      simp only [ensure_of offers.kind, ok_bind]
      split
      · exact ⟨_, rfl, .inr { pushed with }⟩
      · exact ⟨_, rfl, .inr pushed⟩

end Takes

/-- Every entry is taken at most once. -/
theorem walkInvariant_takes (entries : Multiset QueueEntry) :
    WalkInvariant queue request batchesWithoutProofs fun state ahead =>
      ∃ taken, ↑(taken.map Prod.fst) + ahead ≤ entries ∧
        Takes queue request batchesWithoutProofs taken state where
  drops := by
    rintro state ahead fewer ⟨taken, within, takes⟩ isFewer
    exact ⟨taken, le_trans (add_le_add_right isFewer _) within, takes⟩
  offers := by
    rintro state entry item ahead ⟨taken, within, takes⟩ offers -
    obtain ⟨next, isNext, takesSame | takesMore⟩ := takes.offer offers
    · refine ⟨next, isNext, taken, ?_, takesSame⟩
      refine le_trans (add_le_add_right ?_ _) within
      exact Multiset.le_cons_self _ _
    · refine ⟨next, isNext, taken ++ [(entry, item)], ?_, takesMore⟩
      rw [map_append, ← Multiset.coe_add, add_assoc]
      exact within

/-- Items taken from different entries of the queues, their size and unique transactions. -/
structure Returns (queue : BatchProofQueue) (request : PullRequest) (batchesWithoutProofs : Bool)
    (taken : List (QueueEntry × QueueItem)) (pulled : PullResult) : Prop extends
    Measures queue request batchesWithoutProofs taken pulled.allTxns pulled.uniqueTxns where
  items : pulled.items.Perm (taken.map Prod.snd)
  entries : (↑(taken.map Prod.fst) : Multiset QueueEntry) ≤
    ↑(queue.batchIters request.excludeAuthors).flatten

theorem pullInternal_spec (datable : queue.Datable)
    (aged : ∀ minAge, request.minBatchAgeUsecs = some minAge → minAge ≤ request.clock) :
    ∃ pulled taken, queue.pullInternal batchesWithoutProofs request = .ok pulled ∧
      Returns queue request batchesWithoutProofs taken pulled := by
  obtain ⟨maxBatchCreation, isCreation⟩ : ∃ maxBatchCreation,
    request.maxBatchCreation = .ok maxBatchCreation := by
    unfold PullRequest.maxBatchCreation
    cases isAge : request.minBatchAgeUsecs with
    | none => exact ⟨none, rfl⟩
    | some minAge =>
      simp only [checkedSub_of_le (aged minAge isAge)]
      exact ⟨some _, rfl⟩
  have start : ∃ taken : List (QueueEntry × QueueItem),
      (↑(taken.map Prod.fst) : Multiset QueueEntry) +
          ↑(queue.batchIters request.excludeAuthors).flatten ≤
        ↑(queue.batchIters request.excludeAuthors).flatten ∧
      Takes queue request batchesWithoutProofs taken
        { result := [], curUniqueTxns := 0, curAllTxns := .zero
          filteredTxns := queue.excludedTxns request.excludedBatches
          full := false } := by
    refine ⟨[], by simp, ?_⟩
    refine ⟨?_, by simp, by simp [knownTxns]⟩
    constructor <;> simp [knownTxns, unknownTxns, newUnexpired]
  obtain ⟨final, ⟨taken, within, takes⟩, isLoop⟩ :=
    @pullLoop_spec queue request batchesWithoutProofs maxBatchCreation _
      datable (walkInvariant_takes _) _ 0 _ _ start le_rfl
  rw [add_zero] at within
  have ran := isLoop 0
  rw [add_zero] at ran
  simp only [pullInternal, isCreation, ok_bind]
  rw [ran, ok_bind]
  split
  · refine ⟨_, taken, rfl, { takes with items := ?_, entries := within }⟩
    rw [← takes.result]
    exact perm_insertionSort _ _
  · exact ⟨_, [], rfl, ⟨by simp, by simp, rfl, rfl, Nat.zero_le _, Nat.zero_le _,
      by simp [knownTxns, unknownTxns, newUnexpired], Nat.zero_le _⟩, .refl _, Multiset.zero_le _⟩

end Result

/-- The entries of the queues and the items have the same infos. -/
structure Consistent (queue : BatchProofQueue) : Prop where
  entries : ∀ author key info, entryAt queue.authorToBatches author key = some info →
      key = .fromInfo info ∧ info.author = author
  infos : ∀ author key info item, entryAt queue.authorToBatches author key = some info →
    queue.items.lookup key.batchKey = some item →
      item.info = info ∧ ∀ proof, item.proof = some proof →
        proof.info = info ∧ item.proofInsertionTime.isSome
  datable : queue.Datable

variable {queue : BatchProofQueue} {request : PullRequest} {batchesWithoutProofs : Bool}
  {taken : List (QueueEntry × QueueItem)} {pulled : PullResult} {pair : QueueEntry × QueueItem}

theorem Returns.entryAt_of_taken (returns : Returns queue request batchesWithoutProofs taken pulled)
    (isTaken : pair ∈ taken) :
    ∃ author, entryAt queue.authorToBatches author pair.1.1 = some pair.1.2 := by
  have inEntries : pair.1 ∈ (queue.batchIters request.excludeAuthors).flatten :=
    Multiset.mem_coe.mp (Multiset.mem_of_le returns.entries
      (Multiset.mem_coe.mpr (mem_map_of_mem isTaken)))
  obtain ⟨iter, isIter, inIter⟩ := mem_flatten.mp inEntries
  obtain ⟨⟨author, batches⟩, isAuthor, rfl⟩ := mem_map.mp isIter
  refine ⟨author, ?_⟩
  have found := Table.lookup_eq_some_iff.mpr (mem_filter.mp isAuthor).1
  rw [entryAt, found, Option.bind_some]
  exact SortedMap.get?_eq_some_iff.mpr (mem_reverse.mp inIter)

namespace Consistent

theorem iters_nodup (consistent : queue.Consistent) (excludeAuthors : List AccountAddress) :
    (queue.batchIters excludeAuthors).flatten.Nodup := by
  rw [nodup_flatten]
  constructor
  · intro iter isIter
    obtain ⟨entry, _, rfl⟩ := mem_map.mp isIter
    exact nodup_reverse.mpr (List.Nodup.of_map _ entry.2.keys_nodup)
  · refine pairwise_map.mpr ?_
    have authors : (queue.authorToBatches.entries.filter fun entry =>
        decide (entry.1 ∉ excludeAuthors)).Pairwise fun left right => left.1 ≠ right.1 :=
      (pairwise_map.mp queue.authorToBatches.nodupKeys).filter _
    refine authors.imp_of_mem ?_
    intro left right isLeft isRight different entry inLeft inRight
    have authorOf (side : (_ : AccountAddress) × BatchQueue)
        (isSide : side ∈ queue.authorToBatches.entries.filter fun entry =>
          decide (entry.1 ∉ excludeAuthors))
        (inSide : entry ∈ side.2.entries.reverse) :
        entry.2.author = side.1 := by
      have found := Table.lookup_eq_some_iff.mpr (mem_filter.mp isSide).1
      have isEntry : entryAt queue.authorToBatches side.1 entry.1 = some entry.2 := by
        rw [entryAt, found, Option.bind_some]
        exact SortedMap.get?_eq_some_iff.mpr (mem_reverse.mp inSide)
      exact (consistent.entries _ _ _ isEntry).2
    exact different ((authorOf left isLeft inLeft).symm.trans (authorOf right isRight inRight))

section

variable (consistent : queue.Consistent)
  (returns : Returns queue request batchesWithoutProofs taken pulled)

include consistent returns

theorem taken_spec (isTaken : pair ∈ taken) :
    pair.2.info = pair.1.2 ∧ pair.1.1 = .fromInfo pair.1.2 ∧ ∀ proof, pair.2.proof = some proof →
        proof.info = pair.2.info ∧ pair.2.proofInsertionTime.isSome := by
  obtain ⟨author, isEntry⟩ := returns.entryAt_of_taken isTaken
  obtain ⟨isInfo, proofs⟩ := consistent.infos _ _ _ _ isEntry (returns.offered pair isTaken).stored
  refine ⟨isInfo, (consistent.entries _ _ _ isEntry).1, ?_⟩
  rw [isInfo]
  exact proofs

/-- No pull returns the same item twice. -/
theorem pulled_nodup : (pulled.items.map fun item => BatchKey.fromInfo item.info).Nodup := by
  have takenNodup : (taken.map Prod.fst).Nodup :=
    Multiset.coe_nodup.mp (Multiset.nodup_of_le returns.entries
      (Multiset.coe_nodup.mpr (consistent.iters_nodup _)))
  rw [(returns.items.map _).nodup_iff, map_map]
  refine (List.Nodup.of_map _ takenNodup).map_on ?_
  intro left isLeft right isRight sameKey
  obtain ⟨leftInfo, leftKey, _⟩ := consistent.taken_spec returns isLeft
  obtain ⟨rightInfo, rightKey, _⟩ := consistent.taken_spec returns isRight
  have leftStored := (returns.offered left isLeft).stored
  have rightStored := (returns.offered right isRight).stored
  have batchKey : left.1.1.batchKey = right.1.1.batchKey := by
    rw [leftKey, rightKey, ← leftInfo, ← rightInfo]
    exact sameKey
  rw [batchKey, rightStored] at leftStored
  have sameItem : right.2 = left.2 := Option.some.inj leftStored
  have sameInfo : left.1.2 = right.1.2 := by rw [← leftInfo, ← rightInfo, sameItem]
  refine Prod.ext (Prod.ext ?_ sameInfo) sameItem.symm
  rw [leftKey, rightKey, sameInfo]

end

theorem pullProofs_spec (consistent : queue.Consistent) (request : PullRequest) :
    ∃ proofs taken pulled, queue.pullProofs request =
        .ok (proofs, pulled.allTxns, pulled.uniqueTxns, !pulled.isFull) ∧
      proofs.map ProofOfStore.info = pulled.items.map QueueItem.info ∧
      Returns queue { request with excludeAuthors := [], minBatchAgeUsecs := none }
        false taken pulled := by
  obtain ⟨pulled, taken, isPulled, returns⟩ := @pullInternal_spec queue
    { request with excludeAuthors := [], minBatchAgeUsecs := none }
    false consistent.datable (by
      intro minAge isAge
      cases isAge)
  have haveProofs : ∀ item ∈ pulled.items, ∃ proof,
      proofOf item = .ok proof ∧ proof.info = item.info := by
    intro item isItem
    obtain ⟨pair, isTaken, rfl⟩ := mem_map.mp (returns.items.mem_iff.mp isItem)
    have hasProof : pair.2.proof.isSome := by simpa using (returns.offered pair isTaken).kind
    obtain ⟨proof, isProof⟩ := Option.isSome_iff_exists.mp hasProof
    obtain ⟨sameInfo, hasInstant⟩ := (consistent.taken_spec returns isTaken).2.2 proof isProof
    obtain ⟨instant, isInstant⟩ := Option.isSome_iff_exists.mp hasInstant
    refine ⟨proof, ?_, sameInfo⟩
    simp only [proofOf, isProof, isInstant, expect, ok_bind]
    rfl
  obtain ⟨proofs, areProofs, sameInfos⟩ := mapM_named haveProofs
  refine ⟨proofs, taken, pulled, ?_, sameInfos, returns⟩
  simp only [pullProofs, isPulled, ok_bind, areProofs]
  rfl

theorem pullBatches_spec (consistent : queue.Consistent) {request : PullRequest}
    (aged : ∀ minAge, request.minBatchAgeUsecs = some minAge → minAge ≤ request.clock) :
    ∃ taken pulled, queue.pullBatches request =
        .ok (pulled.items.map QueueItem.info, pulled.allTxns, pulled.uniqueTxns) ∧
      Returns queue request true taken pulled := by
  obtain ⟨pulled, taken, isPulled, returns⟩ :=
    @pullInternal_spec queue request true consistent.datable aged
  refine ⟨taken, pulled, ?_, returns⟩
  simp only [pullBatches, isPulled, ok_bind]
  rfl

theorem withTransactions_sublist (store : LocalBatches) (batches : List BatchInfo) :
    ((withTransactions store batches).map Prod.fst).Sublist batches := by
  induction batches with
  | nil => exact List.Sublist.refl _
  | cons batch rest inductionHypothesis =>
    unfold withTransactions at inductionHypothesis ⊢
    rw [filterMap_cons]
    split
    · exact inductionHypothesis.cons _
    · rename_i pair isPair
      obtain ⟨payload, _, isPayload⟩ := Option.bind_eq_some_iff.mp isPair
      obtain ⟨txns, _, rfl⟩ := Option.map_eq_some_iff.mp isPayload
      exact inductionHypothesis.cons_cons _

theorem pullBatchesWithTransactions_spec (consistent : queue.Consistent)
    (store : LocalBatches) (request : PullRequest) :
    ∃ taken pulled, queue.pullBatchesWithTransactions store request =
        .ok (withTransactions store (pulled.items.map QueueItem.info),
          pulled.allTxns, pulled.uniqueTxns) ∧
      Returns queue { request with excludeAuthors := [], minBatchAgeUsecs := none }
        true taken pulled := by
  obtain ⟨taken, pulled, isPulled, returns⟩ := @pullBatches_spec queue consistent
    { request with excludeAuthors := [], minBatchAgeUsecs := none } (by
      intro minAge isAge
      cases isAge)
  refine ⟨taken, pulled, ?_, returns⟩
  simp only [pullBatchesWithTransactions, isPulled, ok_bind]
  rfl

end Consistent

end BatchProofQueue

end LumioNode
