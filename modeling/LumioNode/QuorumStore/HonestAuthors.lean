import LumioNode.QuorumStore.Counting
import LumioNode.QuorumStore.PullSpec

/-! # The queue of honest authors

Every operation keeps the maps together and the counters exact, and a committed batch
stays so until it expires. -/

namespace LumioNode.BatchProofQueue

open Library QueueItem BatchKey Table List Option

/-- The invariant of the queue, with the batches that were marked committed. -/
structure Honest (names : BatchKey → BatchInfo) (committed : List BatchInfo)
    (pending : List BatchSortKey) (queue : BatchProofQueue) : Prop where
  filed : Filed names pending queue
  counted : Counted queue queue.items
  committedNamed : ∀ info ∈ committed, names (.fromInfo info) = info
  marked : ∀ info ∈ committed, queue.latestBlockTimestamp < info.expiration →
      ∃ item, queue.items.lookup (.fromInfo info) = some item ∧ item.isCommitted = true

namespace Honest

variable {names : BatchKey → BatchInfo} {committed : List BatchInfo}
  {pending : List BatchSortKey} {queue : BatchProofQueue}

theorem new (names : BatchKey → BatchInfo) (myPeerId : AccountAddress) (gap : Nat) :
    Honest names [] [] (BatchProofQueue.new myPeerId gap) where
  filed := ⟨nofun, nofun, nofun, nofun, nofun⟩
  counted := ⟨rfl, rfl, rfl, rfl, fun _ => rfl, nofun⟩
  committedNamed := nofun
  marked := nofun

variable {info : BatchInfo} {key : BatchSortKey} {item : QueueItem}

section

variable (honest : Honest names committed pending queue)

include honest

theorem gc (timestamp : Nat) :
    Honest names committed pending (queue.gcExpiredBatchSummariesWithoutProofs timestamp) where
  filed := honest.filed.gc timestamp
  counted := by
    have kept : Counted queue (queue.items.retain fun _ item =>
        !isExpiredSummary timestamp item) := by
      refine honest.counted.congr fun weight only => total_retain ?_
      intro key item _ dropped
      refine only key item ?_
      simp only [isExpiredSummary, Bool.not_not, Bool.or_eq_false_iff] at dropped
      exact dropped.1.2
    exact { kept with }
  committedNamed := honest.committedNamed
  marked := by
    intro info isCommitted later
    obtain ⟨item, stored, isMarked⟩ := honest.marked info isCommitted later
    refine ⟨item, ?_, isMarked⟩
    change (queue.items.retain _).lookup _ = _
    rw [lookup_retain, filter_eq_some_iff]
    exact ⟨stored, by simp [isExpiredSummary, isMarked]⟩

theorem sampleGc (collectAt : Option Nat) :
    Honest names committed pending (queue.sampleGc collectAt) := by
  cases collectAt with
  | none => exact honest
  | some timestamp => exact honest.gc timestamp

theorem marked_of_insert {key : BatchKey} {next : QueueItem}
    (notMarked : ∀ item, queue.items.lookup key = some item → item.isCommitted = false) :
    ∀ info ∈ committed, queue.latestBlockTimestamp < info.expiration →
      ∃ item, (queue.items.insert key next).lookup (.fromInfo info) =
        some item ∧ item.isCommitted = true := by
  intro info isCommitted later
  obtain ⟨item, stored, isMarked⟩ := honest.marked info isCommitted later
  refine ⟨item, ?_, isMarked⟩
  rw [lookup_insert_eq, if_neg, stored]
  intro same
  rw [same] at stored
  rw [notMarked item stored] at isMarked
  cases isMarked

theorem info_of_known (named : Named names queue.batchExpiryGapWhenInitUsecs info)
    (known : queue.items.lookup (.fromInfo info) = some item) :
    ItemFits queue.latestBlockTimestamp queue.batchExpiryGapWhenInitUsecs
      pending (.fromInfo info) info item := by
  have fits := honest.filed.fits _ _ known
  rw [named.isNamed] at fits
  exact fits

theorem insertProof {proof : ProofOfStore}
    (named : Named names queue.batchExpiryGapWhenInitUsecs proof.info) (instant : Nat)
    (collectAt : Option Nat) :
    Honest names committed pending (queue.insertProof proof instant collectAt) := by
  unfold BatchProofQueue.insertProof
  simp only
  split
  · exact honest
  split
  · exact honest
  rename_i notExpired notKnown
  refine sampleGc ?_ collectAt
  let known := queue.items.lookup (fromInfo proof.info)
  have isKnown : queue.items.lookup (fromInfo proof.info) = known := rfl
  rw [isKnown] at notKnown ⊢
  have proofless : ∀ item, known = some item →
      item.proof.isSome = false ∧ item.isCommitted = false := by
    intro item isItem
    rw [isItem] at notKnown
    simpa using notKnown
  have isInfo : (withProof known proof instant).info =
      proof.info := by
    cases isItem : known with
    | none => rfl
    | some => exact (honest.info_of_known named isItem).info_eq
  have hasProof : (withProof known proof instant).proof = some proof := by cases known <;> rfl
  have insertedTime : (withProof known proof instant).proofInsertionTime =
      some instant := by
    cases known <;> rfl
  have summaries : (known.bind txnSummaries).getD [] =
      (withProof known proof instant).txnSummaries.getD [] := by
    cases known <;> rfl
  refine ⟨?_, ?_, honest.committedNamed,
    honest.marked_of_insert fun item stored => (proofless item stored).2⟩
  · have fits : ItemFits queue.latestBlockTimestamp
        queue.batchExpiryGapWhenInitUsecs pending (.fromInfo proof.info)
        proof.info (withProof known proof instant) := by
      refine ⟨isInfo, rfl, named.gap_le, ?_, ?_, fun _ => .inl (not_le.mp notExpired)⟩
      · intro other isOther
        rw [hasProof] at isOther
        cases isOther
        rfl
      · rw [hasProof, insertedTime]
        rfl
    exact { honest.filed.file fits named with }
  · rw [summaries]
    exact { honest.counted.add (fun item stored => (proofless item stored).1)
      (by rw [hasProof]; rfl) isInfo with }

theorem insertBatch (named : Named names queue.batchExpiryGapWhenInitUsecs info)
    (txnSummaries : List TxnSummaryWithExpiration) :
    Honest names committed pending (queue.insertBatch info txnSummaries) := by
  unfold BatchProofQueue.insertBatch
  simp only
  split
  · exact honest
  rename_i notKnown
  let known := queue.items.lookup (fromInfo info)
  have isKnown : queue.items.lookup (fromInfo info) = known := rfl
  rw [isKnown] at notKnown ⊢
  have noSummaries : ∀ item, known = some item →
      item.isCommitted = false ∧ item.txnSummaries = none := by
    intro item isItem
    rw [isItem] at notKnown
    simpa using notKnown
  have fits : ItemFits queue.latestBlockTimestamp
      queue.batchExpiryGapWhenInitUsecs pending (.fromInfo info) info
      (withSummaries known info txnSummaries) := by
    cases isItem : known with
    | none => exact ⟨rfl, rfl, named.gap_le, nofun, rfl, nofun⟩
    | some => exact { honest.info_of_known named isItem with }
  refine ⟨{ honest.filed.file fits named with }, ?_,
    honest.committedNamed, honest.marked_of_insert fun item stored => (noSummaries item stored).1⟩
  have counted : Counted { queue with
      txnSummaryNumOccurrences := if known.any fun item => item.proof.isSome then
          addOccurrences queue.txnSummaryNumOccurrences txnSummaries
        else queue.txnSummaryNumOccurrences }
      (queue.items.insert (.fromInfo info) (withSummaries known info txnSummaries)) := by
    by_cases hasProof : known.any fun item => item.proof.isSome
    · rw [if_pos hasProof]
      cases isItem : known with
      | none =>
        rw [isItem] at hasProof
        cases hasProof
      | some item =>
        rw [isItem] at hasProof
        exact honest.counted.addSummaries isItem hasProof (noSummaries item isItem).2 txnSummaries
    · rw [if_neg hasProof]
      refine honest.counted.insert_proofless (fun item isItem => ?_) ?_
      · simpa [← isKnown, isItem] using hasProof
      · cases isItem : known with
        | none => rfl
        | some => simpa [isItem, withSummaries] using hasProof
  exact { counted with }

end

theorem gap_insertBatch (queue : BatchProofQueue) (info : BatchInfo)
    (txnSummaries : List TxnSummaryWithExpiration) :
    (queue.insertBatch info txnSummaries).batchExpiryGapWhenInitUsecs =
      queue.batchExpiryGapWhenInitUsecs := by
  unfold BatchProofQueue.insertBatch
  simp only
  split <;> rfl

section

variable (honest : Honest names committed pending queue)

include honest

theorem insertBatches {batches : List (BatchInfo × List TxnSummaryWithExpiration)}
    (named : ∀ batch ∈ batches, Named names queue.batchExpiryGapWhenInitUsecs batch.1)
    (collectAt : Option Nat) :
    Honest names committed pending (queue.insertBatches batches collectAt) := by
  refine sampleGc ?_ collectAt
  induction batches generalizing queue with
  | nil => exact honest
  | cons batch rest inductionHypothesis =>
    apply inductionHypothesis
    · exact honest.insertBatch (named batch mem_cons_self) batch.2
    · intro other isOther
      rw [gap_insertBatch]
      exact named other (mem_cons_of_mem _ isOther)

theorem markBatchCommitted {batch : BatchInfo}
    (named : Named names queue.batchExpiryGapWhenInitUsecs batch) :
    ∃ after, queue.markBatchCommitted batch = .ok after ∧ after.batchExpiryGapWhenInitUsecs =
        queue.batchExpiryGapWhenInitUsecs ∧
      after.latestBlockTimestamp = queue.latestBlockTimestamp ∧
      Honest names (batch :: committed) pending after := by
  have committedNamed : ∀ info ∈ batch :: committed, names (.fromInfo info) = info :=
    forall_mem_cons.mpr ⟨named.isNamed, honest.committedNamed⟩
  have marks (items : Table BatchKey QueueItem) (item : QueueItem) (sameItems : items = queue.items)
      (isMarked : item.isCommitted = true) :
      ∀ info ∈ batch :: committed, queue.latestBlockTimestamp < info.expiration →
          ∃ found, (items.insert (.fromInfo batch) item).lookup
              (.fromInfo info) = some found ∧ found.isCommitted = true := by
    intro info isCommitted later
    rw [sameItems, lookup_insert_eq]
    split
    · exact ⟨item, rfl, isMarked⟩
    · rename_i different
      rcases mem_cons.mp isCommitted with rfl | earlier
      · exact absurd rfl different
      · exact honest.marked info earlier later
  cases known : queue.items.lookup (fromInfo batch) with
  | none =>
    have isMarked : queue.markBatchCommitted batch =
        .ok { (queue.addExpiration batch).enqueue batch with
          items := queue.items.insert (.fromInfo batch)
            { info := batch, txnSummaries := none, proof := none
              proofInsertionTime := none } } := by
      simp only [BatchProofQueue.markBatchCommitted, known]
      rfl
    refine ⟨_, isMarked, rfl, rfl, ?_, ?_, committedNamed, marks _ _ rfl rfl⟩
    · have fits : ItemFits queue.latestBlockTimestamp
          queue.batchExpiryGapWhenInitUsecs pending (.fromInfo batch) batch
          { info := batch, txnSummaries := none, proof := none
            proofInsertionTime := none } :=
        ⟨rfl, rfl, named.gap_le, nofun, rfl, nofun⟩
      exact { honest.filed.file fits named with }
    · exact { honest.counted.insert_proofless (by simp [known]) rfl with }
  | some item =>
    have fits := honest.info_of_known named known
    have updated := honest.filed.update item.markCommitted
      ⟨fits.info_eq, fits.key_eq, fits.gap_le, nofun, rfl, nofun⟩ named.isNamed known
    by_cases hasProof : item.proof.isSome
    · have replaced (weight : BatchKey → QueueItem → Nat) (only : ProofsOnly weight) :
          total weight (queue.items.insert (.fromInfo batch)
              item.markCommitted) + weight (.fromInfo batch) item =
            total weight queue.items := by
        have totals := total_replace weight known item.markCommitted
        rw [only _ item.markCommitted rfl] at totals
        exact totals
      obtain ⟨counters, isRemoved, counted⟩ := honest.counted.removeProof hasProof replaced
      rw [fits.info_eq] at isRemoved
      obtain ⟨instant, isInstant⟩ := isSome_iff_exists.mp (fits.inserted.trans hasProof)
      have isMarked : queue.markBatchCommitted batch =
          .ok { queue.recount counters with
            items := queue.items.insert (.fromInfo batch) item.markCommitted } := by
        simp only [BatchProofQueue.markBatchCommitted, known,
          if_pos hasProof, isInstant, expect, ok_bind, isRemoved]
        rfl
      exact ⟨_, isMarked, rfl, rfl, { updated with }, { counted with },
        committedNamed, marks _ _ rfl rfl⟩
    · have isMarked : queue.markBatchCommitted batch =
          .ok { queue with
            items := queue.items.insert (.fromInfo batch) item.markCommitted } := by
        simp only [BatchProofQueue.markBatchCommitted, known, if_neg hasProof, ok_bind]
      refine ⟨_, isMarked, rfl, rfl, { updated with }, ?_, committedNamed, marks _ _ rfl rfl⟩
      exact { honest.counted.insert_proofless (by simpa [known] using hasProof) rfl with }

theorem markCommitted {batches : List BatchInfo}
    (named : ∀ batch ∈ batches, Named names queue.batchExpiryGapWhenInitUsecs batch) :
    ∃ after, queue.markCommitted batches = .ok after ∧ after.batchExpiryGapWhenInitUsecs =
        queue.batchExpiryGapWhenInitUsecs ∧
      Honest names (batches.reverse ++ committed) pending after := by
  induction batches generalizing queue committed with
  | nil => exact ⟨queue, rfl, rfl, honest⟩
  | cons batch rest inductionHypothesis =>
    obtain ⟨next, isNext, sameGap, _, nextHonest⟩ :=
      honest.markBatchCommitted (named batch mem_cons_self)
    obtain ⟨after, isAfter, restGap, afterHonest⟩ :=
      inductionHypothesis nextHonest (sameGap ▸ (forall_mem_cons.mp named).2)
    refine ⟨after, ?_, restGap.trans sameGap, ?_⟩
    · simp only [BatchProofQueue.markCommitted, isNext, ok_bind, isAfter]
    · rw [reverse_cons, append_assoc]
      exact afterHonest

/-- Batches that have not expired keep their marks. -/
theorem marked_of_expire {key : BatchKey}
    (passed : (names key).expiration ≤ queue.latestBlockTimestamp) :
    ∀ info ∈ committed, queue.latestBlockTimestamp < info.expiration →
      ∃ item, (queue.items.erase key).lookup (.fromInfo info) = some item ∧
        item.isCommitted = true := by
  intro info isCommitted later
  obtain ⟨item, stored, isMarked⟩ := honest.marked info isCommitted later
  refine ⟨item, ?_, isMarked⟩
  rw [lookup_erase_eq, if_neg, stored]
  intro same
  rw [← same, honest.committedNamed info isCommitted] at passed
  omega

theorem removeExpired (passed : (names key.batchKey).expiration ≤ queue.latestBlockTimestamp)
    (stored : queue.items.lookup key.batchKey = some item) :
    ∃ counters, queue.removeExpired queue.latestBlockTimestamp key (names key.batchKey) =
        .ok { queue.recount counters with items := queue.items.erase key.batchKey } ∧
      Counted (queue.recount counters) (queue.items.erase key.batchKey) := by
  have fits := honest.filed.fits _ _ stored
  have loses (weight : BatchKey → QueueItem → Nat) :
      total weight (queue.items.erase key.batchKey) +
          weight key.batchKey item = total weight queue.items := by
    rw [total_of_lookup weight stored]
    omega
  by_cases hasProof : item.proof.isSome
  · obtain ⟨counters, isRemoved, counted⟩ := honest.counted.removeProof hasProof fun weight _ =>
      loses weight
    rw [fits.info_eq] at isRemoved
    refine ⟨counters, ?_, counted⟩
    simp only [BatchProofQueue.removeExpired, stored, expect, ok_bind,
      if_pos hasProof, checkedSub_of_le passed, isRemoved]
    rfl
  · refine ⟨⟨queue.remainingTxnsWithDuplicates, queue.remainingProofs,
      queue.remainingLocalTxns, queue.remainingLocalProofs,
      queue.txnSummaryNumOccurrences⟩, ?_, ?_⟩
    · simp only [BatchProofQueue.removeExpired, stored, expect, ok_bind, if_neg hasProof]
      rfl
    · refine honest.counted.congr fun weight only => ?_
      have noProof : item.proof.isSome = false := by simpa using hasProof
      have totals := loses weight
      rw [only _ item noProof] at totals
      exact totals

end

theorem expireKey {rest : List BatchSortKey} (honest : Honest names committed (key :: rest) queue)
    (isSorted : key = .fromInfo (names key.batchKey))
    (passed : (names key.batchKey).expiration ≤ queue.latestBlockTimestamp) :
    ∃ after, queue.expireKey queue.latestBlockTimestamp key = .ok after ∧
      after.latestBlockTimestamp = queue.latestBlockTimestamp ∧
      after.batchExpiryGapWhenInitUsecs = queue.batchExpiryGapWhenInitUsecs ∧
      Honest names committed rest after := by
  cases isFound : queue.authorToBatches.lookup key.author with
  | none =>
    refine ⟨queue, by simp only [BatchProofQueue.expireKey, isFound], rfl,
      rfl, honest.filed.skip ?_, honest.counted, honest.committedNamed,
      honest.marked⟩
    rw [entryAt, isFound, bind_none]
  | some found =>
    have isEntry : entryAt queue.authorToBatches key.author key = found.get? key := by
      rw [entryAt, isFound, bind_some]
    have expired := honest.filed.expire isFound isSorted
    cases inQueue : found.get? key with
    | none =>
      rw [inQueue] at isEntry
      have absent : queue.items.lookup key.batchKey = none := by
        cases stored : queue.items.lookup key.batchKey with
        | none => rfl
        | some =>
          have wasEntry := honest.filed.queued _ _ stored
          rw [← isSorted, show key.batchKey.author = key.author from rfl, isEntry] at wasEntry
          cases wasEntry
      rw [erase_of_lookup_none absent] at expired
      refine ⟨_, by
          simp only [BatchProofQueue.expireKey, isFound, inQueue, ok_bind]
          rfl, ?_⟩
      exact ⟨rfl, rfl, { expired with }, { honest.counted with },
        honest.committedNamed, honest.marked⟩
    | some =>
      rw [inQueue] at isEntry
      obtain ⟨isBatch, _⟩ := honest.filed.entry_unique isEntry
      subst isBatch
      obtain ⟨isKey, _, _, item, stored⟩ := honest.filed.entries _ _ _ isEntry
      rw [show fromInfo (names key.batchKey) = key.batchKey from
        congrArg BatchSortKey.batchKey isKey.symm] at stored
      obtain ⟨counters, isRemoved, counted⟩ := honest.removeExpired passed stored
      refine ⟨_, by
          simp only [BatchProofQueue.expireKey, isFound, inQueue, isRemoved, ok_bind]
          rfl, ?_⟩
      exact ⟨rfl, rfl, { expired with }, { counted with },
        honest.committedNamed, honest.marked_of_expire passed⟩

theorem expireKeys {popped : List BatchSortKey} (honest : Honest names committed popped queue)
    (isPopped : ∀ key ∈ popped, key = .fromInfo (names key.batchKey) ∧
      (names key.batchKey).expiration ≤ queue.latestBlockTimestamp) :
    ∃ after, queue.expireKeys queue.latestBlockTimestamp popped = .ok after ∧
      after.latestBlockTimestamp = queue.latestBlockTimestamp ∧
      after.batchExpiryGapWhenInitUsecs = queue.batchExpiryGapWhenInitUsecs ∧
      Honest names committed [] after := by
  induction popped generalizing queue with
  | nil => exact ⟨queue, rfl, rfl, rfl, honest⟩
  | cons key rest inductionHypothesis =>
    obtain ⟨isSorted, passed⟩ := isPopped key mem_cons_self
    obtain ⟨next, isNext, sameLatest, sameGap, nextHonest⟩ := honest.expireKey isSorted passed
    obtain ⟨after, isAfter, afterLatest, afterGap, afterHonest⟩ :=
      inductionHypothesis nextHonest (sameLatest ▸ (forall_mem_cons.mp isPopped).2)
    refine ⟨after, ?_, afterLatest.trans sameLatest, afterGap.trans sameGap, afterHonest⟩
    rw [sameLatest] at isAfter
    simp only [BatchProofQueue.expireKeys, isNext, ok_bind, isAfter]

theorem handleUpdatedBlockTimestamp (honest : Honest names committed [] queue)
    (blockTimestamp : Nat) (iteration : Shuffle BatchSortKey) :
    ∃ after, queue.handleUpdatedBlockTimestamp blockTimestamp iteration = .ok after ∧
      after.batchExpiryGapWhenInitUsecs = queue.batchExpiryGapWhenInitUsecs ∧
      Honest names committed [] after := by
  unfold BatchProofQueue.handleUpdatedBlockTimestamp
  split
  · exact ⟨queue, rfl, rfl, honest⟩
  · rename_i notEarlier
    have isPopped (key : BatchSortKey) :=
      (iteration.perm 0 (queue.expirations.expire blockTimestamp).1).mem_iff (a := key)
    have advanced : Honest names committed
        (iteration.run 0 (queue.expirations.expire blockTimestamp).1)
        { queue with
          latestBlockTimestamp := blockTimestamp
          expirations := (queue.expirations.expire blockTimestamp).2 } := by
      refine ⟨honest.filed.advance isPopped, { honest.counted with }, honest.committedNamed, ?_⟩
      intro info isCommitted later
      exact honest.marked info isCommitted (lt_of_le_of_lt (not_lt.mp notEarlier) later)
    obtain ⟨after, isAfter, _, sameGap, afterHonest⟩ := advanced.expireKeys fun key inPopped =>
        honest.filed.popped_spec ((isPopped key).mp inPopped)
    exact ⟨after, isAfter, sameGap, afterHonest⟩

theorem consistent (honest : Honest names committed pending queue) : queue.Consistent where
  entries := by
    intro author key info isEntry
    obtain ⟨isKey, isAuthor, _⟩ := honest.filed.entries author key info isEntry
    exact ⟨isKey, isAuthor⟩
  infos := by
    intro author key info item isEntry stored
    have fits := honest.filed.fits _ _ stored
    obtain ⟨isInfo, _⟩ := honest.filed.entry_unique isEntry
    rw [isInfo]
    refine ⟨fits.info_eq, ?_⟩
    intro proof isProof
    refine ⟨fits.proof_info proof isProof, ?_⟩
    rw [fits.inserted, isProof]
    rfl
  datable := by
    intro key item stored
    have fits := honest.filed.fits key item stored
    rw [fits.info_eq]
    exact fits.gap_le

/-- A batch that was marked committed is not returned while it lives. -/
theorem pulled_not_committed (honest : Honest names committed pending queue)
    {request : PullRequest} {batchesWithoutProofs : Bool} {taken : List (QueueEntry × QueueItem)}
    {pulled : PullResult} (returns : Returns queue request batchesWithoutProofs taken pulled)
    (isCommitted : info ∈ committed) (later : queue.latestBlockTimestamp < info.expiration) :
    ∀ item ∈ pulled.items, fromInfo item.info ≠ fromInfo info := by
  intro item isPulled sameKey
  obtain ⟨pair, isTaken, rfl⟩ := mem_map.mp (returns.items.mem_iff.mp isPulled)
  obtain ⟨other, stored, isMarked⟩ := honest.marked info isCommitted later
  have offers := returns.offered pair isTaken
  obtain ⟨isInfo, isKey, _⟩ := honest.consistent.taken_spec returns isTaken
  rw [← sameKey, isInfo, show fromInfo pair.1.2 = pair.1.1.batchKey
    from congrArg BatchSortKey.batchKey isKey.symm, offers.stored] at stored
  cases stored
  rw [offers.notCommitted] at isMarked
  cases isMarked

end Honest

end LumioNode.BatchProofQueue
