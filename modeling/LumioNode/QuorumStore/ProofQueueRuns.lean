import LumioNode.QuorumStore.HonestAuthors

/-! # Runs of the queue

What validators send, commits, block timestamps, collections by the wall clock, and
pulls. -/

namespace LumioNode.BatchProofQueue

open Library List

inductive Call where
  | insertProof (proof : ProofOfStore) (instant : Nat)
      (collectAt : Option Nat)
  | insertBatches
      (batches : List (BatchInfo × List TxnSummaryWithExpiration))
      (collectAt : Option Nat)
  | gcExpiredBatchSummariesWithoutProofs (timestamp : Nat)
  | markCommitted (batches : List BatchInfo)
  | handleUpdatedBlockTimestamp (blockTimestamp : Nat)
      (iteration : Shuffle BatchSortKey)
  | pullProofs (request : PullRequest)
  | pullBatches (request : PullRequest)
  | pullBatchesWithTransactions (store : LocalBatches) (request : PullRequest)

namespace Call

/-- The batch infos that a call brings into the queue. -/
def infos : Call → List BatchInfo
  | insertProof proof _ _ => [proof.info]
  | insertBatches batches _ => batches.map Prod.fst
  | markCommitted batches => batches
  | _ => []

def committed : Call → List BatchInfo
  | markCommitted batches => batches
  | _ => []

def isPull : Call → Bool
  | pullProofs _ => true
  | pullBatches _ => true
  | pullBatchesWithTransactions _ _ => true
  | _ => false

/-- A minimum age that is asked for has passed since the epoch. -/
def Aged : Call → Prop
  | pullBatches request => ∀ minAge, request.minBatchAgeUsecs = some minAge →
      minAge ≤ request.clock
  | _ => True

end Call

def answer (queue : BatchProofQueue) : Call → Except Fault (BatchProofQueue × List BatchKey)
  | .insertProof proof instant collectAt =>
    .ok (queue.insertProof proof instant collectAt, [])
  | .insertBatches batches collectAt =>
    .ok (queue.insertBatches batches collectAt, [])
  | .gcExpiredBatchSummariesWithoutProofs timestamp =>
    .ok (queue.gcExpiredBatchSummariesWithoutProofs timestamp, [])
  | .markCommitted batches => do
      let queue ← queue.markCommitted batches
      .ok (queue, [])
  | .handleUpdatedBlockTimestamp blockTimestamp iteration => do
      let queue ← queue.handleUpdatedBlockTimestamp blockTimestamp iteration
      .ok (queue, [])
  | .pullProofs request => do
      let pulled ← queue.pullProofs request
      .ok (queue, pulled.1.map fun proof => .fromInfo proof.info)
  | .pullBatches request => do
      let pulled ← queue.pullBatches request
      .ok (queue, pulled.1.map BatchKey.fromInfo)
  | .pullBatchesWithTransactions store request => do
      let pulled ← queue.pullBatchesWithTransactions store request
      .ok (queue, pulled.1.map fun batch => .fromInfo batch.1)

/-- The queue and what its pulls have returned, the last one first. -/
structure Session where
  queue : BatchProofQueue
  returned : List (List BatchKey)

namespace Session

def new (myPeerId : AccountAddress) (gap : Nat) : Session := ⟨.new myPeerId gap, []⟩

def perform (session : Session) (call : Call) : Except Fault Session := do
  let (queue, keys) ← session.queue.answer call
  .ok ⟨queue, keys :: session.returned⟩

def run (myPeerId : AccountAddress) (gap : Nat) (calls : List Call) : Except Fault Session :=
  runAll perform (.new myPeerId gap) calls

end Session

/-- A stored proof that is neither committed nor expired. -/
def isLive (latestBlockTimestamp : Nat) (item : QueueItem) : Bool :=
  item.proof.isSome && !item.isCommitted && decide (latestBlockTimestamp < item.info.expiration)

def sumLive (queue : BatchProofQueue) (value : QueueItem → Nat) : Nat := Table.total (fun _ item =>
    if isLive queue.latestBlockTimestamp item then value item else 0)
    queue.items

variable {call : Call}

namespace Honest

variable {names : BatchKey → BatchInfo} {committed : List BatchInfo} {queue : BatchProofQueue}

section

variable (honest : Honest names committed [] queue)

include honest

theorem subset {fewer : List BatchInfo} (isSubset : ∀ info ∈ fewer, info ∈ committed) :
    Honest names fewer [] queue :=
  ⟨honest.filed, honest.counted,
    fun info isFewer => honest.committedNamed info (isSubset info isFewer),
    fun info isFewer => honest.marked info (isSubset info isFewer)⟩

theorem isLive_eq {key : BatchKey} {item : QueueItem}
    (stored : queue.items.lookup key = some item) :
    isLive queue.latestBlockTimestamp item = item.proof.isSome := by
  have fits := honest.filed.fits key item stored
  unfold isLive
  cases isProof : item.proof with
  | none => simp
  | some =>
    have unexpired := (fits.unexpired (by rw [isProof]; rfl)).resolve_right not_mem_nil
    rw [← fits.info_eq] at unexpired
    simp [QueueItem.isCommitted, isProof, unexpired]

theorem sumLive_eq (value : QueueItem → Nat) :
    queue.sumLive value = Table.total (fun _ item => if item.proof.isSome then value item else 0)
        queue.items :=
  Table.total_congr fun key item stored => by
    rw [honest.isLive_eq stored]

theorem answer_pull (isPull : call.isPull = true) (aged : call.Aged) :
    ∃ keys request batchesWithoutProofs taken pulled, queue.answer call = .ok (queue, keys) ∧
      Returns queue request batchesWithoutProofs taken pulled ∧
      keys.Sublist (pulled.items.map fun item => .fromInfo item.info) := by
  cases call with
  | pullProofs request =>
    obtain ⟨proofs, taken, pulled, isPulled, sameInfos, returns⟩ :=
      honest.consistent.pullProofs_spec request
    refine ⟨proofs.map fun proof => .fromInfo proof.info, _, false, taken, pulled, ?_, returns, ?_⟩
    · simp only [answer, isPulled, ok_bind]
    · have sameKeys := congrArg (List.map BatchKey.fromInfo) sameInfos
      rw [map_map, map_map] at sameKeys
      exact sameKeys ▸ List.Sublist.refl _
  | pullBatches request =>
    obtain ⟨taken, pulled, isPulled, returns⟩ := honest.consistent.pullBatches_spec aged
    refine ⟨(pulled.items.map QueueItem.info).map .fromInfo, request, true,
      taken, pulled, ?_, returns, ?_⟩
    · simp only [answer, isPulled, ok_bind]
    · rw [map_map]
      exact List.Sublist.refl _
  | pullBatchesWithTransactions store request =>
    obtain ⟨taken, pulled, isPulled, returns⟩ :=
      honest.consistent.pullBatchesWithTransactions_spec store request
    refine ⟨(withTransactions store (pulled.items.map QueueItem.info)).map fun batch =>
          .fromInfo batch.1,
      _, true, taken, pulled, ?_, returns, ?_⟩
    · simp only [answer, isPulled, ok_bind]
    · have mapped := (Consistent.withTransactions_sublist store
        (pulled.items.map QueueItem.info)).map BatchKey.fromInfo
      rw [map_map, map_map] at mapped
      exact mapped
  | _ => cases isPull

/-- One call: it succeeds, keeps the invariant, and returns no key twice. -/
theorem answer (named : ∀ info ∈ call.infos, Named names queue.batchExpiryGapWhenInitUsecs info)
    (aged : call.Aged) :
    ∃ after keys, queue.answer call = .ok (after, keys) ∧ keys.Nodup ∧
      after.batchExpiryGapWhenInitUsecs = queue.batchExpiryGapWhenInitUsecs ∧
      Honest names (call.committed ++ committed) [] after := by
  by_cases isPull : call.isPull
  · obtain ⟨keys, request, batchesWithoutProofs, taken, pulled, isAnswer,
      returns, isSublist⟩ := honest.answer_pull isPull aged
    have noCommit : call.committed = [] := by
      cases call <;> first | rfl | cases isPull
    rw [noCommit]
    exact ⟨queue, keys, isAnswer,
      isSublist.nodup (honest.consistent.pulled_nodup returns), rfl, honest⟩
  have sampled (other : BatchProofQueue) (collectAt : Option Nat) :
      (other.sampleGc collectAt).batchExpiryGapWhenInitUsecs =
        other.batchExpiryGapWhenInitUsecs := by
    cases collectAt <;> rfl
  cases call with
  | insertProof proof instant collectAt =>
    refine ⟨_, [], rfl, nodup_nil, ?_,
      honest.insertProof (named _ mem_cons_self) instant collectAt⟩
    unfold BatchProofQueue.insertProof
    simp only
    split
    · rfl
    · split
      · rfl
      · rw [sampled]
        rfl
  | insertBatches batches collectAt =>
    refine ⟨_, [], rfl, nodup_nil, ?_, honest.insertBatches (fun batch isBatch =>
        named _ (mem_map_of_mem isBatch)) collectAt⟩
    rw [BatchProofQueue.insertBatches, sampled]
    clear named aged isPull honest
    induction batches generalizing queue with
    | nil => rfl
    | cons batch rest inductionHypothesis =>
      rw [foldl_cons, inductionHypothesis, gap_insertBatch]
  | gcExpiredBatchSummariesWithoutProofs timestamp =>
    exact ⟨_, [], rfl, nodup_nil, rfl, honest.gc timestamp⟩
  | markCommitted batches =>
    have namedBatches : ∀ batch ∈ batches,
        Named names queue.batchExpiryGapWhenInitUsecs batch := named
    obtain ⟨after, isAfter, sameGap, afterHonest⟩ := honest.markCommitted namedBatches
    refine ⟨after, [], ?_, nodup_nil, sameGap, afterHonest.subset ?_⟩
    · simp only [BatchProofQueue.answer, isAfter, ok_bind]
    · intro info isCommitted
      simpa [Call.committed] using isCommitted
  | handleUpdatedBlockTimestamp blockTimestamp iteration =>
    obtain ⟨after, isAfter, sameGap, afterHonest⟩ :=
      honest.handleUpdatedBlockTimestamp blockTimestamp iteration
    refine ⟨after, [], ?_, nodup_nil, sameGap, afterHonest⟩
    simp only [BatchProofQueue.answer, isAfter, ok_bind]
  | _ => exact absurd rfl isPull

end

end Honest

namespace Session

variable {names : BatchKey → BatchInfo}

theorem runAll_spec {calls : List Call} {session : Session} {committed : List BatchInfo}
    (honest : Honest names committed [] session.queue)
    (fresh : ∀ keys ∈ session.returned, keys.Nodup)
    (named : ∀ call ∈ calls, ∀ info ∈ call.infos, Named names
      session.queue.batchExpiryGapWhenInitUsecs info) (aged : ∀ call ∈ calls, call.Aged) :
    ∃ after, runAll perform session calls = .ok after ∧ (∀ keys ∈ after.returned, keys.Nodup) ∧
      Honest names (calls.flatMap Call.committed ++ committed) [] after.queue := by
  induction calls generalizing session committed with
  | nil => exact ⟨session, rfl, fresh, honest⟩
  | cons call rest inductionHypothesis =>
    obtain ⟨queue, keys, isAnswer, keysNodup, sameGap, nextHonest⟩ :=
      honest.answer (named call mem_cons_self) (aged call mem_cons_self)
    obtain ⟨after, isAfter, afterFresh, afterHonest⟩ :=
      @inductionHypothesis ⟨queue, keys :: session.returned⟩ _ nextHonest
        (forall_mem_cons.mpr ⟨keysNodup, fresh⟩)
        (by
          intro other isOther info isInfo
          rw [sameGap]
          exact named other (mem_cons_of_mem _ isOther) info isInfo)
        (forall_mem_cons.mp aged).2
    refine ⟨after, ?_, afterFresh, afterHonest.subset ?_⟩
    · simp only [runAll, perform, isAnswer, ok_bind]
      exact isAfter
    · intro info isCommitted
      simp only [flatMap_cons, mem_append] at isCommitted ⊢
      tauto

theorem run_spec (myPeerId : AccountAddress) {gap : Nat} {calls : List Call}
    (named : ∀ call ∈ calls, ∀ info ∈ call.infos, Named names gap info)
    (aged : ∀ call ∈ calls, call.Aged) :
    ∃ session, run myPeerId gap calls = .ok session ∧ (∀ keys ∈ session.returned, keys.Nodup) ∧
      Honest names (calls.flatMap Call.committed) [] session.queue := by
  obtain ⟨session, isRun, fresh, honest⟩ := @runAll_spec names calls (new myPeerId gap) []
    (Honest.new names myPeerId gap) (fun keys member => nomatch member)
    named aged
  rw [append_nil] at honest
  exact ⟨session, isRun, fresh, honest⟩

/-- If author and batch id name one info with a sufficient expiration, no call panics, no pull
returns an item twice, and the counter of proofs is exact. -/
theorem named_batches_never_panic (names : BatchKey → BatchInfo)
    (myPeerId : AccountAddress) (gap : Nat) (calls : List Call)
    (named : ∀ call ∈ calls, ∀ info ∈ call.infos, Named names gap info)
    (aged : ∀ call ∈ calls, call.Aged) :
    ∃ session, run myPeerId gap calls = .ok session ∧ (∀ keys ∈ session.returned, keys.Nodup) ∧
      session.queue.remainingProofs = session.queue.sumLive fun _ => 1 := by
  obtain ⟨session, isRun, fresh, honest⟩ := run_spec myPeerId named aged
  refine ⟨session, isRun, fresh, ?_⟩
  rw [honest.sumLive_eq]
  exact honest.counted.proofs

theorem aged_of_not_pull (notPull : call.isPull = false) : call.Aged := by
  cases call with
  | pullBatches => cases notPull
  | _ => trivial

variable {queue : BatchProofQueue} {keys : List BatchKey}

theorem aged_of_answer {result : BatchProofQueue × List BatchKey}
    (isAnswer : queue.answer call = .ok result) : call.Aged := by
  cases call with
  | pullBatches request =>
    intro minAge isAge
    by_contra tooYoung
    have fails : request.maxBatchCreation = .error .panic := by
      simp only [PullRequest.maxBatchCreation, isAge, checkedSub, if_neg tooYoung]
      rfl
    simp only [BatchProofQueue.answer, pullBatches, pullInternal, fails, error_bind] at isAnswer
    cases isAnswer
  | _ => trivial

theorem keys_of_not_pull {after : BatchProofQueue} (notPull : call.isPull = false)
    (isAnswer : queue.answer call = .ok (after, keys)) : keys = [] := by
  cases call with
  | insertProof | insertBatches | gcExpiredBatchSummariesWithoutProofs =>
    cases isAnswer
    rfl
  | markCommitted | handleUpdatedBlockTimestamp =>
    obtain ⟨_, _, isKeys⟩ := of_bind isAnswer
    cases isKeys
    rfl
  | _ => cases notPull

/-- What was marked committed is not pulled before it expires. -/
theorem committed_not_returned {after : BatchProofQueue} {committed : List BatchInfo}
    (honest : Honest names committed [] queue) {info : BatchInfo}
    (isCommitted : info ∈ committed) (later : queue.latestBlockTimestamp < info.expiration)
    (isAnswer : queue.answer call = .ok (after, keys)) : BatchKey.fromInfo info ∉ keys := by
  cases isPull : call.isPull with
  | false =>
    rw [keys_of_not_pull isPull isAnswer]
    exact not_mem_nil
  | true =>
    obtain ⟨pulledKeys, request, batchesWithoutProofs, taken, pulled,
      isPulled, returns, isSublist⟩ := honest.answer_pull isPull (aged_of_answer isAnswer)
    rw [isAnswer] at isPulled
    cases isPulled
    intro member
    obtain ⟨item, isItem, sameKey⟩ := mem_map.mp (isSublist.subset member)
    exact honest.pulled_not_committed returns isCommitted later item isItem sameKey

/-- The counters are sums over the live proofs, and what is committed is not pulled before it
expires. -/
theorem accounting_exact (names : BatchKey → BatchInfo) (myPeerId : AccountAddress) (gap : Nat)
    (calls : List Call) (named : ∀ call ∈ calls, ∀ info ∈ call.infos, Named names gap info)
    (updates : ∀ call ∈ calls, call.isPull = false) :
    ∃ session, run myPeerId gap calls = .ok session ∧
      (∀ txn, occurrencesOf session.queue.txnSummaryNumOccurrences txn =
        session.queue.sumLive fun item =>
          (item.txnSummaries.getD []).count txn) ∧
      session.queue.remainingProofs = session.queue.sumLive (fun _ => 1) ∧
      session.queue.remainingTxnsWithDuplicates =
        session.queue.sumLive (fun item => item.info.numTxns) ∧
      session.queue.remainingLocalProofs = session.queue.sumLive (fun item =>
          if item.info.author = session.queue.myPeerId then 1 else 0) ∧
      session.queue.remainingLocalTxns = session.queue.sumLive (fun item =>
          if item.info.author = session.queue.myPeerId then
            item.info.numTxns else 0) ∧
      ∀ info ∈ calls.flatMap Call.committed, session.queue.latestBlockTimestamp < info.expiration →
          ∀ pull after keys, session.queue.answer pull = .ok (after, keys) →
            BatchKey.fromInfo info ∉ keys := by
  obtain ⟨session, isRun, _, honest⟩ := run_spec myPeerId named
    fun call isCall => aged_of_not_pull (updates call isCall)
  refine ⟨session, isRun, ?_, ?_, ?_, ?_, ?_, ?_⟩
  · intro txn
    rw [honest.sumLive_eq]
    exact honest.counted.occurrences txn
  · rw [honest.sumLive_eq]
    exact honest.counted.proofs
  · rw [honest.sumLive_eq]
    exact honest.counted.txns
  · rw [honest.sumLive_eq, honest.counted.localProofs]
    refine Table.total_congr fun key item _ => ?_
    unfold localWeight proofWeight
    split <;> split <;> rfl
  · rw [honest.sumLive_eq, honest.counted.localTxns]
    refine Table.total_congr fun key item _ => ?_
    unfold localWeight txnsWeight
    split <;> split <;> rfl
  · intro info isCommitted later pull after keys isAnswer
    exact committed_not_returned honest isCommitted later isAnswer

namespace Toy

def info : BatchInfo where
  author := 1
  batchId := 1
  epoch := 1
  expiration := 20
  digest := 7
  numTxns := 2
  numBytes := 9
  gasBucketStart := 0

def proof : ProofOfStore := ⟨info, .empty⟩

def summary : TxnSummaryWithExpiration := ⟨1, .sequenceNumber 0, 50, 3⟩

def request : PullRequest where
  excludedBatches := []
  excludeAuthors := []
  maxTxns := .new 10 100
  maxTxnsAfterFiltering := 10
  softMaxTxnsAfterFiltering := 10
  returnNonFull := true
  blockTimestampSecs := 0
  minBatchAgeUsecs := none
  clock := 0
  shuffle := .keepOrder _

def otherBucket : BatchInfo := { info with gasBucketStart := 1 }

/-- An item under two sort keys is pulled twice and panics on expiry; an early expiration
underflows in a pull. -/
theorem reused_batch_id_panics : run 1 10 [.insertProof proof 0 none,
      .insertBatches [(otherBucket, [summary])] none,
      .handleUpdatedBlockTimestamp 20 (.keepOrder _)] = .error .panic ∧
    (∃ session, run 1 10 [.insertProof proof 0 none,
        .insertBatches [(otherBucket, [summary])] none,
        .pullProofs request] = .ok session ∧
      ∃ keys ∈ session.returned, ¬ keys.Nodup) ∧
    run 1 30 [.insertProof proof 0 none, .pullBatches request] = .error .panic := by
  refine ⟨rfl, ⟨_, rfl, [⟨1, 1⟩, ⟨1, 1⟩], ?_, by decide⟩, rfl⟩
  exact mem_cons_self

def second : BatchInfo := { info with batchId := 2, expiration := 30, digest := 8, numTxns := 1 }

def infoOf (key : BatchKey) : BatchInfo := if key.batchId = 2 then second else info

/-- A proof, its summaries and a commit, with a pull in between. -/
def calls : List Call := [.insertProof proof 0 none, .insertBatches [(info, [summary])] (some 5),
    .pullProofs request, .markCommitted [info],
    .handleUpdatedBlockTimestamp 20 (.keepOrder _)]

theorem named_of_all {calls : List Call}
    (all : ∀ named ∈ calls.flatMap Call.infos, named = info ∨ named = second) :
    ∀ call ∈ calls, ∀ named ∈ call.infos, Named infoOf 10 named := by
  intro call isCall named isNamed
  rcases all named (mem_flatMap.mpr ⟨call, isCall, isNamed⟩) with rfl | rfl
  · exact ⟨rfl, by decide⟩
  · exact ⟨rfl, by decide⟩

theorem calls_never_panic : ∃ session, run 1 10 calls = .ok session ∧
    (∀ keys ∈ session.returned, keys.Nodup) ∧
    session.queue.remainingProofs = session.queue.sumLive fun _ => 1 := by
  refine named_batches_never_panic infoOf 1 10 calls (named_of_all (by decide)) ?_
  intro call isCall
  simp only [calls, mem_cons, not_mem_nil, or_false] at isCall
  rcases isCall with rfl | rfl | rfl | rfl | rfl <;> trivial

/-- A proof counts before its summaries arrive. -/
theorem proof_without_summaries_counts :
    ∃ session, run 1 10 [.insertProof proof 0 none] = .ok session ∧
      session.queue.remainingProofs ≠ session.queue.sumLive fun item =>
        if item.txnSummaries.isSome then 1 else 0 := by
  refine ⟨_, rfl, ?_⟩
  decide +kernel

def lateCalls : List Call := [.markCommitted [info], .insertBatches [(info, [summary])] (some 5),
    .insertProof proof 0 none, .insertProof ⟨second, .empty⟩ 1 none,
    .insertBatches [(second, [summary])] (some 6), .handleUpdatedBlockTimestamp 15 (.keepOrder _)]

theorem lateCalls_accounted : ∃ session, run 1 10 lateCalls = .ok session ∧
    session.queue.remainingProofs = session.queue.sumLive (fun _ => 1) ∧
    session.queue.remainingTxnsWithDuplicates =
      session.queue.sumLive (fun item => item.info.numTxns) := by
  obtain ⟨session, isRun, _, proofs, txns, _⟩ :=
    accounting_exact infoOf 1 10 lateCalls (named_of_all (by decide)) (by decide)
  exact ⟨session, isRun, proofs, txns⟩

end Toy

end Session

end LumioNode.BatchProofQueue
