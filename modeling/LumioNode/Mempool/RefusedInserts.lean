import LumioNode.Mempool.IndexAgreement

/-!
# Refused submissions

What a refused submission leaves where it was.
-/

namespace LumioNode.Mempool

open Library Table MempoolTransaction ParkingLotIndex

namespace TransactionStore

def isParked (store : TransactionStore) (txn : MempoolTransaction) : Bool :=
  store.parkingLotIndex.contains txn.getSender txn.getReplayProtector txn.getCommittedHash

/-- A transaction stays in the main store, and ready and parked as it was. -/
structure Stays (before after : TransactionStore) (txn : MempoolTransaction) : Prop where
  config : after.config = before.config
  stored : after.transactions.lookup txn.key = before.transactions.lookup txn.key
  ready : txn.orderedQueueKey ∈ after.priorityIndex ↔ txn.orderedQueueKey ∈ before.priorityIndex
  parked : after.isParked txn = before.isParked txn

variable {start store : TransactionStore} {txn stored : MempoolTransaction}
  {index : ParkingLotIndex} {key : TxnKey} {draw fuel : Nat} {draws : List Nat}
  {number : Option Nat} {result : MempoolStatus × TransactionStore}

theorem contains_of_getPoppable (agrees : index.Agrees)
    (isKey : index.getPoppable draw = some key) :
    ∃ hash, index.contains key.1 key.2 hash = true := by
  obtain ⟨⟨sender, txns⟩, isEntry, isKey⟩ := Option.bind_eq_some_iff.mp isKey
  obtain ⟨last, isLast, rfl⟩ := Option.map_eq_some_iff.mp isKey
  have isAt := (agrees.positions sender _).mpr (by rw [isEntry]; rfl)
  have isMember := (Finset.mem_sort _).mp (List.mem_of_getLast? isLast)
  refine ⟨(ofLex last).2, ?_⟩
  simpa [contains, isAt, isEntry] using isMember

theorem size_of_getPoppable (agrees : index.Agrees)
    (isNone : index.getPoppable draw = none) : index.size = 0 := by
  by_cases isEmpty : index.data = []
  · rw [agrees.size, isEmpty]
    rfl
  · have inRange := Nat.mod_lt draw (List.length_pos_of_ne_nil isEmpty)
    have notEmpty := agrees.notEmpty _ (List.getElem_mem inRange)
    rw [getPoppable, List.getElem?_eq_getElem inRange, Option.bind_some, Option.map_eq_none_iff,
      List.getLast?_eq_none_iff, ← List.length_eq_zero_iff, Finset.length_sort] at isNone
    exact absurd (Finset.card_eq_zero.mp isNone) notEmpty

theorem size_remove (isParked : index.contains txn.getSender
      txn.getReplayProtector txn.getCommittedHash = true) :
    (index.remove txn).size = index.size - 1 := by
  unfold contains at isParked
  unfold ParkingLotIndex.remove
  grind

/-- The fuel suffices: in the end the mempool is not full or the parking lot is empty. -/
theorem evict_stops (consistent : store.Consistent [] [])
    (enough : store.parkingLotIndex.size ≤ fuel) : (evict fuel draws store).isFull = false ∨
      (evict fuel draws store).parkingLotIndex.size = 0 := by
  induction fuel generalizing draws store with
  | zero => exact .inr (Nat.le_zero.mp enough)
  | succ fuel inductionHypothesis =>
    unfold TransactionStore.evict
    split
    · rename_i isNone
      exact .inr (size_of_getPoppable consistent.indexed.parkingLot isNone)
    rename_i key isKey
    obtain ⟨hash, isParked⟩ := contains_of_getPoppable consistent.indexed.parkingLot isKey
    obtain ⟨txn, isTxn, rfl⟩ := consistent.indexed.parked _ _ _ isParked
    simp only [isTxn]
    split
    · refine inductionHypothesis (consistent.remove isTxn) ?_
      have isKeyed := consistent.indexed.keyed key txn isTxn
      have fewer := size_remove (isKeyed ▸ isParked)
      have parking : (store.remove key txn).parkingLotIndex = store.parkingLotIndex.remove txn := by
        unfold TransactionStore.remove TransactionStore.indexRemove dropEmptyAccount
        split <;> rfl
      rw [parking]
      omega
    · rename_i notFull
      exact .inl (Bool.eq_false_iff.mpr notFull)

section

variable (stays : Stays start store stored)

include stays

theorem Stays.indexRemove (agrees : store.parkingLotIndex.Agrees)
    (different : stored.key ≠ txn.key) : (store.indexRemove txn).parkingLotIndex.Agrees ∧
      Stays start (store.indexRemove txn) stored := by
  have ⟨config, isSame, ready, parked⟩ := stays
  have parking := @contains_remove _ txn stored.getSender stored.getReplayProtector
    stored.getCommittedHash agrees
  unfold TransactionStore.indexRemove dropEmptyAccount
  split <;> refine ⟨agrees.remove txn, config, isSame, ?_, ?_⟩ <;>
    grind [orderedQueueKey, MempoolTransaction.key, isParked]

variable (consistent : store.Consistent [] [])

include consistent

theorem Stays.remove (isTxn : store.transactions.lookup key = some txn)
    (different : stored.key ≠ key) : Stays start (store.remove key txn) stored := by
  have taken : Stays start { store with transactions := store.transactions.erase key } stored :=
    { stays with stored := (AList.lookup_erase_ne different).trans stays.stored }
  exact (taken.indexRemove consistent.indexed.parkingLot
    (consistent.indexed.keyed key txn isTxn ▸ different)).2

variable (isStored : start.transactions.lookup stored.key = some stored)

include isStored

theorem Stays.clean (address : AccountAddress) (number : Nat) :
    Stays start (store.cleanCommittedTransactionsBelowAccountSeqNum address number) stored ∨
      stored.getSender = address ∧ belowNumber number stored.getReplayProtector = true := by
  have isLeft := stays.stored.trans isStored
  have areTxns := lookup_of_mem_accountTxns consistent.indexed address (belowNumber number)
  by_cases isBelow : stored.getSender = address ∧ belowNumber number stored.getReplayProtector
  · exact .inr isBelow
  · have taken : Stays start { store with transactions := store.transactions.retain fun key _ =>
        !(decide (key.1 = address) && belowNumber number key.2) } stored := by
      refine { stays with stored := ?_ }
      rw [lookup_retain, isLeft, isStored]
      grind [MempoolTransaction.key]
    refine .inl (List.foldlRecOn (motive := fun after : TransactionStore =>
      after.parkingLotIndex.Agrees ∧ Stays start after stored) _ _
      ⟨by exact consistent.indexed.parkingLot, taken⟩ ?_).2
    rintro before ⟨agrees, soFar⟩ txn isTxn
    obtain ⟨_, isOf, isLow⟩ := areTxns txn isTxn
    exact soFar.indexRemove agrees (by grind [MempoolTransaction.key])

/-- Only parked transactions are evicted. -/
theorem Stays.evict :
    Stays start (evict fuel draws store) stored ∨ start.isParked stored = true := by
  induction fuel generalizing draws store with
  | zero => exact .inl stays
  | succ fuel inductionHypothesis =>
    unfold TransactionStore.evict
    split
    · exact .inl stays
    rename_i key isKey
    split
    · exact .inl stays
    rename_i txn isTxn
    by_cases isOwn : stored.key = key
    · obtain ⟨hash, isParked⟩ := contains_of_getPoppable consistent.indexed.parkingLot isKey
      obtain ⟨found, isFound, rfl⟩ := consistent.indexed.parked _ _ _ isParked
      subst isOwn
      cases (stays.stored.trans isStored).symm.trans isFound
      exact .inr (stays.parked ▸ isParked)
    · have removed := stays.remove consistent isTxn isOwn
      dsimp only
      split
      · exact inductionHypothesis removed (consistent.remove isTxn)
      · exact .inl removed

variable (isRefused : result.1.code ≠ .accepted)

include isRefused

theorem Stays.insertChecked (isOk : store.insertChecked txn number draws = .ok result) :
    Stays start result.2 stored ∨ start.isParked stored = true := by
  obtain ⟨evicted, isEvicted, isOk⟩ := of_bind isOk
  have kept : Stays start evicted stored ∨ start.isParked stored = true := by
    rcases checkIsFullAfterEviction_eq_ok isEvicted with rfl | rfl
    · exact .inl stays
    · exact stays.evict consistent isStored
  split at isOk
  · cases isOk
    exact kept
  dsimp only at isOk
  split at isOk
  · cases isOk
    exact kept.imp_left fun stays => { stays with }
  · obtain ⟨_, _, isOk⟩ := of_bind isOk
    cases isOk
    exact absurd rfl isRefused

theorem Stays.insertNew (isOk : store.insertNew txn number draws = .ok result) :
    Stays start result.2 stored ∨ (stored.getSender = txn.getSender ∧ ∃ current ∈ number,
      belowNumber current stored.getReplayProtector = true) ∨ start.isParked stored = true := by
  unfold TransactionStore.insertNew at isOk
  split at isOk
  · exact (stays.insertChecked consistent isStored isRefused isOk).imp_right .inr
  · obtain ⟨current, isCurrent, isOk⟩ := of_bind isOk
    rcases stays.clean consistent isStored txn.getSender current with cleaned | ⟨isOf, isBelow⟩
    · split at isOk
      · cases isOk
        exact .inl cleaned
      · exact (cleaned.insertChecked (consistent.clean _ _) isStored isRefused isOk).imp_right .inr
    · exact .inr (.inl ⟨isOf, current, expect_eq_ok.mp isCurrent, isBelow⟩)

end

end TransactionStore

namespace Toy

open TransactionStore

def wide : MempoolTransaction := ⟨⟨7, .nonce 0, 0, 1, 10, 1, 200, 4⟩, 100, 1, .notReady, 0, false⟩

end Toy

end LumioNode.Mempool
