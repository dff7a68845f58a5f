import LumioNode.Library.SwapVector
import LumioNode.Types.ValidatorVerifier
import Mathlib.Data.Finset.Sort
import Mathlib.Data.Fintype.Pi
import Mathlib.Data.Prod.Lex

/-! # Indexes of the mempool

A `BTreeSet` is a `Finset` of its keys, and `BTreeMap`s and `HashMap`s are tables. -/

namespace LumioNode.Mempool

open Library

inductive ReplayProtector where
  | nonce (number : Nat)
  | sequenceNumber (number : Nat)
deriving DecidableEq

/-- Nonces come before sequence numbers. -/
def ReplayProtector.rank : ReplayProtector → Nat ×ₗ Nat
  | .nonce number => toLex (0, number)
  | .sequenceNumber number => toLex (1, number)

theorem ReplayProtector.rank_injective : Function.Injective rank := by
  intro left right same
  cases left <;> cases right <;> simp_all [rank]

instance : LinearOrder ReplayProtector := LinearOrder.lift' _ ReplayProtector.rank_injective

structure SignedTransaction where
  sender : AccountAddress
  replayProtector : ReplayProtector
  payload : Nat
  expirationTimestampSecs : Nat
  maxGasAmount : Nat
  gasUnitPrice : Nat
  rawTxnBytesLen : Nat
  committedHash : HashValue
deriving DecidableEq

inductive TimelineState where
  | ready (timelineId : Nat)
  | notReady
  | nonQualified
deriving DecidableEq

def TimelineState.isReady : TimelineState → Bool
  | .ready _ => true
  | _ => false

/-- Where a transaction is stored. -/
abbrev TxnKey := AccountAddress × ReplayProtector

/-- A transaction in the mempool; times are in microseconds. -/
structure MempoolTransaction where
  txn : SignedTransaction
  expirationTime : Nat
  rankingScore : Nat
  timelineState : TimelineState
  insertionTime : Nat
  wasParked : Bool
deriving DecidableEq

namespace MempoolTransaction

variable (txn : MempoolTransaction)

def getSender : AccountAddress := txn.txn.sender

def getReplayProtector : ReplayProtector := txn.txn.replayProtector

def getGasPrice : Nat := txn.txn.gasUnitPrice

def getCommittedHash : HashValue := txn.txn.committedHash

def key : TxnKey := (txn.getSender, txn.getReplayProtector)

end MempoolTransaction

/-! ## Priority and expiration -/

/-- The fields by which the priority index compares its keys. -/
structure OrderedQueueKey where
  gasRankingScore : Nat
  insertionTime : Nat
  address : AccountAddress
  replayProtector : ReplayProtector
  hash : HashValue
deriving DecidableEq

def MempoolTransaction.orderedQueueKey (txn : MempoolTransaction) : OrderedQueueKey :=
  ⟨txn.rankingScore, txn.insertionTime, txn.getSender, txn.getReplayProtector, txn.getCommittedHash⟩

structure TTLOrderingKey where
  expirationTime : Nat
  address : AccountAddress
  replayProtector : ReplayProtector
deriving DecidableEq

namespace TTLOrderingKey

def rank (key : TTLOrderingKey) : Nat ×ₗ AccountAddress ×ₗ ReplayProtector :=
  toLex (key.expirationTime, toLex (key.address, key.replayProtector))

theorem rank_injective : Function.Injective rank := by
  rintro ⟨⟩ ⟨⟩ same
  simp_all [rank]

instance : LinearOrder TTLOrderingKey := LinearOrder.lift' _ rank_injective

/-- What an index gives up at a time: all keys below this one. -/
def limit (now : Nat) : TTLOrderingKey := ⟨now - 1, 0, .nonce 0⟩

/-- The order in which expired keys are collected. -/
def byReplayProtector (left right : TTLOrderingKey) : Bool :=
  toLex (left.address, left.replayProtector) ≤ toLex (right.address, right.replayProtector)

end TTLOrderingKey

namespace MempoolTransaction

def systemTtlKey (txn : MempoolTransaction) : TTLOrderingKey :=
  ⟨txn.expirationTime, txn.getSender, txn.getReplayProtector⟩

def expirationTimeKey (txn : MempoolTransaction) : TTLOrderingKey :=
  ⟨txn.txn.expirationTimestampSecs * 1000000, txn.getSender, txn.getReplayProtector⟩

end MempoolTransaction

/-! ## Timelines -/

structure TimelineIndex where
  nextTimelineId : Nat
  timeline : Table Nat TxnKey

namespace TimelineIndex

def new : TimelineIndex := ⟨1, ∅⟩

def insert (index : TimelineIndex) (key : TxnKey) : TimelineIndex :=
  ⟨index.nextTimelineId + 1, index.timeline.insert index.nextTimelineId key⟩

def remove (index : TimelineIndex) (state : TimelineState) : TimelineIndex := match state with
  | .ready timelineId =>
    { index with timeline := index.timeline.erase timelineId }
  | _ => index

end TimelineIndex

def senderBucket (address : AccountAddress) (numSenderBuckets : Nat) : Nat :=
  address.val % 256 % numSenderBuckets

/-- The last bucket whose least score is not above the score. -/
def bucketIndex (bucketMins : List Nat) (rankingScore : Nat) : Nat :=
  bucketMins.countP (· ≤ rankingScore) - 1

/-! ## The parking lot -/

structure ParkingLotIndex where
  data : List (AccountAddress × Finset (Nat ×ₗ HashValue))
  accountIndices : Table AccountAddress Nat
  size : Nat

namespace ParkingLotIndex

def new : ParkingLotIndex := ⟨[], ∅, 0⟩

variable (index : ParkingLotIndex)

def insert (txn : MempoolTransaction) : ParkingLotIndex :=
  match txn.getReplayProtector with
  | .nonce _ => index
  | .sequenceNumber number =>
    let entry := toLex (number, txn.getCommittedHash)
    match index.accountIndices.lookup txn.getSender with
    | some position =>
      match index.data[position]? with
      | some (account, seqNums) =>
        { index with
          data := index.data.set position (account, Insert.insert entry seqNums)
          size := if entry ∈ seqNums then index.size
            else index.size + 1 }
      | none => index
    | none =>
      ⟨index.data ++ [(txn.getSender, {entry})],
        index.accountIndices.insert txn.getSender index.data.length,
        index.size + 1⟩

def remove (txn : MempoolTransaction) : ParkingLotIndex :=
  match txn.getReplayProtector with
  | .nonce _ => index
  | .sequenceNumber number =>
    let entry := toLex (number, txn.getCommittedHash)
    match index.accountIndices.lookup txn.getSender with
    | some position =>
      match index.data[position]? with
      | some (account, txns) =>
        let size := if entry ∈ txns then index.size - 1 else index.size
        let txns := txns.erase entry
        let data := index.data.set position (account, txns)
        if txns = ∅ then
          ⟨swapRemove data position, Positions.afterRemove
            index.accountIndices data txn.getSender position, size⟩
        else ⟨data, index.accountIndices, size⟩
      | none => index
    | none => index

def contains (account : AccountAddress)
    (replayProtector : ReplayProtector) (hash : HashValue) : Bool :=
  match replayProtector with
  | .nonce _ => false
  | .sequenceNumber number =>
    ((index.accountIndices.lookup account).bind (index.data[·]?)).any
      fun entry => decide (toLex (number, hash) ∈ entry.2)

/-- The account is drawn at random; its last transaction is taken. -/
def getPoppable (draw : Nat) : Option TxnKey :=
  (index.data[draw % index.data.length]?).bind fun (sender, txns) =>
    (txns.sort (· ≤ ·)).getLast?.map fun last =>
      (sender, .sequenceNumber (ofLex last).1)

open List

structure Agrees (index : ParkingLotIndex) : Prop where
  positions : Positions index.accountIndices index.data
  notEmpty : ∀ entry ∈ index.data, entry.2 ≠ ∅
  size : index.size = (index.data.map (·.2.card)).sum

variable {index : ParkingLotIndex} {txn : MempoolTransaction}

theorem new_agrees : new.Agrees := by
  refine ⟨?_, by simp [new], rfl⟩
  intro account position
  simp [new]

def parked (index : ParkingLotIndex) (account : AccountAddress) : Finset (Nat ×ₗ HashValue) :=
  (Positions.find index.accountIndices index.data account).getD ∅

theorem contains_iff {account : AccountAddress}
    {replayProtector : ReplayProtector} {hash : HashValue} :
    index.contains account replayProtector hash = true ↔
      ∃ number, replayProtector = .sequenceNumber number ∧
        toLex (number, hash) ∈ index.parked account := by
  cases replayProtector with
  | nonce => simp [contains]
  | sequenceNumber =>
    unfold contains parked Positions.find
    cases (index.accountIndices.lookup account).bind (index.data[·]?) <;> simp

variable {number position : Nat}

theorem sum_map_set {α : Type} {items : List α} {old : α} (isOld : items[position]? = some old)
    (weight : α → Nat) (next : α) :
    ((items.set position next).map weight).sum + weight old =
      (items.map weight).sum + weight next := by
  obtain ⟨inRange, rfl⟩ := List.getElem?_eq_some_iff.mp isOld
  have setSum := ((set_perm_cons_eraseIdx inRange next).map weight).sum_eq
  have oldSum := ((getElem_cons_eraseIdx_perm inRange).map weight).sum_eq
  simp only [map_cons, sum_cons] at setSum oldSum
  omega

theorem Agrees.set (agrees : index.Agrees) {account : AccountAddress}
    {txns next : Finset (Nat ×ₗ HashValue)}
    (isAt : index.accountIndices.lookup account = some position)
    (isEntry : index.data[position]? = some (account, txns)) (notEmpty : next ≠ ∅) :
    Agrees ⟨index.data.set position (account, next), index.accountIndices,
      index.size + next.card - txns.card⟩ := by
  refine ⟨agrees.positions.set isAt next, ?_, ?_⟩
  · intro entry isMember
    rcases mem_or_eq_of_mem_set isMember with wasMember | rfl
    · exact agrees.notEmpty entry wasMember
    · exact notEmpty
  · have sums := sum_map_set isEntry (·.2.card) (account, next)
    have isSize := agrees.size
    dsimp only at sums ⊢
    omega

theorem insert_spec (agrees : index.Agrees)
    (isNumber : txn.getReplayProtector = .sequenceNumber number) :
    (index.insert txn).Agrees ∧ ∀ account, (index.insert txn).parked account =
        if account = txn.getSender then
          Insert.insert (toLex (number, txn.getCommittedHash)) (index.parked account)
        else index.parked account := by
  simp only [insert, isNumber]
  cases isAt : index.accountIndices.lookup txn.getSender with
  | none =>
    have noTxns : index.parked txn.getSender = ∅ := by simp [parked, Positions.find, isAt]
    refine ⟨⟨agrees.positions.push isAt _, ?_, ?_⟩, ?_⟩
    · intro entry isMember
      rcases mem_append.mp isMember with wasMember | isNew
      · exact agrees.notEmpty entry wasMember
      · rw [mem_singleton.mp isNew]
        exact Finset.singleton_ne_empty _
    · simp [agrees.size]
    · intro account
      rw [parked, agrees.positions.find_push isAt]
      split
      · simp_all
      · rfl
  | some =>
    obtain ⟨txns, isEntry⟩ := agrees.positions.exists_entry isAt
    have isParked : index.parked txn.getSender = txns := by
      simp [parked, Positions.find, isAt, isEntry]
    simp only [isEntry]
    refine ⟨?_, ?_⟩
    · have isSet := agrees.set isAt isEntry (Finset.insert_ne_empty
        (toLex (number, txn.getCommittedHash)) txns)
      rw [Finset.card_insert_eq_ite] at isSet
      convert isSet using 2
      split <;> omega
    · intro account
      rw [parked, agrees.positions.find_set isAt]
      split
      · simp_all
      · rfl

theorem remove_spec (agrees : index.Agrees)
    (isNumber : txn.getReplayProtector = .sequenceNumber number) :
    (index.remove txn).Agrees ∧ ∀ account, (index.remove txn).parked account =
        if account = txn.getSender then
          (index.parked account).erase (toLex (number, txn.getCommittedHash))
        else index.parked account := by
  simp only [remove, isNumber]
  cases isAt : index.accountIndices.lookup txn.getSender with
  | none =>
    have noTxns : index.parked txn.getSender = ∅ := by simp [parked, Positions.find, isAt]
    refine ⟨agrees, ?_⟩
    intro account
    by_cases same : account = txn.getSender <;> simp_all
  | some position =>
    obtain ⟨txns, isEntry⟩ := agrees.positions.exists_entry isAt
    have isParked : index.parked txn.getSender = txns := by
      simp [parked, Positions.find, isAt, isEntry]
    have inRange := (List.getElem?_eq_some_iff.mp isEntry).1
    simp only [isEntry]
    split
    case isFalse notEmpty =>
        refine ⟨?_, ?_⟩
        · have isSet := agrees.set isAt isEntry notEmpty
          have card := Finset.card_erase_eq_ite (s := txns)
            (a := toLex (number, txn.getCommittedHash))
          convert isSet using 2
          grind
        · intro account
          rw [parked, agrees.positions.find_set isAt]
          split
          · simp_all
          · rfl
    case isTrue isEmpty =>
        have isSet := agrees.positions.set isAt (txns.erase (toLex (number, txn.getCommittedHash)))
        have removal : (swapRemove (index.data.set position (txn.getSender,
            txns.erase (toLex (number, txn.getCommittedHash))))
            position).Perm (index.data.eraseIdx position) := by
          rw [← eraseIdx_set_eq]
          exact swapRemove_perm (by simpa using inRange)
        refine ⟨⟨isSet.remove isAt, ?_, ?_⟩, ?_⟩
        · intro entry isMember
          exact agrees.notEmpty entry (mem_of_mem_eraseIdx (removal.mem_iff.mp isMember))
        · have sums := (removal.map (·.2.card)).sum_eq
          have oldSum := ((getElem_cons_eraseIdx_perm inRange).map (·.2.card)).sum_eq
          have isSize := agrees.size
          have card := Finset.card_erase_eq_ite (s := txns)
            (a := toLex (number, txn.getCommittedHash))
          grind
        · intro account
          rw [parked, isSet.find_remove isAt, agrees.positions.find_set isAt]
          split
          · simp_all
          · rfl

/-! ## Operations on any transaction -/

section Operations

variable {account : AccountAddress} {replayProtector : ReplayProtector} {hash : HashValue}

variable (agrees : index.Agrees)

include agrees

theorem Agrees.insert (txn : MempoolTransaction) : (index.insert txn).Agrees := by
  cases isNumber : txn.getReplayProtector with
  | nonce =>
    simp only [ParkingLotIndex.insert, isNumber]
    exact agrees
  | sequenceNumber => exact (insert_spec agrees isNumber).1

theorem Agrees.remove (txn : MempoolTransaction) : (index.remove txn).Agrees := by
  cases isNumber : txn.getReplayProtector with
  | nonce =>
    simp only [ParkingLotIndex.remove, isNumber]
    exact agrees
  | sequenceNumber => exact (remove_spec agrees isNumber).1

theorem contains_insert (isNumber : txn.getReplayProtector = .sequenceNumber number) :
    (index.insert txn).contains account replayProtector hash = true ↔
      index.contains account replayProtector hash = true ∨ account = txn.getSender ∧
          replayProtector = txn.getReplayProtector ∧
          hash = txn.getCommittedHash := by
  simp only [contains_iff, (insert_spec agrees isNumber).2, isNumber]
  cases replayProtector with
  | nonce => simp
  | sequenceNumber =>
    by_cases same : account = txn.getSender <;> simp [same, or_comm]

theorem contains_remove : (index.remove txn).contains account replayProtector hash = true ↔
      index.contains account replayProtector hash = true ∧ ¬ (account = txn.getSender ∧
          replayProtector = txn.getReplayProtector ∧
          hash = txn.getCommittedHash) := by
  cases isNumber : txn.getReplayProtector with
  | nonce =>
    simp only [ParkingLotIndex.remove, isNumber, contains_iff]
    grind
  | sequenceNumber =>
    simp only [contains_iff, (remove_spec agrees isNumber).2]
    cases replayProtector with
    | nonce => simp
    | sequenceNumber =>
      by_cases same : account = txn.getSender <;> simp [same, and_comm]

end Operations

end ParkingLotIndex

end LumioNode.Mempool
