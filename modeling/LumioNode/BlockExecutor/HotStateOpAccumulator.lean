import LumioNode.Library.SortedMap
import Mathlib.Data.Finset.Card

/-! # The keys that a block makes hot

The keys that a block reads and does not write, up to a limit; their order matters
exactly if the limit is reached within a transaction's new keys. -/

namespace LumioNode

open Library List Finset
open SortedMap hiding insert

inductive StateSlot (Value : Type) where
  | coldVacant
  | hotVacant (hotSinceVersion : Nat)
  | coldOccupied (valueVersion : Nat) (value : Value)
  | hotOccupied (valueVersion : Nat) (value : Value) (hotSinceVersion : Nat)
deriving DecidableEq

/-- The keys of a transaction in the order in which they are iterated. -/
structure TouchedKeys (Key : Type) where
  writes : List Key
  reads : List Key

structure BlockHotStateOpAccumulator (Key Value : Type) [LinearOrder Key] where
  toMakeHot : SortedMap Key (StateSlot Value)
  writes : Finset Key
  maxPromotionsPerBlock : Nat

namespace BlockHotStateOpAccumulator

variable {Key Value : Type} [LinearOrder Key] (baseView : Key → StateSlot Value)
  (accumulator : BlockHotStateOpAccumulator Key Value) (key : Key)

/-- Always refreshes, whatever the versions are. -/
def shouldRefresh (_hotSinceVersion : Nat) : Bool := true

def makesHot : StateSlot Value → Bool
  | .coldVacant => true
  | .hotVacant hotSinceVersion => shouldRefresh hotSinceVersion
  | .coldOccupied _ _ => true
  | .hotOccupied _ _ hotSinceVersion => shouldRefresh hotSinceVersion

def addWrite : BlockHotStateOpAccumulator Key Value :=
  { accumulator with
    toMakeHot := accumulator.toMakeHot.erase key
    writes := insert key accumulator.writes }

def addRead : BlockHotStateOpAccumulator Key Value :=
  if accumulator.maxPromotionsPerBlock ≤ accumulator.toMakeHot.keys.length then accumulator
  else if (accumulator.toMakeHot.get? key).isSome then accumulator
  else if key ∈ accumulator.writes then accumulator
  else if makesHot (baseView key) then
    { accumulator with toMakeHot := accumulator.toMakeHot.insert key (baseView key) }
  else accumulator

def addTransaction (txn : TouchedKeys Key) : BlockHotStateOpAccumulator Key Value :=
  txn.reads.foldl (addRead baseView) (txn.writes.foldl addWrite accumulator)

def getSlotsToMakeHot (maxPromotionsPerBlock : Nat) (block : List (TouchedKeys Key)) :
    SortedMap Key (StateSlot Value) :=
  (block.foldl (addTransaction baseView) ⟨.empty, ∅, maxPromotionsPerBlock⟩).toMakeHot

def hot : Finset Key := accumulator.toMakeHot.keys.toFinset

/-- The new keys of a transaction fit the limit, or the limit is reached before. -/
def Fits (txn : TouchedKeys Key) : Prop :=
  ((accumulator.hot \ txn.writes.toFinset) ∪
      (txn.reads.toFinset \ (accumulator.writes ∪ txn.writes.toFinset))).card ≤
        accumulator.maxPromotionsPerBlock ∨
    accumulator.maxPromotionsPerBlock ≤ (accumulator.hot \ txn.writes.toFinset).card

def Settled : BlockHotStateOpAccumulator Key Value → List (TouchedKeys Key) → Prop
  | _, [] => True
  | accumulator, txn :: rest =>
    accumulator.Fits txn ∧ Settled (accumulator.addTransaction baseView txn) rest

/-- What is collected from keys read and keys written. -/
structure Collects (limit : Nat) (reads writes : Finset Key) : Prop where
  isLimit : accumulator.maxPromotionsPerBlock = limit
  writesEq : accumulator.writes = writes
  slots : ∀ {key slot}, accumulator.toMakeHot.get? key = some slot → slot = baseView key
  subset : accumulator.hot ⊆ reads \ writes
  few : accumulator.hot.card ≤ limit

variable {baseView accumulator key} {limit : Nat} {reads writes : Finset Key}

theorem mem_hot : key ∈ accumulator.hot ↔ (accumulator.toMakeHot.get? key).isSome := by
  rw [hot, mem_toFinset, isSome_get?_iff]

theorem hot_addWrite : (accumulator.addWrite key).hot = accumulator.hot.erase key := by
  ext other
  rw [mem_erase, mem_hot, mem_hot, addWrite, get?_erase]
  by_cases same : other = key <;> simp [same]

theorem hot_insert (slot : StateSlot Value) :
    hot { accumulator with toMakeHot := accumulator.toMakeHot.insert key slot } =
      insert key accumulator.hot := by
  ext other
  simp [hot, mem_keys_insert]

theorem addRead_eq : accumulator.addRead baseView key =
    if accumulator.hot.card < accumulator.maxPromotionsPerBlock ∧ key ∉ accumulator.hot ∧
      key ∉ accumulator.writes then
      { accumulator with toMakeHot := accumulator.toMakeHot.insert key (baseView key) }
    else accumulator := by
  have isCard := toFinset_card_of_nodup accumulator.toMakeHot.keys_nodup
  have isHot : makesHot (baseView key) = true := by cases baseView key <;> rfl
  simp only [addRead, hot, isCard, isHot, ← Nat.not_le, mem_toFinset, ← isSome_get?_iff]
  split_ifs <;> tauto

theorem hot_subset_reads (keys : List Key) :
    accumulator.hot ⊆ (keys.foldl (addRead baseView) accumulator).hot := by
  induction keys generalizing accumulator with
  | nil => exact Finset.Subset.refl _
  | cons key rest inductionHypothesis =>
    refine Finset.Subset.trans ?_ inductionHypothesis
    rw [addRead_eq]
    split
    · rw [hot_insert]
      exact subset_insert key accumulator.hot
    · exact Finset.Subset.refl _

/-- Where the limit is reached, nothing is read. -/
theorem reads_of_full (keys : List Key)
    (full : accumulator.maxPromotionsPerBlock ≤ accumulator.hot.card) :
    keys.foldl (addRead baseView) accumulator = accumulator := by
  induction keys with
  | nil => rfl
  | cons key rest inductionHypothesis =>
    rw [foldl_cons, addRead_eq, if_neg fun fresh => absurd fresh.1 (Nat.not_lt.mpr full)]
    exact inductionHypothesis

/-- With room for all of them, all keys are collected that are not written. -/
theorem hot_reads_of_room {keys : List Key}
    (room : (accumulator.hot ∪ (keys.toFinset \ accumulator.writes)).card ≤
      accumulator.maxPromotionsPerBlock) :
    (keys.foldl (addRead baseView) accumulator).hot =
      accumulator.hot ∪ (keys.toFinset \ accumulator.writes) := by
  induction keys generalizing accumulator with
  | nil => simp
  | cons key rest inductionHypothesis =>
    rw [foldl_cons, addRead_eq]
    by_cases isKept : key ∈ accumulator.hot ∨ key ∈ accumulator.writes
    · have sameKeys : accumulator.hot ∪ ((key :: rest).toFinset \ accumulator.writes) =
          accumulator.hot ∪ (rest.toFinset \ accumulator.writes) := by
        ext other
        simp only [mem_union, Finset.mem_sdiff, toFinset_cons, Finset.mem_insert]
        rcases isKept with isHot | isWritten
        · by_cases same : other = key <;> simp [same, isHot]
        · by_cases same : other = key <;> simp [same, isWritten]
      rw [if_neg fun fresh => isKept.elim fresh.2.1 fresh.2.2, sameKeys]
      rw [sameKeys] at room
      exact inductionHypothesis room
    · push Not at isKept
      have sameKeys : accumulator.hot ∪ ((key :: rest).toFinset \ accumulator.writes) =
          insert key accumulator.hot ∪ (rest.toFinset \ accumulator.writes) := by
        rw [toFinset_cons, insert_sdiff_of_notMem _ isKept.2, union_insert, insert_union]
      have hasRoom : accumulator.hot.card < accumulator.maxPromotionsPerBlock := by
        rw [sameKeys] at room
        calc accumulator.hot.card < (insert key accumulator.hot).card := by
              rw [card_insert_of_notMem isKept.1]
              exact Nat.lt_succ_self _
          _ ≤ _ := (card_le_card subset_union_left).trans room
      rw [if_pos ⟨hasRoom, isKept⟩, sameKeys, ← hot_insert (baseView key)]
      apply inductionHypothesis
      rwa [hot_insert, ← sameKeys]

theorem writesLoop_eq (keys : List Key) :
    (keys.foldl addWrite accumulator).maxPromotionsPerBlock = accumulator.maxPromotionsPerBlock ∧
      (keys.foldl addWrite accumulator).writes = accumulator.writes ∪ keys.toFinset ∧
      (keys.foldl addWrite accumulator).hot = accumulator.hot \ keys.toFinset := by
  induction keys generalizing accumulator with
  | nil => simp
  | cons key rest inductionHypothesis =>
    obtain ⟨isLimit, writesEq, hotEq⟩ := @inductionHypothesis (accumulator.addWrite key)
    refine ⟨isLimit, ?_, ?_⟩
    · rw [foldl_cons, writesEq, toFinset_cons, union_insert, ← insert_union]
      rfl
    · rw [foldl_cons, hotEq, hot_addWrite, toFinset_cons, sdiff_insert, erase_sdiff_comm]

/-- If they fit, the keys collected do not depend on an order. -/
theorem hot_addTransaction {txn : TouchedKeys Key} (fits : accumulator.Fits txn) :
    (accumulator.addTransaction baseView txn).hot =
      if accumulator.maxPromotionsPerBlock ≤ (accumulator.hot \ txn.writes.toFinset).card then
        accumulator.hot \ txn.writes.toFinset
      else (accumulator.hot \ txn.writes.toFinset) ∪
        (txn.reads.toFinset \ (accumulator.writes ∪ txn.writes.toFinset)) := by
  obtain ⟨isLimit, writesEq, hotEq⟩ := @writesLoop_eq _ Value _ accumulator txn.writes
  rw [addTransaction]
  split
  · next full => rw [reads_of_full _ (by rwa [isLimit, hotEq]), hotEq]
  · next notFull =>
    rw [hot_reads_of_room, hotEq, writesEq]
    rw [isLimit, hotEq, writesEq]
    exact fits.resolve_right notFull

namespace Collects

variable (collects : Collects baseView accumulator limit reads writes)

include collects

theorem get?_eq : accumulator.toMakeHot.get? key =
    if key ∈ accumulator.hot then some (baseView key) else none := by
  cases found : accumulator.toMakeHot.get? key with
  | none => simp [mem_hot, found]
  | some => simp [mem_hot, found, collects.slots found]

theorem write : Collects baseView (accumulator.addWrite key) limit reads (insert key writes) where
  isLimit := collects.isLimit
  writesEq := congrArg (insert key) collects.writesEq
  slots := by
    intro other slot found
    rw [addWrite, get?_erase] at found
    split at found
    · cases found
    · exact collects.slots found
  subset := by
    rw [hot_addWrite, sdiff_insert]
    exact erase_subset_erase key collects.subset
  few := by
    rw [hot_addWrite]
    exact card_erase_le.trans collects.few

theorem read : Collects baseView (accumulator.addRead baseView key) limit
    (insert key reads) writes := by
  rw [addRead_eq]
  split
  · next fresh =>
    obtain ⟨hasRoom, isNew, notWritten⟩ := fresh
    refine ⟨collects.isLimit, collects.writesEq, ?_, ?_, ?_⟩
    · intro other slot found
      rw [get?_insert] at found
      split at found
      · next same =>
        cases found
        rw [same]
      · exact collects.slots found
    · rw [hot_insert, insert_sdiff_of_notMem reads (collects.writesEq ▸ notWritten)]
      exact insert_subset_insert key collects.subset
    · rw [hot_insert, card_insert_of_notMem isNew]
      exact collects.isLimit ▸ hasRoom
  · have grows := sdiff_subset_sdiff (subset_insert key reads) (le_refl writes)
    exact ⟨collects.isLimit, collects.writesEq, collects.slots, collects.subset.trans grows,
      collects.few⟩

theorem writesLoop (keys : List Key) : Collects baseView (keys.foldl addWrite accumulator)
    limit reads (writes ∪ keys.toFinset) := by
  induction keys generalizing writes accumulator with
  | nil => simpa using collects
  | cons key rest inductionHypothesis =>
    rw [toFinset_cons, union_insert, ← insert_union]
    exact inductionHypothesis collects.write

theorem readsLoop (keys : List Key) : Collects baseView
    (keys.foldl (addRead baseView) accumulator) limit (reads ∪ keys.toFinset) writes := by
  induction keys generalizing reads accumulator with
  | nil => simpa using collects
  | cons key rest inductionHypothesis =>
    rw [toFinset_cons, union_insert, ← insert_union]
    exact inductionHypothesis collects.read

theorem addTransaction (txn : TouchedKeys Key) : Collects baseView
    (accumulator.addTransaction baseView txn) limit (reads ∪ txn.reads.toFinset)
    (writes ∪ txn.writes.toFinset) :=
  (collects.writesLoop txn.writes).readsLoop txn.reads

theorem block (block : List (TouchedKeys Key)) :
    Collects baseView (block.foldl (BlockHotStateOpAccumulator.addTransaction baseView) accumulator)
      limit (reads ∪ (block.flatMap TouchedKeys.reads).toFinset)
      (writes ∪ (block.flatMap TouchedKeys.writes).toFinset) := by
  induction block generalizing reads writes accumulator with
  | nil => simpa using collects
  | cons txn rest inductionHypothesis =>
    simp only [flatMap_cons, toFinset_append, ← union_assoc]
    exact inductionHypothesis (collects.addTransaction txn)

theorem ext {other : BlockHotStateOpAccumulator Key Value}
    (others : Collects baseView other limit reads writes) (sameHot : accumulator.hot = other.hot) :
    accumulator = other := by
  have sameMap : accumulator.toMakeHot = other.toMakeHot := by
    apply ext_get?
    intro key
    rw [collects.get?_eq, sameHot, ← others.get?_eq]
  have sameWrites := collects.writesEq.trans others.writesEq.symm
  have sameLimit := collects.isLimit.trans others.isLimit.symm
  cases accumulator
  cases other
  cases sameMap
  cases sameWrites
  cases sameLimit
  rfl

end Collects

/-- The same transactions, with their keys iterated in other orders. -/
def SameKeys : List (TouchedKeys Key) → List (TouchedKeys Key) → Prop :=
  List.Forall₂ fun txn other => txn.writes.Perm other.writes ∧ txn.reads.Perm other.reads

section

variable (collects : Collects baseView accumulator limit reads writes)

include collects

theorem addTransaction_of_fits {txn other : TouchedKeys Key} (fits : accumulator.Fits txn)
    (sameWrites : txn.writes.Perm other.writes) (sameReads : txn.reads.Perm other.reads) :
    accumulator.addTransaction baseView txn = accumulator.addTransaction baseView other := by
  have others := collects.addTransaction other
  have otherFits : accumulator.Fits other := by
    rwa [Fits, ← toFinset_eq_of_perm _ _ sameWrites, ← toFinset_eq_of_perm _ _ sameReads]
  rw [← toFinset_eq_of_perm _ _ sameWrites, ← toFinset_eq_of_perm _ _ sameReads] at others
  apply (collects.addTransaction txn).ext others
  rw [hot_addTransaction fits, hot_addTransaction otherFits, toFinset_eq_of_perm _ _ sameWrites,
    toFinset_eq_of_perm _ _ sameReads]

/-- If not all new keys fit, some order collects one that another leaves out. -/
theorem exists_order_of_not_fits {txn : TouchedKeys Key} (notFits : ¬ accumulator.Fits txn) :
    ∃ others : List Key, txn.reads.Perm others ∧
      (accumulator.addTransaction baseView txn).toMakeHot ≠
        (accumulator.addTransaction baseView ⟨txn.writes, others⟩).toMakeHot := by
  obtain ⟨isLimit, writesEq, hotEq⟩ := @writesLoop_eq _ Value _ accumulator txn.writes
  rw [Fits, not_or, Nat.not_le, Nat.not_le, collects.isLimit] at notFits
  obtain ⟨tooMany, hasRoom⟩ := notFits
  have few := (collects.addTransaction txn).few
  obtain ⟨key, isAdded, isLeft⟩ := exists_mem_notMem_of_card_lt_card (few.trans_lt tooMany)
  have isNew : key ∉ (txn.writes.foldl addWrite accumulator).hot :=
    fun isHot => isLeft (hot_subset_reads txn.reads isHot)
  rw [← hotEq, ← writesEq] at isAdded
  obtain ⟨isRead, notWritten⟩ := Finset.mem_sdiff.mp ((mem_union.mp isAdded).resolve_left isNew)
  have reordered := perm_cons_erase (mem_toFinset.mp isRead)
  refine ⟨_, reordered, fun same => isLeft ?_⟩
  have first : key ∈ ((key :: txn.reads.erase key).foldl (addRead baseView)
      (txn.writes.foldl addWrite accumulator)).hot := by
    apply hot_subset_reads (txn.reads.erase key)
    rw [addRead_eq, if_pos ⟨by rwa [isLimit, hotEq, collects.isLimit], isNew, notWritten⟩,
      hot_insert]
    exact Finset.mem_insert_self key _
  rwa [hot, same]

theorem settled_iff {block : List (TouchedKeys Key)} :
    Settled baseView accumulator block ↔ ∀ count other, SameKeys (block.take count) other →
      ((block.take count).foldl (addTransaction baseView) accumulator).toMakeHot =
        (other.foldl (addTransaction baseView) accumulator).toMakeHot := by
  induction block generalizing accumulator reads writes with
  | nil =>
    refine iff_of_true trivial fun count other same => ?_
    rw [take_nil] at same ⊢
    cases same
    rfl
  | cons txn rest inductionHypothesis =>
    have later := inductionHypothesis (collects.addTransaction txn)
    constructor
    · rintro ⟨fits, settled⟩ count other same
      cases count with
      | zero =>
        cases same
        rfl
      | succ count =>
        rw [take_succ_cons] at same ⊢
        cases same with
        | cons head tail =>
          rw [foldl_cons, foldl_cons, ← addTransaction_of_fits collects fits head.1 head.2]
          exact later.mp settled count _ tail
    · intro independent
      refine ⟨?_, later.mpr fun count other same => ?_⟩
      · by_contra notFits
        obtain ⟨others, reordered, differs⟩ := exists_order_of_not_fits collects notFits
        exact differs (independent 1 [⟨txn.writes, others⟩] (.cons ⟨.refl _, reordered⟩ .nil))
      · exact independent (count + 1) (txn :: other) (.cons ⟨.refl _, .refl _⟩ same)

end

/-- The order in which keys are iterated makes no difference exactly if the new keys of each
transaction fit or none is taken. At most `limit` keys are hot, all read and not written. -/
theorem slots_of_block (baseView : Key → StateSlot Value) (limit : Nat)
    (block : List (TouchedKeys Key)) :
    ((∀ count other, SameKeys (block.take count) other →
      getSlotsToMakeHot baseView limit (block.take count) =
        getSlotsToMakeHot baseView limit other) ↔
      Settled baseView ⟨.empty, ∅, limit⟩ block) ∧
    (∀ key slot, (getSlotsToMakeHot baseView limit block).get? key = some slot →
      (∃ txn ∈ block, key ∈ txn.reads) ∧ ∀ txn ∈ block, key ∉ txn.writes) ∧
    (getSlotsToMakeHot baseView limit block).keys.length ≤ limit := by
  have start : Collects baseView ⟨.empty, ∅, limit⟩ limit ∅ ∅ :=
    ⟨rfl, rfl, (by cases ·), Finset.Subset.refl _, Nat.zero_le _⟩
  have collects := start.block block
  refine ⟨(settled_iff start).symm, ?_, ?_⟩
  · intro key slot found
    have isCandidate := collects.subset (mem_hot.mpr (Option.isSome_of_eq_some found))
    simpa using isCandidate
  · rw [← toFinset_card_of_nodup (keys_nodup _)]
    exact collects.few

def twoReads (first second : Nat) : List (TouchedKeys Nat) := [⟨[], [first, second]⟩]

theorem sameKeys_twoReads : SameKeys (twoReads 1 2) (twoReads 2 1) :=
  .cons ⟨.nil, .swap 2 1 []⟩ .nil

/-- With room for one key, the one that is iterated first is made hot. -/
theorem iteration_order_decides : SameKeys (twoReads 1 2) (twoReads 2 1) ∧
    (getSlotsToMakeHot (fun _ => StateSlot.coldOccupied 0 ()) 1 (twoReads 1 2)).keys = [1] ∧
    (getSlotsToMakeHot (fun _ => StateSlot.coldOccupied 0 ()) 1 (twoReads 2 1)).keys = [2] :=
  ⟨sameKeys_twoReads, by decide, by decide⟩

end BlockHotStateOpAccumulator

end LumioNode
