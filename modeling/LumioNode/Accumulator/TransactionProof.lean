import LumioNode.Accumulator.ProofSoundness

/-! # Transactions of the ledger and their proofs

The left siblings of a chunk's range proof are the frozen roots before it; with the
overlapping infos they give the root of the common part. -/

namespace LumioNode

open Library PaddedScheme InMemoryAccumulator AccumulatorRangeProof List Nat

/-- The list is over any type of infos; `hash` gives the leaf of an info. -/
structure TransactionInfoListWithProof (Info : Type) where
  ledgerInfoToTransactionInfosProof : AccumulatorRangeProof
  transactionInfos : List Info

namespace TransactionInfoListWithProof

variable {Info : Type}

section Definitions

def forkHappens : Fault :=
  .error ("Fork happens because the current synced_trees doesn't match the " ++
    "txn list provided.")

variable (hasher : AccumulatorHasher) (hash : Info → HashValue)
  (list : TransactionInfoListWithProof Info)

def verify (ledgerInfo : LedgerInfo)
    (firstTransactionInfoVersion : Option Nat) : Except Fault Unit :=
  let txnInfoHashes := list.transactionInfos.map hash
  list.ledgerInfoToTransactionInfosProof.verify hasher
    ledgerInfo.transactionAccumulatorHash firstTransactionInfoVersion
    txnInfoHashes

def verifyExtendsLedger (numTxnsInLedger : Nat) (rootHash : HashValue)
    (firstTransactionInfoVersion : Option Nat) : Except Fault Nat :=
  match firstTransactionInfoVersion with
  | some firstVersion => do
      ensure (firstVersion ≤ numTxnsInLedger)
        (.error <| "Transaction list too new. Expected version: " ++
          s!"{numTxnsInLedger}. First transaction version: {firstVersion}.")
      let numOverlapTxns := numTxnsInLedger - firstVersion
      if numOverlapTxns > list.transactionInfos.length then
        return list.transactionInfos.length
      else
        let overlapTxnInfos := list.transactionInfos.take numOverlapTxns
        let frozenSubtreeRootsFromProof :=
          list.ledgerInfoToTransactionInfosProof.leftSiblings.reverse
        let accumulator ← new hasher.scheme frozenSubtreeRootsFromProof firstVersion
        let accuFromProof ← accumulator.append hasher.scheme (overlapTxnInfos.map hash)
        ensure (accuFromProof.rootHash = rootHash) forkHappens
        return numOverlapTxns
  | none => do
      ensure (list.transactionInfos.isEmpty)
        (.error "Condition failed: `self.transaction_infos.is_empty()`")
      return 0

end Definitions

variable {hasher : AccumulatorHasher} {hash : Info → HashValue}
  {list : TransactionInfoListWithProof Info} {leaves : List HashValue}

/-- From left to right, the left siblings are the frozen roots before the range. -/
theorem frozenRoots_of_leftSiblings {proof : AccumulatorRangeProof}
    {first : Nat} (atMost : first ≤ leaves.length)
    (isLeft : proof.leftSiblings = hasher.scheme.nodesAt leaves (fullAbove 0 0 first)) :
    proof.leftSiblings.reverse = frozenRoots hasher.scheme (leaves.take first) := by
  have isLength : (leaves.take first).length = first := by
    rw [length_take]
    omega
  have appended := @nodesAt_append _ hasher.scheme (leaves.take first) (leaves.drop first) 0
  rw [take_append_drop, isLength] at appended
  rw [isLeft, frozenRoots, isLength, appended]

theorem verifyExtendsLedger_eq {first count : Nat} {rootHash : HashValue}
    (fits : leaves.length ≤ 2 ^ 63) (inside : first + list.transactionInfos.length ≤ leaves.length)
    (isSlice : list.transactionInfos.map hash = (leaves.drop first).take
      list.transactionInfos.length)
    (isLeft : list.ledgerInfoToTransactionInfosProof.leftSiblings = hasher.scheme.nodesAt leaves
      (fullAbove 0 0 first)) (atLeast : first ≤ count)
    (atMost : count ≤ first + list.transactionInfos.length) :
    list.verifyExtendsLedger hasher hash count rootHash (some first) =
      if hasher.scheme.root (leaves.take count) = rootHash then
        .ok (count - first)
      else .error forkHappens := by
  have isLength : (leaves.take first).length = first := by
    rw [length_take]
    omega
  have overlap : (list.transactionInfos.take (count - first)).map hash =
      (leaves.drop first).take (count - first) := by
    rw [map_take, isSlice, take_take, Nat.min_eq_left (by omega)]
  have common : leaves.take first ++ (leaves.drop first).take (count - first) =
      leaves.take count := by
    rw [← take_add, Nat.add_sub_cancel' atLeast]
  have made : new hasher.scheme list.ledgerInfoToTransactionInfosProof.leftSiblings.reverse first =
      .ok (ofLeaves hasher.scheme (leaves.take first)) := by
    have fitsFirst : (leaves.take first).length ≤ 2 ^ 63 := by omega
    have expected := @new_eq hasher.scheme _ fitsFirst
    rwa [isLength, ← frozenRoots_of_leftSiblings (by omega) isLeft] at expected
  have appended := @append_eq hasher.scheme
    (leaves.take first) ((leaves.drop first).take (count - first)) (by
      rw [isLength, length_take, length_drop]
      omega)
  rw [common] at appended
  have notPast : ¬ count - first > list.transactionInfos.length := by omega
  rw [verifyExtendsLedger, ensure_of atLeast]
  simp only [ok_bind, notPast, if_false, made, overlap, appended]
  by_cases same : hasher.scheme.root (leaves.take count) = rootHash
  · simp only [ofLeaves, ensure, same, if_true, ok_bind, pure_eq_ok]
  · simp only [ofLeaves, ensure, same, if_false, error_bind]

/-- What is hashed when a chunk is verified and compared with the local ledger. -/
def CollisionFreeFor (hasher : AccumulatorHasher) (hash : Info → HashValue)
    (list : TransactionInfoListWithProof Info)
    (leaves ledger : List HashValue) (first : Nat) : Prop :=
  hasher.scheme.CollisionFree (fun leaf => leaf ∈ leaves ∨ leaf ∈ list.transactionInfos.map hash)
    (fun pair => hasher.scheme.IsInput leaves pair ∨ hasher.scheme.IsInput ledger pair ∨
      hasher.scheme.IsInput (leaves.take ledger.length) pair ∨
      pair ∈ list.ledgerInfoToTransactionInfosProof.verifiedPairs hasher first
        (list.transactionInfos.map hash))

/-- A verified chunk is accepted if the local ledger is a beginning of the leaves that it was
verified against, and it is an error otherwise. -/
theorem overlap_accepted_iff_no_fork (hasher : AccumulatorHasher)
    (hash : Info → HashValue) (list : TransactionInfoListWithProof Info)
    (ledgerInfo : LedgerInfo) (leaves ledger : List HashValue) (first : Nat)
    (isAccumulator : leaves.length ≤ maxAccumulatorLeaves)
    (isRoot : ledgerInfo.transactionAccumulatorHash = hasher.scheme.root leaves)
    (inside : first + list.transactionInfos.length ≤ leaves.length)
    (verified : list.verify hasher hash ledgerInfo (some first) = .ok ())
    (atLeast : first ≤ ledger.length)
    (atMost : ledger.length ≤ first + list.transactionInfos.length)
    (collisionFree : CollisionFreeFor hasher hash list leaves ledger first) :
    (ledger = leaves.take ledger.length → list.verifyExtendsLedger hasher hash ledger.length
        (hasher.scheme.root ledger) (some first) = .ok (ledger.length - first)) ∧
    (ledger ≠ leaves.take ledger.length → list.verifyExtendsLedger hasher hash ledger.length
        (hasher.scheme.root ledger) (some first) = .error forkHappens) := by
  have fits : leaves.length ≤ 2 ^ 63 := by
    rwa [maxAccumulatorLeaves, maxAccumulatorProofDepth, one_shiftLeft] at isAccumulator
  rw [verify, isRoot] at verified
  have notEmpty : list.transactionInfos.map hash ≠ [] := by
    obtain ⟨_, _, rest⟩ := of_bind verified
    obtain ⟨_, _, rest⟩ := of_bind rest
    exact (of_ensure_bind rest).1
  have positive := length_pos_iff.mpr notEmpty
  rw [length_map] at positive
  obtain ⟨_, _, isSlice, isLeft⟩ := slice_of_verify
    collisionFree (fun _ member => .inl member)
    (fun _ isInput => .inl isInput) (fun _ member => .inr member) verified
    (fun _ member => .inr (.inr (.inr member)))
  rw [indexInTree_eq fits (by omega)] at isSlice isLeft
  rw [length_map] at isSlice
  rw [verifyExtendsLedger_eq fits inside isSlice isLeft atLeast atMost]
  constructor
  · intro isBeginning
    rw [← isBeginning, if_pos rfl]
  · intro isFork
    apply if_neg
    intro sameRoot
    have isLength : (leaves.take ledger.length).length = ledger.length := by
      rw [length_take]
      omega
    exact isFork (eq_of_root_eq collisionFree (fun _ isInput => .inr (.inl isInput))
      (fun _ isInput => .inr (.inr (.inl isInput))) isLength.symm
      sameRoot.symm)

namespace Chunk

open MerkleAccumulatorView.FullStore (toyHasher ledgerInfo)

def secondOfTwo : TransactionInfoListWithProof HashValue := ⟨⟨[7], []⟩, [8]⟩

theorem collisionFree_of_one_leaf {ledger : List HashValue} (isSingle : ledger.length = 1) :
    CollisionFreeFor toyHasher id secondOfTwo [7, 8] ledger 1 := by
  apply AccumulatorRangeProof.Indices.collisionFree_of_one_pair
  · intro leaf isALeaf
    simpa [secondOfTwo] using isALeaf
  · rintro pair (isInput | isInput | isInput | isHashed)
    · exact AccumulatorRangeProof.Indices.isInput_two_leaves isInput
    · exact absurd isInput (not_isInput_of_single isSingle)
    · exact absurd isInput (not_isInput_of_single (by rw [isSingle]; rfl))
    · have single : verifiedPairs toyHasher ⟨[7], []⟩ 1 [8] = [(7, 8)] := by decide
      exact mem_singleton.mp (single ▸ isHashed)

/-- The chunk continues the ledger of its first transaction; another is a fork. -/
theorem second_of_two_extends :
    secondOfTwo.verifyExtendsLedger toyHasher id 1 (toyHasher.scheme.root [7]) (some 1) = .ok 0 ∧
      secondOfTwo.verifyExtendsLedger toyHasher id 1
        (toyHasher.scheme.root [9]) (some 1) = .error forkHappens := by
  have verified : secondOfTwo.verify toyHasher id ledgerInfo (some 1) = .ok () := by decide
  constructor
  · exact (overlap_accepted_iff_no_fork toyHasher id secondOfTwo ledgerInfo
      [7, 8] [7] 1 (by decide) rfl (by decide) verified (by decide)
      (by decide) (collisionFree_of_one_leaf rfl)).1 rfl
  · exact (overlap_accepted_iff_no_fork toyHasher id secondOfTwo ledgerInfo
      [7, 8] [9] 1 (by decide) rfl (by decide) verified (by decide)
      (by decide) (collisionFree_of_one_leaf rfl)).2 (by decide)

end Chunk

end TransactionInfoListWithProof

/-! ## Proofs of single transactions

The path from an element to the root is retraced downwards; the version bound makes the
element the leaf of its own index. -/

namespace AccumulatorProof

variable (hasher : AccumulatorHasher)

def climbedPair (node : HashValue × Nat) (sibling : HashValue) : HashValue × HashValue :=
  if node.2 % 2 = 0 then (node.1, sibling) else (sibling, node.1)

def climbedPairs (node : HashValue × Nat) : List HashValue → List (HashValue × HashValue)
  | [] => []
  | sibling :: siblings =>
    climbedPair node sibling :: climbedPairs (climb hasher node sibling) siblings

variable {hasher} {leaves : List HashValue} {isLeaf : HashValue → Prop}
  {isUsed : HashValue × HashValue → Prop}
  (collisionFree : hasher.scheme.CollisionFree isLeaf isUsed)
  (leavesAreLeaves : ∀ leaf ∈ leaves, isLeaf leaf)
  (treeIsUsed : ∀ pair, hasher.scheme.IsInput leaves pair → isUsed pair)

include collisionFree leavesAreLeaves treeIsUsed

theorem nodeAt_of_climb {siblings : List HashValue} {hash : HashValue} {index : Nat}
    (areUsed : ∀ pair ∈ climbedPairs hasher (hash, index) siblings, isUsed pair)
    (isRoot : (siblings.foldl (climb hasher) (hash, index)).1 = hasher.scheme.root leaves) :
    hash = hasher.scheme.nodeAt leaves (rootLevel leaves.length - siblings.length)
      (index % 2 ^ siblings.length) := by
  induction siblings generalizing hash index with
  | nil =>
    rw [length_nil, Nat.sub_zero, pow_zero, mod_one, ← root_eq_nodeAt]
    exact isRoot
  | cons sibling siblings inductionHypothesis =>
    obtain ⟨isUsedPair, areOthers⟩ := forall_mem_cons.mp areUsed
    have isNode : hasher.scheme.node (climbedPair (hash, index) sibling).1
        (climbedPair (hash, index) sibling).2 = (climb hasher (hash, index) sibling).1 := by
      rw [climbedPair, climb]
      split <;> rfl
    have above := inductionHypothesis areOthers isRoot
    obtain ⟨below, isBelow, _, isPair⟩ := children_of_eq_nodeAt collisionFree leavesAreLeaves
      treeIsUsed isUsedPair (sub_le _ _) (isNode.trans above)
    have bits := mod_mul (x := index) (a := 2) (b := 2 ^ siblings.length)
    rw [length_cons, pow_succ', bits, ← Nat.sub_sub, isBelow, Nat.add_sub_cancel, Nat.add_comm]
    rcases mod_two_eq_zero_or_one index with even | odd
    · rw [climbedPair, if_pos even] at isPair
      rw [even, Nat.add_zero]
      exact congrArg Prod.fst isPair
    · rw [climbedPair, if_neg (by simp [odd])] at isPair
      rw [odd]
      exact congrArg Prod.snd isPair

end AccumulatorProof

def verifyTransactionInfo {Info : Type} (hasher : AccumulatorHasher) (hash : Info → HashValue)
    (ledgerInfo : LedgerInfo) (transactionVersion : Nat) (transactionInfo : Info)
    (ledgerInfoToTransactionInfoProof : AccumulatorProof) : Except Fault Unit := do
  ensure (transactionVersion ≤ ledgerInfo.version)
    (.error <| s!"Transaction version {transactionVersion} is newer than LedgerInfo version " ++
      s!"{ledgerInfo.version}.")
  ledgerInfoToTransactionInfoProof.verify hasher ledgerInfo.transactionAccumulatorHash
    (hash transactionInfo) transactionVersion

namespace TransactionProof

open AccumulatorProof

variable {Info : Type}

/-- What is hashed when an info is verified against the root of a list. -/
def CollisionFreeFor (hasher : AccumulatorHasher) (leaves : List HashValue) (version : Nat)
    (infoHash : HashValue) (proof : AccumulatorProof) : Prop :=
  hasher.scheme.CollisionFree (fun leaf => leaf ∈ leaves ∨ leaf = infoHash)
    (fun pair => hasher.scheme.IsInput leaves pair ∨
      pair ∈ climbedPairs hasher (infoHash, version) proof.siblings)

/-- A transaction info that verifies is the one of its version. -/
theorem verified_info_of_version (hasher : AccumulatorHasher) (hash : Info → HashValue)
    (leaves : List HashValue) (ledgerInfo : LedgerInfo) (version : Nat) (info : Info)
    (proof : AccumulatorProof) (isLast : ledgerInfo.version + 1 = leaves.length)
    (isRoot : ledgerInfo.transactionAccumulatorHash = hasher.scheme.root leaves)
    (collisionFree : CollisionFreeFor hasher leaves version (hash info) proof)
    (verified : verifyTransactionInfo hasher hash ledgerInfo version info proof = .ok ()) :
    leaves[version]? = some (hash info) := by
  obtain ⟨_, inTime, verified⟩ := of_bind verified
  obtain ⟨_, _, isExpected⟩ := of_bind verified
  rw [ensure_eq_ok] at inTime isExpected
  rw [isRoot] at isExpected
  obtain ⟨isBottom, found⟩ := leaf_of_eq_nodeAt collisionFree (fun _ isInput => .inl isInput)
    (.inr rfl) (sub_le _ _) (nodeAt_of_climb collisionFree (fun _ member => .inl member)
      (fun _ isInput => .inl isInput) (fun _ member => .inr member) isExpected)
  have below : version < 2 ^ proof.siblings.length :=
    calc version < leaves.length := by omega
      _ ≤ 2 ^ rootLevel leaves.length := le_two_pow_rootLevel leaves.length
      _ ≤ 2 ^ proof.siblings.length := Nat.pow_le_pow_right (by omega) (by omega)
  rwa [mod_eq_of_lt below] at found

open MerkleAccumulatorView.FullStore (toyHasher ledgerInfo)

theorem verified_second_of_two : [(7 : HashValue), 8][1]? = some 8 := by
  apply verified_info_of_version toyHasher id [7, 8] ledgerInfo 1 8 ⟨[7]⟩ rfl rfl
  · apply AccumulatorRangeProof.Indices.collisionFree_of_one_pair
    · intro leaf isALeaf
      simpa [or_assoc] using isALeaf
    · rintro pair (isInput | isClimbed)
      · exact AccumulatorRangeProof.Indices.isInput_two_leaves isInput
      · exact mem_singleton.mp isClimbed
  · decide

end TransactionProof

end LumioNode
