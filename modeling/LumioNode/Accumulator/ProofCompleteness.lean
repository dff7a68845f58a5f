import LumioNode.Accumulator.Agreement

/-! # Proofs from storage verify

The siblings that are collected along a path are the ones that verification combines;
for a range, it rebuilds every level between two paths. -/

namespace LumioNode

open Library PaddedScheme MerkleAccumulatorView Position AccumulatorRun List Nat

/-! ## The path of a leaf -/

namespace Position

def pathSiblings (leafIndex level count : Nat) : List Position :=
  (List.range' level count).map fun current =>
    atNode current ((leafIndex / 2 ^ current) ^^^ 1)

variable {leafIndex level count : Nat}

theorem path_walkable (inside : leafIndex < 2 ^ 63 - 1) (low : level < 63) :
    Walkable level (leafIndex / 2 ^ level) :=
  ⟨low, lt_of_le_of_lt (div_mul_le_self _ _) inside⟩

theorem fromLeafIndex_eq_mod (leafIndex : Nat) :
    fromLeafIndex leafIndex = atNode 0 (leafIndex % 2 ^ 63) := by
  have wraps : Word64.shiftLeft leafIndex 1 = Word64.shiftLeft (leafIndex % 2 ^ 63) 1 := by
    simp only [Word64.shiftLeft, Nat.shiftLeft_eq]
    omega
  rw [← fromLeafIndex_eq (Nat.mod_lt _ (by decide)), fromLeafIndex, wraps, fromLeafIndex]

theorem ancestorSiblings_eq (inside : leafIndex < 2 ^ 63 - 1) (below : level + count ≤ 63) :
    (atNode level (leafIndex / 2 ^ level)).ancestorSiblings count =
      .ok (pathSiblings leafIndex level count) := by
  induction count generalizing level with
  | zero => rfl
  | succ count inductionHypothesis =>
    have walkable : Walkable level (leafIndex / 2 ^ level) := path_walkable inside (by omega)
    rw [ancestorSiblings, sibling_atNode walkable, ok_bind, parent_atNode walkable, ok_bind,
      div_two_pow_succ, inductionHypothesis (by omega), ok_bind]
    rfl

theorem sibling_walkable (inside : leafIndex < 2 ^ 63 - 2) (low : level < 63) :
    Walkable level ((leafIndex / 2 ^ level) ^^^ 1) := by
  have inTree : InTree level ((leafIndex / 2 ^ level) ^^^ 1) :=
    (path_walkable (by omega) low).inTree.sibling low
  refine ⟨low, ?_⟩
  cases level with
  | zero =>
    rw [pow_zero, Nat.div_one, Nat.mul_one, xor_one_eq]
    split <;> omega
  | succ level =>
    have positive : 0 < 2 ^ level := Nat.two_pow_pos level
    have expand (index : Nat) : 2 ^ (level + 1 + 1) * (index + 1) =
        2 * (index * 2 ^ (level + 1)) + 2 * 2 ^ (level + 1) := by ring
    unfold InTree at inTree
    rw [expand] at inTree
    omega

end Position

namespace MerkleAccumulatorView

variable {hasher : PaddedScheme HashValue} {reader : HashReader}
  {leaves : List HashValue} {leafIndex : Nat} {filter : Position → Except Fault Bool}
  {keep : Nat → Bool}

def siblingHashes (hasher : PaddedScheme HashValue) (leaves : List HashValue)
    (leafIndex level count : Nat) (keep : Nat → Bool) : List HashValue :=
  ((List.range' level count).filter fun current =>
    keep ((leafIndex / 2 ^ current) ^^^ 1)).map fun current =>
      hasher.nodeAt leaves current ((leafIndex / 2 ^ current) ^^^ 1)

theorem siblingHashes_succ (keep : Nat → Bool) (level count : Nat) :
    siblingHashes hasher leaves leafIndex level (count + 1) keep =
      if keep ((leafIndex / 2 ^ level) ^^^ 1) then
        hasher.nodeAt leaves level ((leafIndex / 2 ^ level) ^^^ 1) ::
          siblingHashes hasher leaves leafIndex (level + 1) count keep
      else siblingHashes hasher leaves leafIndex (level + 1) count keep := by
  rw [siblingHashes, List.range'_succ, filter_cons]
  split
  · rfl
  · rfl

theorem getSiblingPositions_eq
    (few : leaves.length < 2 ^ 63) (inside : leafIndex < leaves.length)
    (filtered : ∀ level, level < 63 → filter (atNode level ((leafIndex / 2 ^ level) ^^^ 1)) = .ok
      (keep ((leafIndex / 2 ^ level) ^^^ 1))) :
    getSiblingPositions ⟨reader, leaves.length⟩ leafIndex filter =
      .ok (((List.range' 0 (rootLevel leaves.length)).filter fun current =>
        keep ((leafIndex / 2 ^ current) ^^^ 1)).map fun current =>
          atNode current ((leafIndex / 2 ^ current) ^^^ 1)) := by
  have low := rootLevel_le few.le
  have path := @ancestorSiblings_eq leafIndex 0 (rootLevel leaves.length) (by omega) (by omega)
  rw [pow_zero, Nat.div_one] at path
  have root := @rootFromLeafCount_eq leaves.length (by omega) (by omega)
  simp only [getSiblingPositions, root, ok_bind, level_atNode (root_inTree few.le)]
  rw [fromLeafIndex_eq (by omega), path, ok_bind]
  apply filterEach_eq_ok
  intro current member
  rw [mem_range'_1] at member
  exact filtered current (by omega)

theorem getHashes_eq {kept : List Nat} (hasFrozen : HasFrozen hasher reader leaves)
    (few : leaves.length < 2 ^ 63) (inside : leafIndex < leaves.length)
    (low : ∀ current ∈ kept, current < 63) :
    getHashes hasher ⟨reader, leaves.length⟩ (kept.map fun current =>
          atNode current ((leafIndex / 2 ^ current) ^^^ 1)) =
      .ok (kept.map fun current =>
        hasher.nodeAt leaves current ((leafIndex / 2 ^ current) ^^^ 1)) := by
  apply mapM_eq_ok
  intro current member
  have isLow := low current member
  have walkable : Position.Walkable current (leafIndex / 2 ^ current) :=
    path_walkable (by omega) isLow
  exact getHash_eq hasFrozen (by omega) (Nat.le_of_lt few) (walkable.inTree.sibling isLow)

theorem getHashes_siblings
    (hasFrozen : HasFrozen hasher reader leaves) (few : leaves.length < 2 ^ 63)
    (inside : leafIndex < leaves.length)
    (filtered : ∀ level, level < 63 → filter (atNode level ((leafIndex / 2 ^ level) ^^^ 1)) = .ok
      (keep ((leafIndex / 2 ^ level) ^^^ 1))) :
    ∃ positions, getSiblingPositions ⟨reader, leaves.length⟩ leafIndex filter = .ok positions ∧
      getHashes hasher ⟨reader, leaves.length⟩ positions =
        .ok (siblingHashes hasher leaves leafIndex 0 (rootLevel leaves.length) keep) := by
  refine ⟨_, getSiblingPositions_eq few inside filtered, ?_⟩
  apply getHashes_eq hasFrozen few inside
  intro current member
  have isLevel := (mem_filter.mp member).1
  have low := rootLevel_le few.le
  rw [mem_range'_1] at isLevel
  omega

end MerkleAccumulatorView

/-! ## Verification of one leaf -/

namespace AccumulatorProof

variable {hasher : AccumulatorHasher} {leaves : List HashValue} {leafIndex level count : Nat}

theorem climb_path (inside : leafIndex < leaves.length) :
    (siblingHashes hasher.scheme leaves leafIndex level count fun _ => true).foldl (climb hasher)
        (hasher.scheme.nodeAt leaves level (leafIndex / 2 ^ level), leafIndex / 2 ^ level) =
      (hasher.scheme.nodeAt leaves (level + count) (leafIndex / 2 ^ (level + count)),
        leafIndex / 2 ^ (level + count)) := by
  induction count generalizing level with
  | zero => rfl
  | succ count inductionHypothesis =>
    have starts : leafIndex / 2 ^ level / 2 * 2 ^ (level + 1) < leaves.length := by
      rw [div_two_pow_succ]
      exact lt_of_le_of_lt (div_mul_le_self _ _) inside
    have climbed : climb hasher (hasher.scheme.nodeAt leaves level (leafIndex / 2 ^ level),
          leafIndex / 2 ^ level)
        (hasher.scheme.nodeAt leaves level ((leafIndex / 2 ^ level) ^^^ 1)) =
        (hasher.scheme.nodeAt leaves (level + 1) (leafIndex / 2 ^ (level + 1)),
          leafIndex / 2 ^ (level + 1)) := by
      rw [climb, ← div_two_pow_succ, xor_one_eq]
      split
      · rw [node_of_even ‹_› starts]
      · rw [node_of_odd (by omega) starts]
    have next := @inductionHypothesis (level + 1)
    have sum : level + 1 + count = level + (count + 1) := by omega
    rw [sum] at next
    rw [← next, ← climbed]
    simp [siblingHashes, List.range'_succ]

theorem length_siblingHashes_le (keep : Nat → Bool) :
    (siblingHashes hasher.scheme leaves leafIndex level count keep).length ≤ count := by
  rw [siblingHashes, length_map]
  apply le_trans (length_filter_le _ _)
  rw [length_range']

theorem rootIndex_eq (inside : leafIndex < leaves.length) :
    leafIndex / 2 ^ rootLevel leaves.length = 0 :=
  div_eq_of_lt (lt_of_lt_of_le inside (le_two_pow_rootLevel _))

theorem verify_path {leaf : HashValue} (few : leaves.length < 2 ^ 63)
    (isLeaf : leaves[leafIndex]? = some leaf) :
    verify hasher ⟨siblingHashes hasher.scheme leaves
        leafIndex 0 (rootLevel leaves.length) fun _ => true⟩
      (hasher.scheme.root leaves) leaf leafIndex = .ok () := by
  have inside : leafIndex < leaves.length := (List.getElem?_eq_some_iff.mp isLeaf).1
  have low : rootLevel leaves.length ≤ maxAccumulatorProofDepth := rootLevel_le few.le
  have short := le_trans (@length_siblingHashes_le hasher leaves leafIndex 0
    (rootLevel leaves.length) fun _ => true) low
  have climbed := @climb_path hasher leaves leafIndex 0 (rootLevel leaves.length) inside
  rw [pow_zero, Nat.div_one, nodeAt_zero isLeaf, Nat.zero_add,
    rootIndex_eq inside, ← root_eq_nodeAt] at climbed
  simp only [verify, ensure_of short, ok_bind, climbed]
  exact ensure_of trivial

end AccumulatorProof

open AccumulatorProof

/-! ## Verification of a range -/

namespace AccumulatorRangeProof

section Level

variable (nodes : Nat → HashValue) {first last : Nat}

/-- The children of the node with an index on the level above. -/
def childrenOf (index : Nat) : HashValue × HashValue := (nodes (2 * index), nodes (2 * index + 1))

theorem chunks_eq (first count : Nat) : chunks ((List.range' (2 * first) count).map nodes) =
    ((List.range' first (count / 2)).map (childrenOf nodes),
      if count % 2 = 1 then some (nodes (2 * first + count - 1))
      else none) := by
  induction count using Nat.strong_induction_on generalizing first with
  | h count inductionHypothesis =>
    match count with
    | 0 => rfl
    | 1 => rfl
    | count + 2 =>
      have next := inductionHypothesis count (by omega) (first + 1)
      have start : 2 * first + 1 + 1 = 2 * (first + 1) := by omega
      have half : (count + 2) / 2 = count / 2 + 1 := by omega
      have parity : (count + 2) % 2 = count % 2 := by omega
      have last : 2 * first + (count + 2) - 1 = 2 * (first + 1) + count - 1 := by omega
      rw [List.range'_succ, List.range'_succ, map_cons, map_cons,
        chunks, start, next, half, parity, last, List.range'_succ]
      rfl

theorem firstPair_eq (ordered : first ≤ last) (leftRest : List HashValue) :
    firstPair (decide (first % 2 = 1)) ((List.range' first (last + 1 - first)).map nodes)
        (if first % 2 = 1 then nodes (first - 1) :: leftRest else leftRest) =
      .ok ((List.range' (first / 2) ((first + 1) / 2 - first / 2)).map (childrenOf nodes),
        (List.range' (2 * ((first + 1) / 2))
          (last + 1 - 2 * ((first + 1) / 2))).map nodes, leftRest) := by
  rcases mod_two_eq_zero_or_one first with even | odd
  · have isHalf : (first + 1) / 2 = first / 2 := by omega
    have isFirst : 2 * (first / 2) = first := by omega
    rw [isHalf, isFirst, Nat.sub_self]
    simp [firstPair, even]
  · have isHalf : (first + 1) / 2 = first / 2 + 1 := by omega
    have isNext : 2 * (first / 2 + 1) = first + 1 := by omega
    have isLeft : 2 * (first / 2) = first - 1 := by omega
    have isRight : first - 1 + 1 = first := by omega
    have one : first / 2 + 1 - first / 2 = 1 := by omega
    have count : last + 1 - first = last + 1 - (first + 1) + 1 := by omega
    rw [isHalf, isNext, one, count, List.range'_succ, map_cons]
    simp [firstPair, odd, childrenOf, isLeft, isRight]

theorem lastPair_eq {start : Nat} (ordered : 2 * start ≤ last + 1)
    (rightRest : List HashValue) :
    lastPair (if (last + 1 - 2 * start) % 2 = 1 then
          some (nodes (2 * start + (last + 1 - 2 * start) - 1)) else none)
        (if last % 2 = 0 then nodes (last + 1) :: rightRest else rightRest) =
      .ok ((List.range' (start + (last + 1 - 2 * start) / 2)
          (last / 2 + 1 - (start + (last + 1 - 2 * start) / 2))).map
            (childrenOf nodes), rightRest) := by
  rcases mod_two_eq_zero_or_one last with even | odd
  · have isOdd : (last + 1 - 2 * start) % 2 = 1 := by omega
    have isLast : 2 * start + (last + 1 - 2 * start) - 1 = last := by omega
    have half : start + (last + 1 - 2 * start) / 2 = last / 2 := by omega
    have one : last / 2 + 1 - last / 2 = 1 := by omega
    have isLeft : 2 * (last / 2) = last := by omega
    rw [if_pos isOdd, if_pos even, isLast, half, one]
    simp [lastPair, childrenOf, isLeft]
  · have isEven : ¬ (last + 1 - 2 * start) % 2 = 1 := by omega
    have none : last / 2 + 1 - (start + (last + 1 - 2 * start) / 2) = 0 := by omega
    rw [if_neg isEven, if_neg (by omega), none]
    rfl

/-- The children between two paths are paired to the nodes above, with a sibling on each side
where a path turns inwards. -/
theorem levelPairs_eq (ordered : first ≤ last)
    (leftRest rightRest : List HashValue) :
    levelPairs (decide (first % 2 = 1)) ((List.range' first (last + 1 - first)).map nodes)
        (if first % 2 = 1 then nodes (first - 1) :: leftRest else leftRest)
        (if last % 2 = 0 then nodes (last + 1) :: rightRest else rightRest) =
      .ok ((List.range' (first / 2) (last / 2 + 1 - first / 2)).map
        (childrenOf nodes), leftRest, rightRest) := by
  have middle : first / 2 + ((first + 1) / 2 - first / 2) = (first + 1) / 2 := by omega
  have inner : (last + 1 - 2 * ((first + 1) / 2)) / 2 + (last / 2 + 1 - ((first + 1) / 2 +
        (last + 1 - 2 * ((first + 1) / 2)) / 2)) =
      last / 2 + 1 - (first + 1) / 2 := by omega
  have total : (first + 1) / 2 - first / 2 +
      (last / 2 + 1 - (first + 1) / 2) = last / 2 + 1 - first / 2 := by
    omega
  have joined := @List.range'_append_1 (first / 2)
    ((first + 1) / 2 - first / 2) (last / 2 + 1 - (first + 1) / 2)
  rw [middle, total] at joined
  rw [levelPairs, firstPair_eq nodes ordered, ok_bind]
  simp only [chunks_eq]
  rw [lastPair_eq nodes (by omega), ok_bind]
  simp only [← map_append, pure_eq_ok, Prod.mk.injEq, and_true]
  rw [append_assoc, List.range'_append_1, inner, joined]

end Level

variable {hasher : AccumulatorHasher} {leaves : List HashValue} {first last level count : Nat}

/-- Left siblings are the left children among the siblings of the path. -/
def isLeftIndex (index : Nat) : Bool := index % 2 = 0

def isRightIndex (index : Nat) : Bool := index % 2 = 1

abbrev leftHashes (hasher : AccumulatorHasher) (leaves : List HashValue)
    (first level count : Nat) : List HashValue :=
  siblingHashes hasher.scheme leaves first level count isLeftIndex

abbrev rightHashes (hasher : AccumulatorHasher) (leaves : List HashValue)
    (last level count : Nat) : List HashValue :=
  siblingHashes hasher.scheme leaves last level count isRightIndex

/-- The hashes of a level between the paths of the first and the last leaf. -/
abbrev levelHashes (hasher : AccumulatorHasher) (leaves : List HashValue)
    (first last level : Nat) : List HashValue :=
  (List.range' (first / 2 ^ level) (last / 2 ^ level + 1 - first / 2 ^ level)).map
    (hasher.scheme.nodeAt leaves level)

theorem leftHashes_succ : leftHashes hasher leaves first level (count + 1) =
    if first / 2 ^ level % 2 = 1 then
      hasher.scheme.nodeAt leaves level (first / 2 ^ level - 1) ::
        leftHashes hasher leaves first (level + 1) count
    else leftHashes hasher leaves first (level + 1) count := by
  simp only [siblingHashes_succ, xor_one_eq, isLeftIndex, decide_eq_true_iff]
  split
  · rw [if_neg (by omega), if_neg (by omega)]
  · rw [if_pos (by omega), if_pos (by omega)]

theorem rightHashes_succ : rightHashes hasher leaves last level (count + 1) =
    if last / 2 ^ level % 2 = 0 then
      hasher.scheme.nodeAt leaves level (last / 2 ^ level + 1) ::
        rightHashes hasher leaves last (level + 1) count
    else rightHashes hasher leaves last (level + 1) count := by
  simp only [siblingHashes_succ, xor_one_eq, isRightIndex, decide_eq_true_iff]
  split
  · rw [if_pos (by omega)]
  · rw [if_neg (by omega)]

theorem reduce_done {rounds : Nat} {position : Position} {hashes : List HashValue}
    (single : hashes.length ≤ 1) : reduce hasher rounds position hashes [] [] = .ok hashes := by
  cases rounds <;> simp [reduce, single]

/-- One round, if it succeeds: the pairs, the siblings left and the next position. -/
def round (position : Position) (hashes leftSiblings rightSiblings : List HashValue) :
    Except Fault ((List (HashValue × HashValue) × List HashValue × List HashValue) × Position) := do
  let isRight ← position.isRightChild
  let level ← levelPairs isRight hashes leftSiblings rightSiblings
  let parent ← position.parent
  return (level, parent)

variable (hasher) in
/-- The pairs that the loop of `verify` hashes. -/
def hashedPairs : Nat → Position → List HashValue → List HashValue →
    List HashValue → List (HashValue × HashValue)
  | 0, _, _, _, _ => []
  | rounds + 1, position, hashes, leftSiblings, rightSiblings =>
    match round position hashes leftSiblings rightSiblings with
    | .error _ => []
    | .ok ((pairs, leftRest, rightRest), parent) =>
      pairs ++ hashedPairs rounds parent (pairs.map fun pair => hasher.scheme.node pair.1 pair.2)
        leftRest rightRest

theorem round_eq_ok {position parent : Position} {isRight : Bool}
    {hashes leftSiblings rightSiblings leftRest rightRest : List HashValue}
    {pairs : List (HashValue × HashValue)}
    (isChild : position.isRightChild = .ok isRight)
    (paired : levelPairs isRight hashes leftSiblings rightSiblings =
      .ok (pairs, leftRest, rightRest))
    (isParent : position.parent = .ok parent) :
    round position hashes leftSiblings rightSiblings =
      .ok ((pairs, leftRest, rightRest), parent) := by
  rw [round, isChild, ok_bind, paired, ok_bind, isParent, ok_bind]
  rfl

/-- No pair is made of a single hash without siblings. -/
theorem hashedPairs_single (rounds : Nat) (position : Position) (single : HashValue) :
    hashedPairs hasher rounds position [single] [] [] = [] := by
  cases rounds with
  | zero => rfl
  | succ rounds =>
    have fails : ∃ fault, round position [single] [] [] = .error fault := by
      cases isChild : position.isRightChild with
      | error fault => exact ⟨fault, by rw [round, isChild, error_bind]⟩
      | ok isRight =>
        cases isRight <;> exact ⟨_, by rw [round, isChild, ok_bind]; rfl⟩
    obtain ⟨fault, failed⟩ := fails
    rw [hashedPairs, failed]

theorem childrenOf_isInput {index : Nat} (low : level < rootLevel leaves.length)
    (inside : index * 2 ^ (level + 1) < leaves.length) :
    hasher.scheme.IsInput leaves (childrenOf (hasher.scheme.nodeAt leaves level) index) :=
  ⟨level, index, low, inside, rfl⟩

/-- From a level on, the loop rebuilds the tree, and hashes only pairs of the tree. Of the
position only the bits below the root count. -/
theorem reduce_eq {rounds index : Nat} (low : rootLevel leaves.length ≤ 63)
    (ordered : first ≤ last) (inside : last < leaves.length)
    (below : level + count = rootLevel leaves.length)
    (starts : 0 < count → index * 2 ^ level < 2 ^ 63 - 1)
    (sameBits : index % 2 ^ count = first / 2 ^ level % 2 ^ count)
    (enough : last / 2 ^ level + 1 - first / 2 ^ level +
      (leftHashes hasher leaves first level count).length +
      (rightHashes hasher leaves last level count).length ≤ rounds) :
    reduce hasher rounds (atNode level index)
        (levelHashes hasher leaves first last level)
        (leftHashes hasher leaves first level count)
        (rightHashes hasher leaves last level count) = .ok [hasher.scheme.root leaves] ∧
      ∀ pair ∈ hashedPairs hasher rounds (atNode level index)
        (levelHashes hasher leaves first last level)
        (leftHashes hasher leaves first level count)
        (rightHashes hasher leaves last level count), hasher.scheme.IsInput leaves pair := by
  induction count generalizing level rounds index with
  | zero =>
    have isRoot : level = rootLevel leaves.length := by omega
    have lastRoot : last / 2 ^ level = 0 := by
      rw [isRoot]
      exact rootIndex_eq inside
    have firstRoot : first / 2 ^ level = 0 := by
      rw [isRoot]
      exact rootIndex_eq (lt_of_le_of_lt ordered inside)
    have isSingle : levelHashes hasher leaves first last level = [hasher.scheme.root leaves] := by
      rw [levelHashes, lastRoot, firstRoot, root_eq_nodeAt, isRoot]
      rfl
    have none : hashedPairs hasher rounds (atNode level index) [hasher.scheme.root leaves]
        (leftHashes hasher leaves first level 0) (rightHashes hasher leaves last level 0) = [] :=
      hashedPairs_single rounds _ _
    rw [isSingle, none]
    exact ⟨reduce_done (le_refl _), fun _ member => absurd member not_mem_nil⟩
  | succ count inductionHypothesis =>
    have walkable : Position.Walkable level index := ⟨by omega, starts (succ_pos count)⟩
    have orderedHere : first / 2 ^ level ≤ last / 2 ^ level := Nat.div_le_div_right ordered
    have sameBit : index % 2 = first / 2 ^ level % 2 := by
      have even : 2 ∣ 2 ^ (count + 1) := dvd_pow_self 2 (succ_ne_zero count)
      rw [← mod_mod_of_dvd index even, sameBits, mod_mod_of_dvd _ even]
    have sameHigher : index / 2 % 2 ^ count = first / 2 ^ (level + 1) % 2 ^ count := by
      have halved := congrArg (· / 2) sameBits
      rwa [pow_succ', mod_mul_right_div_self, mod_mul_right_div_self,
        div_two_pow_succ] at halved
    have paired := levelPairs_eq (hasher.scheme.nodeAt leaves level) orderedHere
      (leftHashes hasher leaves first (level + 1) count)
      (rightHashes hasher leaves last (level + 1) count)
    rw [← leftHashes_succ, ← rightHashes_succ, div_two_pow_succ, div_two_pow_succ,
      ← sameBit] at paired
    have starting : ∀ above, above ∈ List.range' (first / 2 ^ (level + 1))
        (last / 2 ^ (level + 1) + 1 - first / 2 ^ (level + 1)) →
        above * 2 ^ (level + 1) < leaves.length := by
      intro above member
      rw [mem_range'_1] at member
      have atMost : above ≤ last / 2 ^ (level + 1) := by omega
      exact lt_of_le_of_lt (le_trans (Nat.mul_le_mul_right _ atMost)
        (div_mul_le_self _ _)) inside
    have hashed : ((List.range' (first / 2 ^ (level + 1))
        (last / 2 ^ (level + 1) + 1 - first / 2 ^ (level + 1))).map
        (childrenOf (hasher.scheme.nodeAt leaves level))).map
        (fun pair => hasher.scheme.node pair.1 pair.2) =
        levelHashes hasher leaves first last (level + 1) := by
      rw [map_map]
      apply map_congr_left
      intro above member
      exact (nodeAt_succ (starting above member)).symm
    have more : ¬ ((levelHashes hasher leaves first last level).length ≤ 1 ∧
        leftHashes hasher leaves first level (count + 1) = [] ∧
        rightHashes hasher leaves last level (count + 1) = []) := by
      rintro ⟨single, noLeft, noRight⟩
      rw [length_map, length_range'] at single
      rw [leftHashes_succ] at noLeft
      rw [rightHashes_succ] at noRight
      have same : first / 2 ^ level = last / 2 ^ level := by omega
      rw [← same] at noRight
      rcases mod_two_eq_zero_or_one (first / 2 ^ level) with even | odd
      · rw [if_pos even] at noRight
        cases noRight
      · rw [if_pos odd] at noLeft
        cases noLeft
    have leftLength := congrArg List.length (@leftHashes_succ hasher leaves first level count)
    have rightLength := congrArg List.length (@rightHashes_succ hasher leaves last level count)
    rw [apply_ite List.length, length_cons] at leftLength rightLength
    have fewer : last / 2 ^ (level + 1) + 1 - first / 2 ^ (level + 1) +
        (leftHashes hasher leaves first (level + 1) count).length +
        (rightHashes hasher leaves last (level + 1) count).length < rounds := by
      rw [← div_two_pow_succ, ← div_two_pow_succ]
      split at leftLength <;> split at rightLength <;> omega
    obtain ⟨next, isNext⟩ : ∃ next, rounds = next + 1 := ⟨rounds - 1, by omega⟩
    have startsAbove := lt_of_le_of_lt (starts_half index level) walkable.2
    obtain ⟨rebuilt, inTree⟩ := @inductionHypothesis (level + 1) next (index / 2) (by omega)
      (fun _ => startsAbove) sameHigher (by omega)
    have isChild := isRightChild_atNode walkable
    have isParent := parent_atNode walkable
    rw [isNext]
    constructor
    · rw [reduce]
      simp only [more, if_false, isChild, paired, isParent, ok_bind]
      rw [hashed]
      exact rebuilt
    · intro pair member
      rw [hashedPairs, round_eq_ok isChild paired isParent] at member
      simp only [hashed, mem_append] at member
      rcases member with isHere | isAbove
      · obtain ⟨above, isAbove, rfl⟩ := mem_map.mp isHere
        exact childrenOf_isInput (by omega) (starting above isAbove)
      · exact inTree pair isAbove

theorem slice_eq (ordered : first ≤ last) (inside : last < leaves.length) :
    (leaves.drop first).take (last + 1 - first) = (List.range' first (last + 1 - first)).map
        (hasher.scheme.nodeAt leaves 0) := by
  apply ext_getElem
  · rw [length_take, length_drop, length_map, length_range']
    omega
  · intro index isIndex _
    rw [length_take, length_drop] at isIndex
    rw [getElem_take, getElem_drop, getElem_map, getElem_range', Nat.one_mul, nodeAt_zero]
    exact List.getElem?_eq_getElem (by omega)

variable (hasher) in
def verifiedPairs (proof : AccumulatorRangeProof) (firstLeafIndex : Nat)
    (leafHashes : List HashValue) : List (HashValue × HashValue) :=
  hashedPairs hasher (leafHashes.length + proof.leftSiblings.length +
      proof.rightSiblings.length) (Position.fromLeafIndex firstLeafIndex)
    leafHashes proof.leftSiblings proof.rightSiblings

/-- The proof of a slice verifies at every index with its bits below the root. -/
theorem verify_range {index : Nat} (fits : leaves.length ≤ 2 ^ 63) (ordered : first ≤ last)
    (inside : last < leaves.length)
    (starts : 0 < rootLevel leaves.length → index % 2 ^ 63 < 2 ^ 63 - 1)
    (sameBits : index % 2 ^ 63 % 2 ^ rootLevel leaves.length = first) :
    verify hasher ⟨leftHashes hasher leaves first 0 (rootLevel leaves.length),
          rightHashes hasher leaves last 0 (rootLevel leaves.length)⟩
        (hasher.scheme.root leaves) (some index)
        ((leaves.drop first).take (last + 1 - first)) = .ok () ∧
      ∀ pair ∈ verifiedPairs hasher
        ⟨leftHashes hasher leaves first 0 (rootLevel leaves.length),
          rightHashes hasher leaves last 0 (rootLevel leaves.length)⟩ index
        ((leaves.drop first).take (last + 1 - first)), hasher.scheme.IsInput leaves pair := by
  have low : rootLevel leaves.length ≤ maxAccumulatorProofDepth := rootLevel_le fits
  have leftShort := le_trans (@length_siblingHashes_le hasher
    leaves first 0 (rootLevel leaves.length) isLeftIndex) low
  have rightShort := le_trans (@length_siblingHashes_le
    hasher leaves last 0 (rootLevel leaves.length) isRightIndex) low
  have isSlice := @slice_eq hasher leaves first last ordered inside
  have sliceLength : ((leaves.drop first).take (last + 1 - first)).length = last + 1 - first := by
    rw [isSlice, length_map, length_range']
  have notEmpty : (leaves.drop first).take (last + 1 - first) ≠ [] := by
    apply ne_nil_of_length_pos
    omega
  have belowRoot : first < 2 ^ rootLevel leaves.length :=
    lt_of_lt_of_le (by omega) (le_two_pow_rootLevel leaves.length)
  have reduced := @reduce_eq hasher leaves first last 0 (rootLevel leaves.length)
    (((leaves.drop first).take (last + 1 - first)).length +
      (leftHashes hasher leaves first 0 (rootLevel leaves.length)).length +
      (rightHashes hasher leaves last 0 (rootLevel leaves.length)).length)
    (index % 2 ^ 63) low ordered inside (Nat.zero_add _)
    (by rwa [pow_zero, Nat.mul_one])
    (by rw [sameBits, pow_zero, Nat.div_one, mod_eq_of_lt belowRoot])
    (by rw [sliceLength, pow_zero, Nat.div_one, Nat.div_one])
  rw [levelHashes, pow_zero, Nat.div_one, Nat.div_one, ← isSlice, ← fromLeafIndex_eq_mod] at reduced
  refine ⟨?_, reduced.2⟩
  simp only [verify, ensure_of leftShort, ensure_of rightShort,
    ensure_of notEmpty, ok_bind, reduced.1]
  exact ensure_of trivial

end AccumulatorRangeProof

open AccumulatorRangeProof

/-! ## Proofs from storage -/

namespace MerkleAccumulatorView

variable {hasher : AccumulatorHasher} {reader : HashReader} {leaves : List HashValue}

theorem getProof_eq {leafIndex : Nat} (hasFrozen : HasFrozen hasher.scheme reader leaves)
    (few : leaves.length < 2 ^ 63) (inside : leafIndex < leaves.length) :
    getProof hasher ⟨reader, leaves.length⟩ leafIndex =
      .ok ⟨siblingHashes hasher.scheme leaves leafIndex 0
        (rootLevel leaves.length) fun _ => true⟩ := by
  obtain ⟨positions, isPositions, hashes⟩ := @getHashes_siblings
    hasher.scheme reader leaves leafIndex (fun _ => .ok true)
    (fun _ => true) hasFrozen few inside (fun _ _ => rfl)
  simp only [getProof, ensure_of inside, ok_bind, isPositions, hashes]
  rfl

theorem getRangeProof_eq {first last : Nat} (hasFrozen : HasFrozen hasher.scheme reader leaves)
    (few : leaves.length < 2 ^ 63) (ordered : first ≤ last)
    (inside : last < leaves.length) (notLast : last < 2 ^ 63 - 2) :
    getRangeProof hasher ⟨reader, leaves.length⟩ (some first) (last + 1 - first) =
      .ok ⟨leftHashes hasher leaves first 0 (rootLevel leaves.length),
        rightHashes hasher leaves last 0 (rootLevel leaves.length)⟩ := by
  obtain ⟨leftPositions, isLeft, leftHashes⟩ := @getHashes_siblings
    hasher.scheme reader leaves first isLeftChild
    isLeftIndex hasFrozen few (by omega)
    (fun level low => isLeftChild_atNode (sibling_walkable (by omega) low))
  obtain ⟨rightPositions, isRight, rightHashes⟩ := @getHashes_siblings
    hasher.scheme reader leaves last isRightChild
    isRightIndex hasFrozen few inside
    (fun level low => isRightChild_atNode (sibling_walkable notLast low))
  have positive : 0 < last + 1 - first := by omega
  have isLast : checkedAdd first (last + 1 - first - 1) = some last := by
    have sum : first + (last + 1 - first - 1) = last := by omega
    rw [checkedAdd, u64Max, sum, if_pos (by omega)]
  simp only [getRangeProof, getRangeProofPositions, ensure_of positive, isLast, expect, ok_bind,
    ensure_of inside, isLeft, isRight, pure_bind, leftHashes, rightHashes]
  rfl

/-- Proofs read from the store verify against the root of the leaves in it. -/
theorem store_proofs_verify (hasher : AccumulatorHasher) (batches : List (List HashValue))
    (run : AccumulatorRun) (ran : appendBatches hasher.scheme batches = .ok run) :
    (∀ index leaf, batches.flatten[index]? = some leaf →
      ∃ proof, getProof hasher ⟨AccumulatorStore.reader run.store,
          batches.flatten.length⟩ index = .ok proof ∧
        proof.verify hasher (hasher.scheme.root batches.flatten) leaf index = .ok ()) ∧
    (∀ first count, 1 ≤ count → first + count ≤ batches.flatten.length →
      first + count ≤ 2 ^ 63 - 2 →
      ∃ proof, getRangeProof hasher ⟨AccumulatorStore.reader run.store,
          batches.flatten.length⟩ (some first) count = .ok proof ∧
        proof.verify hasher (hasher.scheme.root batches.flatten) (some first)
          ((batches.flatten.drop first).take count) = .ok ()) := by
  obtain ⟨represents, few⟩ := appendBatches_represents ran
  constructor
  · intro index leaf isLeaf
    have inside := (List.getElem?_eq_some_iff.mp isLeaf).1
    exact ⟨_, getProof_eq represents.hasFrozen few inside, verify_path few isLeaf⟩
  · intro first count positive inside notLast
    have count_eq : first + count - 1 + 1 - first = count := by omega
    have made := getRangeProof_eq represents.hasFrozen few
      (show first ≤ first + count - 1 by omega) (by omega) (by omega)
    have verified := @verify_range hasher
      batches.flatten first (first + count - 1) first few.le (by omega) (by omega)
      (fun _ => by omega) (by
        have belowRoot := le_two_pow_rootLevel batches.flatten.length
        rw [mod_eq_of_lt (by omega), mod_eq_of_lt (by omega)])
    rw [count_eq] at made verified
    exact ⟨_, made, verified.1⟩

namespace FullStore

def toyHasher : AccumulatorHasher := ⟨"ToyHasher", Batches.toyScheme⟩

def ledgerInfo : LedgerInfo := ⟨⟨0, 0, 0, toyHasher.scheme.root [7, 8], 1, 0, none⟩, 0⟩

theorem three_leaves_verify : ∃ run, appendBatches toyHasher.scheme [[7], [8, 9]] = .ok run ∧
    (∃ proof, getProof toyHasher ⟨AccumulatorStore.reader run.store, 3⟩ 1 = .ok proof ∧
      proof.verify toyHasher (toyHasher.scheme.root [7, 8, 9]) 8 1 = .ok ()) ∧
    ∃ proof, getRangeProof toyHasher
        ⟨AccumulatorStore.reader run.store, 3⟩ (some 1) 2 = .ok proof ∧
      proof.verify toyHasher (toyHasher.scheme.root [7, 8, 9]) (some 1) [8, 9] = .ok () := by
  obtain ⟨run, ran, _⟩ := @appendBatches_ok toyHasher.scheme [[7], [8, 9]] (by decide)
    (reservable_of_length (by decide) (by decide))
  obtain ⟨single, range⟩ := store_proofs_verify toyHasher [[7], [8, 9]] run ran
  exact ⟨run, ran, single 1 8 rfl, range 1 2 (by decide) (by decide) (by decide)⟩

/-- Many batches of equal length and one that is shorter by a leaf. -/
def manyBatches (last : Nat) : List (List HashValue) :=
  List.replicate 127 (List.replicate (last + 1) 7) ++ [List.replicate last 7]

theorem length_manyBatches (last : Nat) :
    (manyBatches last).flatten.length = 127 * (last + 1) + last := by
  rw [manyBatches, flatten_append, length_append, length_flatten, map_replicate, length_replicate,
    sum_replicate, flatten_singleton, length_replicate]
  rfl

theorem length_of_mem_manyBatches {last : Nat} {batch : List HashValue}
    (member : batch ∈ manyBatches last) : batch.length ≤ last + 1 := by
  rw [manyBatches, mem_append] at member
  rcases member with isLong | isLast
  · rw [eq_of_mem_replicate isLong, length_replicate]
  · rw [mem_singleton.mp isLast, length_replicate]
    omega

theorem manyBatches_ok {last : Nat} (atMost : last < 2 ^ 56) :
    ∃ run, appendBatches toyHasher.scheme (manyBatches last) = .ok run := by
  have few : (manyBatches last).flatten.length < 2 ^ 63 := by
    rw [length_manyBatches]
    omega
  have short : ∀ batch ∈ manyBatches last, batch.length ≤ 2 ^ 56 := by
    intro batch member
    have bounded := length_of_mem_manyBatches member
    omega
  obtain ⟨run, ran, _⟩ := @appendBatches_ok toyHasher.scheme
    (manyBatches last) few (reservable_of_length few short)
  exact ⟨run, ran⟩

/-- The sibling of the last leaf is at the one position where `is_left_child` panics. -/
theorem getSiblingPositions_last {reader : HashReader} :
    getSiblingPositions ⟨reader, 2 ^ 63 - 1⟩ (2 ^ 63 - 2) isLeftChild = .error .panic := by
  have rootLevel63 : rootLevel (2 ^ 63 - 1) = 63 := rootLevel_eq (by omega) (fun _ => by omega)
  have inTree := @root_inTree (2 ^ 63 - 1) (by omega)
  rw [rootLevel63] at inTree
  have path := @ancestorSiblings_eq (2 ^ 63 - 2) 0 63 (by omega) (by omega)
  have beyond : (atNode 0 (2 ^ 63 - 1)).isLeftChild = .error .panic := by
    rw [isLeftChild, invariant, ensure, if_neg, error_bind]
    rw [inorder_atNode, Word64.max]
    omega
  have sibling : ((2 ^ 63 - 2) / 2 ^ 0) ^^^ 1 = 2 ^ 63 - 1 := by decide
  have root := @rootFromLeafCount_eq (2 ^ 63 - 1) (by omega) (by omega)
  rw [pow_zero, Nat.div_one] at path
  simp only [getSiblingPositions, root, ok_bind, rootLevel63, level_atNode inTree]
  rw [fromLeafIndex_eq (by omega), path, ok_bind, pathSiblings, List.range'_succ, map_cons,
    filterEach, sibling, beyond, error_bind]

/-- A range that ends with the last leaf that the store can hold. -/
theorem range_proof_of_last_leaf_panics : ∃ run, appendBatches toyHasher.scheme
      (manyBatches (2 ^ 56 - 1)) = .ok run ∧
    (manyBatches (2 ^ 56 - 1)).flatten.length = 2 ^ 63 - 1 ∧
    getRangeProof toyHasher ⟨AccumulatorStore.reader run.store,
      (manyBatches (2 ^ 56 - 1)).flatten.length⟩ (some (2 ^ 63 - 2)) 1 = .error .panic := by
  obtain ⟨run, ran⟩ := @manyBatches_ok (2 ^ 56 - 1) (by omega)
  have total : (manyBatches (2 ^ 56 - 1)).flatten.length = 2 ^ 63 - 1 := by
    rw [length_manyBatches]
    rfl
  refine ⟨run, ran, total, ?_⟩
  have inside : 2 ^ 63 - 2 < 2 ^ 63 - 1 := by omega
  have isLast : checkedAdd (2 ^ 63 - 2) (1 - 1) = some (2 ^ 63 - 2) := rfl
  rw [total, getRangeProof, getRangeProofPositions, ensure_of Nat.one_pos, ok_bind, isLast, expect,
    ok_bind, ensure_of inside, ok_bind, getSiblingPositions_last, error_bind, error_bind]

end FullStore

end MerkleAccumulatorView

end LumioNode
