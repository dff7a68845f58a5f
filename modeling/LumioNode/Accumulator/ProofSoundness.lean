import LumioNode.Accumulator.ProofCompleteness

/-! # Soundness of range proofs

A range proof that verifies against the root of a list rebuilds its tree from the root
downwards, and binds the first index up to the height only.  The verifier panics exactly
at the last of `2 ^ 63` positions and above the level of such a tree. -/

namespace LumioNode

open Library PaddedScheme Word64 List Nat

namespace Position

variable {level index : Nat}

theorem step_of_ok {isRight : Bool} {next : Position} (starts : index * 2 ^ level < 2 ^ 63)
    (isChild : (atNode level index).isRightChild = .ok isRight)
    (isParent : (atNode level index).parent = .ok next) :
    isRight = decide (index % 2 = 1) ∧ next = atNode (level + 1) (index / 2) := by
  have legal : (atNode level index).inorder < Word64.max - 1 := by
    obtain ⟨_, isLegal, _⟩ := of_bind isParent
    rwa [invariant, ensure_eq_ok] at isLegal
  rw [inorder_atNode, Word64.max] at legal
  rcases Nat.lt_trichotomy level 63 with low | isTop | high
  · have walkable : Walkable level index := by
      refine ⟨low, ?_⟩
      have double : 2 ^ (level + 1) * index = 2 * (index * 2 ^ level) := by ring
      omega
    rw [isRightChild_atNode walkable] at isChild
    rw [parent_atNode walkable] at isParent
    cases isChild
    cases isParent
    exact ⟨rfl, rfl⟩
  · subst isTop
    have isZero : index = 0 := by omega
    subst isZero
    cases isChild
    cases isParent
    exact ⟨rfl, rfl⟩
  · have least : 2 ^ 64 ≤ 2 ^ level := Nat.pow_le_pow_right (by omega) (by omega)
    omega

theorem step_eq (low : level ≤ 63) (starts : index * 2 ^ level < 2 ^ 63 - 1) :
    (atNode level index).isRightChild = .ok (decide (index % 2 = 1)) ∧
      (atNode level index).parent = .ok (atNode (level + 1) (index / 2)) := by
  rcases low.lt_or_eq with below | rfl
  · exact ⟨isRightChild_atNode ⟨below, starts⟩, parent_atNode ⟨below, starts⟩⟩
  · have isZero : index = 0 := by omega
    subst isZero
    exact ⟨rfl, rfl⟩

theorem toNat_isOdd (index : Nat) : (decide (index % 2 = 1)).toNat = index % 2 := by
  rcases mod_two_eq_zero_or_one index with even | odd
  · simp [even]
  · simp [odd]

end Position

namespace AccumulatorRangeProof

variable {hashes leftSiblings rightSiblings leftRest rightRest leafHashes : List HashValue}
  {pairs : List (HashValue × HashValue)} {isRight : Bool} {first rounds level index : Nat}
  {hasher : AccumulatorHasher} {leaves : List HashValue} {proof : AccumulatorRangeProof}

section Inversion

variable {nodes : Nat → HashValue}

theorem chunks_of_children {children : List HashValue}
    {last : List (HashValue × HashValue)} {count : Nat}
    (isLast : lastPair (chunks children).2 rightSiblings = .ok (last, rightRest))
    (areChildren : (chunks children).1 ++ last = (List.range' first count).map (childrenOf nodes)) :
    children = (List.range' (2 * first) children.length).map nodes := by
  induction children using chunks.induct generalizing first count with
  | case1 => rfl
  | case2 =>
    cases rightSiblings with
    | nil => cases isLast
    | cons right rest =>
      cases isLast
      cases count with
      | zero => cases areChildren
      | succ count =>
        have isChild := congrArg Prod.fst (List.cons.inj areChildren).1
        simp only [childrenOf] at isChild
        rw [isChild]
        rfl
  | case3 left right rest inductionHypothesis =>
    cases count with
    | zero => cases areChildren
    | succ count =>
      obtain ⟨isPair, areOthers⟩ := List.cons.inj areChildren
      obtain ⟨isLeft, isRight⟩ := Prod.mk.inj isPair
      have others := inductionHypothesis isLast areOthers
      have start : 2 * first + 1 + 1 = 2 * (first + 1) := by omega
      rw [length_cons, length_cons, List.range'_succ, List.range'_succ, map_cons, map_cons, start,
        ← others, isLeft, isRight]

/-- If the pairs are the children of consecutive nodes, so are the hashes below. -/
theorem level_of_pairs {count : Nat}
    (paired : levelPairs isRight hashes leftSiblings rightSiblings =
      .ok (pairs, leftRest, rightRest))
    (areChildren : pairs = (List.range' first count).map (childrenOf nodes)) :
    hashes = (List.range' (2 * first + isRight.toNat) hashes.length).map nodes ∧ leftSiblings =
        if isRight then nodes (2 * first) :: leftRest else leftRest := by
  obtain ⟨⟨head, others, left⟩, isFirst, rest⟩ := of_bind paired
  obtain ⟨⟨last, right⟩, isLast, isPairs⟩ := of_bind rest
  cases isPairs
  cases isRight with
  | false =>
    cases isFirst
    exact ⟨chunks_of_children isLast areChildren, rfl⟩
  | true =>
    cases leftSiblings with
    | nil => cases isFirst
    | cons sibling siblings =>
      cases hashes with
      | nil => cases isFirst
      | cons child children =>
        cases isFirst
        cases count with
        | zero => cases areChildren
        | succ count =>
          rw [List.range'_succ, map_cons, singleton_append, cons_append] at areChildren
          obtain ⟨isPair, areOthers⟩ := List.cons.inj areChildren
          obtain ⟨isLeft, isChild⟩ := Prod.mk.inj isPair
          have below := chunks_of_children isLast areOthers
          have start : 2 * first + 1 + 1 = 2 * (first + 1) := by omega
          constructor
          · rw [Bool.toNat_true, length_cons, List.range'_succ, map_cons, start, ← below, isChild]
          · rw [isLeft]
            rfl

end Inversion

section Lengths

theorem length_chunks (children : List HashValue) :
    (chunks children).1.length = children.length / 2 ∧
      (chunks children).2.toList.length = children.length % 2 := by
  induction children using chunks.induct with
  | case1 | case2 => simp [chunks]
  | case3 =>
    simp only [chunks, length_cons]
    omega

theorem lastPair_cases (remainder : Option HashValue) (rightSiblings : List HashValue) :
    ((∃ message, lastPair remainder rightSiblings = .error (.error message)) ∧
      rightSiblings.length < remainder.toList.length) ∨
      ∃ last rightRest, lastPair remainder rightSiblings = .ok (last, rightRest) ∧
        last.length = remainder.toList.length ∧
        rightSiblings.length = rightRest.length + remainder.toList.length := by
  cases remainder with
  | none => exact .inr ⟨_, _, rfl, rfl, rfl⟩
  | some =>
    cases rightSiblings with
    | nil => exact .inl ⟨⟨_, rfl⟩, Nat.one_pos⟩
    | cons right rest => exact .inr ⟨_, _, rfl, rfl, rfl⟩

theorem firstPair_cases (notEmpty : hashes ≠ []) (leftSiblings : List HashValue) :
    ((∃ message, firstPair isRight hashes leftSiblings = .error (.error message)) ∧
      leftSiblings.length < isRight.toNat) ∨
      ∃ first others leftRest, firstPair isRight hashes leftSiblings =
          .ok (first, others, leftRest) ∧
        first.length = isRight.toNat ∧ hashes.length = others.length + isRight.toNat ∧
        leftSiblings.length = leftRest.length + isRight.toNat := by
  cases isRight with
  | false => exact .inr ⟨_, _, _, rfl, rfl, rfl, rfl⟩
  | true =>
    cases leftSiblings with
    | nil => exact .inl ⟨⟨_, rfl⟩, Nat.one_pos⟩
    | cons left rest =>
      cases hashes with
      | nil => exact absurd rfl notEmpty
      | cons child children => exact .inr ⟨_, _, _, rfl, rfl, rfl, rfl⟩

/-- A round fails if a sibling is missing. Otherwise it uses a left sibling if the first hash is
a right child, and a right sibling unless the last hash is one. -/
theorem levelPairs_cases (notEmpty : hashes ≠ []) (leftSiblings rightSiblings : List HashValue) :
    ((∃ message, levelPairs isRight hashes leftSiblings rightSiblings = .error (.error message)) ∧
      (leftSiblings.length < isRight.toNat ∨
        rightSiblings.length < (hashes.length + isRight.toNat) % 2)) ∨
      ∃ pairs leftRest rightRest, levelPairs isRight hashes leftSiblings rightSiblings =
          .ok (pairs, leftRest, rightRest) ∧
        pairs.length = (hashes.length + isRight.toNat + 1) / 2 ∧
        leftSiblings.length = leftRest.length + isRight.toNat ∧
        rightSiblings.length = rightRest.length + (hashes.length + isRight.toNat) % 2 := by
  rcases firstPair_cases notEmpty leftSiblings with
    ⟨⟨message, fails⟩, missing⟩ | ⟨first, others, leftRest, isFirst, numFirst, numOthers, numLeft⟩
  · exact .inl ⟨⟨message, by rw [levelPairs, fails, error_bind]⟩, .inl missing⟩
  · obtain ⟨numChunks, numRemainder⟩ := length_chunks others
    rcases lastPair_cases (chunks others).2 rightSiblings with
      ⟨⟨message, fails⟩, missing⟩ | ⟨last, rightRest, isLast, numLast, numRight⟩
    · refine .inl ⟨⟨message, ?_⟩, .inr (by omega)⟩
      rw [levelPairs, isFirst, ok_bind]
      simp only [fails, error_bind]
    · refine .inr ⟨first ++ (chunks others).1 ++ last, leftRest, rightRest, ?_, ?_, numLeft, ?_⟩
      · rw [levelPairs, isFirst, ok_bind]
        simp only [isLast, ok_bind, pure_eq_ok]
      · rw [length_append, length_append]
        omega
      · omega

theorem pairs_ne_nil (notEmpty : hashes ≠ [])
    (paired : levelPairs isRight hashes leftSiblings rightSiblings =
      .ok (pairs, leftRest, rightRest)) : pairs ≠ [] := by
  have positive := length_pos_of_ne_nil notEmpty
  rcases levelPairs_cases notEmpty leftSiblings rightSiblings with
    ⟨⟨message, fails⟩, _⟩ | ⟨_, _, _, isOk, numPairs, _⟩
  · rw [paired] at fails
    cases fails
  · cases paired.symm.trans isOk
    exact ne_nil_of_length_pos (by omega)

end Lengths

section Soundness

theorem reduce_cases {position : Position} {result : List HashValue}
    (reduced : reduce hasher rounds position hashes leftSiblings rightSiblings = .ok result) :
    (hashes.length ≤ 1 ∧ leftSiblings = [] ∧ rightSiblings = [] ∧ result = hashes) ∨
      ∃ next isRight pairs leftRest rightRest parent, rounds = next + 1 ∧
        position.isRightChild = .ok isRight ∧
        levelPairs isRight hashes leftSiblings rightSiblings = .ok (pairs, leftRest, rightRest) ∧
        position.parent = .ok parent ∧
        reduce hasher next parent (pairs.map fun pair => hasher.scheme.node pair.1 pair.2)
          leftRest rightRest = .ok result ∧
        hashedPairs hasher rounds position hashes leftSiblings
          rightSiblings = pairs ++ hashedPairs hasher next parent
            (pairs.map fun pair => hasher.scheme.node pair.1 pair.2)
            leftRest rightRest := by
  by_cases done : hashes.length ≤ 1 ∧ leftSiblings = [] ∧ rightSiblings = []
  · obtain ⟨single, rfl, rfl⟩ := done
    rw [reduce_done single] at reduced
    cases reduced
    exact .inl ⟨single, rfl, rfl, rfl⟩
  · cases rounds with
    | zero =>
      simp [reduce, done] at reduced
    | succ next =>
      simp only [reduce, done, if_false] at reduced
      obtain ⟨isRight, isChild, rest⟩ := of_bind reduced
      obtain ⟨⟨pairs, leftRest, rightRest⟩, paired, rest⟩ := of_bind rest
      obtain ⟨parent, isParent, rest⟩ := of_bind rest
      refine .inr ⟨next, isRight, pairs, leftRest, rightRest, parent, rfl,
        isChild, paired, isParent, rest, ?_⟩
      rw [hashedPairs, round_eq_ok isChild paired isParent]

theorem tree_of_done {rest : List HashValue}
    (single : hashes.length ≤ 1) (isRoot : hasher.scheme.root leaves :: rest = hashes) :
    ∃ depth, depth ≤ rootLevel leaves.length ∧
      hashes = (List.range' (index % 2 ^ depth) hashes.length).map
        (hasher.scheme.nodeAt leaves (rootLevel leaves.length - depth)) ∧
      [] = hasher.scheme.nodesAt leaves (fullAbove 0 (rootLevel leaves.length - depth)
          (index % 2 ^ depth)) := by
  have noRest : rest = [] := by
    rw [← isRoot, length_cons] at single
    exact eq_nil_of_length_eq_zero (by omega)
  subst noRest isRoot
  refine ⟨0, Nat.zero_le _, ?_, ?_⟩
  · rw [pow_zero, mod_one, Nat.sub_zero, root_eq_nodeAt]
    rfl
  · rw [pow_zero, mod_one, fullAbove_of_le (by omega)]
    rfl

variable {isLeaf : HashValue → Prop} {isUsed : HashValue × HashValue → Prop}
  (collisionFree : hasher.scheme.CollisionFree isLeaf isUsed)
  (leavesAreLeaves : ∀ leaf ∈ leaves, isLeaf leaf)
  (treeIsUsed : ∀ pair, hasher.scheme.IsInput leaves pair → isUsed pair)

include collisionFree leavesAreLeaves treeIsUsed

theorem pairs_of_level (areUsed : ∀ pair ∈ pairs, isUsed pair)
    (low : level ≤ rootLevel leaves.length) (notEmpty : pairs ≠ [])
    (areNodes : (pairs.map fun pair => hasher.scheme.node pair.1 pair.2) =
      (List.range' first pairs.length).map (hasher.scheme.nodeAt leaves level)) :
    ∃ below, level = below + 1 ∧ pairs = (List.range' first pairs.length).map
        (childrenOf (hasher.scheme.nodeAt leaves below)) := by
  induction pairs generalizing first with
  | nil => exact absurd rfl notEmpty
  | cons pair rest inductionHypothesis =>
    obtain ⟨isNode, areOthers⟩ := List.cons.inj areNodes
    obtain ⟨below, isBelow, _, isPair⟩ := children_of_eq_nodeAt
      collisionFree leavesAreLeaves treeIsUsed
      (areUsed pair mem_cons_self) low isNode
    refine ⟨below, isBelow, ?_⟩
    rw [length_cons, List.range'_succ, map_cons]
    by_cases isLast : rest = []
    · subst isLast
      rw [isPair]
      rfl
    · have restUsed : ∀ other ∈ rest, isUsed other := (forall_mem_cons.mp areUsed).2
      obtain ⟨sameBelow, isSame, others⟩ := inductionHypothesis restUsed isLast areOthers
      have same : sameBelow = below := by omega
      subst same
      rw [← others, isPair]
      rfl

/-- A run that ends with the root has rebuilt the tree: some levels below the root, the hashes
are consecutive nodes and the left siblings the full subtrees before them. -/
theorem tree_of_reduce {rest : List HashValue}
    (starts : index * 2 ^ level < 2 ^ 63) (notEmpty : hashes ≠ [])
    (areUsed : ∀ pair ∈ hashedPairs hasher rounds
      (Position.atNode level index) hashes leftSiblings rightSiblings, isUsed pair)
    (reduced : reduce hasher rounds (Position.atNode level index) hashes
      leftSiblings rightSiblings = .ok (hasher.scheme.root leaves :: rest)) :
    ∃ depth, depth ≤ rootLevel leaves.length ∧
      hashes = (List.range' (index % 2 ^ depth) hashes.length).map
        (hasher.scheme.nodeAt leaves (rootLevel leaves.length - depth)) ∧
      leftSiblings = hasher.scheme.nodesAt leaves (fullAbove 0 (rootLevel leaves.length - depth)
          (index % 2 ^ depth)) := by
  induction rounds generalizing level index hashes leftSiblings rightSiblings with
  | zero =>
    rcases reduce_cases reduced with
      ⟨single, noLeft, _, isRoot⟩ | ⟨next, _, _, _, _, _, isNext, _⟩
    · rw [noLeft]
      exact tree_of_done single isRoot
    · omega
  | succ rounds inductionHypothesis =>
    rcases reduce_cases reduced with
      ⟨single, noLeft, _, isRoot⟩ |
      ⟨next, isRight, pairs, leftRest, rightRest, parent, isNext, isChild,
        paired, isParent, later, hashed⟩
    · rw [noLeft]
      exact tree_of_done single isRoot
    · cases isNext
      rw [hashed] at areUsed
      obtain ⟨isRightBit, isAbove⟩ := Position.step_of_ok starts isChild isParent
      subst isAbove
      have startsAbove := lt_of_le_of_lt (starts_half index level) starts
      have somePairs : pairs ≠ [] := pairs_ne_nil notEmpty paired
      have someHashes : (pairs.map fun pair =>
          hasher.scheme.node pair.1 pair.2) ≠ [] := by
        simpa using somePairs
      obtain ⟨depth, deep, areNodes, isLeft⟩ := inductionHypothesis startsAbove someHashes
        (fun pair member => areUsed pair (mem_append_right _ member))
        later
      rw [length_map] at areNodes
      obtain ⟨below, isBelow, areChildren⟩ := pairs_of_level collisionFree
        leavesAreLeaves treeIsUsed
        (fun pair member => areUsed pair (mem_append_left _ member))
        (sub_le _ _) somePairs areNodes
      obtain ⟨isLevel, isSiblings⟩ := level_of_pairs paired areChildren
      have isDeep : rootLevel leaves.length - (depth + 1) = below := by omega
      have bits : index % 2 ^ (depth + 1) = 2 * (index / 2 % 2 ^ depth) + isRight.toNat := by
        rw [pow_succ', mod_mul, isRightBit, Position.toNat_isOdd, Nat.add_comm]
      refine ⟨depth + 1, by omega, ?_, ?_⟩
      · rw [isDeep, bits]
        exact isLevel
      · rw [isDeep, isSiblings, bits, isLeft, isBelow]
        cases isRight with
        | false =>
          have halved : (2 * (index / 2 % 2 ^ depth) + 0) / 2 = index / 2 % 2 ^ depth := by omega
          have even : (2 * (index / 2 % 2 ^ depth) + 0) % 2 = 0 := by omega
          rw [Bool.toNat_false, fullAbove_even even, halved]
          rfl
        | true =>
          have halved : (2 * (index / 2 % 2 ^ depth) + 1) / 2 = index / 2 % 2 ^ depth := by omega
          have odd : (2 * (index / 2 % 2 ^ depth) + 1) % 2 = 1 := by omega
          rw [Bool.toNat_true, nodesAt_odd odd, halved]
          rfl

omit collisionFree leavesAreLeaves treeIsUsed in
theorem reduce_of_verify {expected : HashValue}
    (verified : proof.verify hasher expected (some first) leafHashes = .ok ()) :
    leafHashes ≠ [] ∧ ∃ rest, reduce hasher
      (leafHashes.length + proof.leftSiblings.length + proof.rightSiblings.length)
      (Position.atNode 0 (first % 2 ^ 63)) leafHashes proof.leftSiblings proof.rightSiblings =
        .ok (expected :: rest) := by
  obtain ⟨_, _, rest⟩ := of_bind verified
  obtain ⟨_, _, rest⟩ := of_bind rest
  obtain ⟨notEmpty, rest⟩ := of_ensure_bind rest
  obtain ⟨result, reduced, isExpected⟩ := of_bind rest
  refine ⟨notEmpty, ?_⟩
  rw [Position.fromLeafIndex_eq_mod] at reduced
  cases result with
  | nil => cases isExpected
  | cons actual others =>
    have isRoot : actual = expected := ensure_eq_ok.mp isExpected
    exact ⟨others, by rw [reduced, isRoot]⟩

/-- The bits of an index that count for the tree of a list. -/
abbrev indexInTree (leaves : List HashValue) (first : Nat) : Nat :=
  first % 2 ^ 63 % 2 ^ rootLevel leaves.length

omit collisionFree leavesAreLeaves treeIsUsed in
theorem indexInTree_eq (fits : leaves.length ≤ 2 ^ 63)
    (inside : first < leaves.length) : indexInTree leaves first = first := by
  have belowRoot := le_two_pow_rootLevel leaves.length
  rw [indexInTree, mod_eq_of_lt (by omega), mod_eq_of_lt (by omega)]

variable (hashesAreLeaves : ∀ leaf ∈ leafHashes, isLeaf leaf)
  (verified : proof.verify hasher (hasher.scheme.root leaves) (some first) leafHashes = .ok ())

include hashesAreLeaves verified

/-- A verified proof shows a slice of the leaves, and its left siblings are the full subtrees
before it. -/
theorem slice_of_verify
    (areUsed : ∀ pair ∈ proof.verifiedPairs hasher first leafHashes, isUsed pair) :
    leafHashes ≠ [] ∧ indexInTree leaves first + leafHashes.length ≤ leaves.length ∧
      leafHashes = (leaves.drop (indexInTree leaves first)).take leafHashes.length ∧
      proof.leftSiblings =
        hasher.scheme.nodesAt leaves (fullAbove 0 0 (indexInTree leaves first)) := by
  obtain ⟨notEmpty, others, reduced⟩ := reduce_of_verify verified
  have positive := length_pos_of_ne_nil notEmpty
  rw [verifiedPairs, Position.fromLeafIndex_eq_mod] at areUsed
  obtain ⟨depth, deep, areNodes, isLeft⟩ := tree_of_reduce collisionFree
    leavesAreLeaves treeIsUsed (by rw [pow_zero, Nat.mul_one]; exact mod_lt _ (by decide))
    notEmpty areUsed reduced
  have eachLeaf : ∀ offset (inside : offset < leafHashes.length),
      rootLevel leaves.length - depth = 0 ∧ leaves[first % 2 ^ 63 % 2 ^ depth + offset]? =
          some leafHashes[offset] := by
    intro offset inside
    apply leaf_of_eq_nodeAt collisionFree treeIsUsed
      (hashesAreLeaves _ (getElem_mem inside)) (sub_le _ _)
    have isNode := congrArg (fun list => list[offset]?) areNodes
    simp only [List.getElem?_map, List.getElem?_eq_getElem inside] at isNode
    rw [List.getElem?_range' inside] at isNode
    simpa using isNode
  have atLeaves := (eachLeaf 0 positive).1
  have isDepth : depth = rootLevel leaves.length := by omega
  rw [isDepth, Nat.sub_self] at isLeft
  rw [isDepth] at eachLeaf
  refine ⟨notEmpty, ?_, ?_, isLeft⟩
  · have last := (eachLeaf (leafHashes.length - 1) (by omega)).2
    obtain ⟨isInside, _⟩ := List.getElem?_eq_some_iff.mp last
    rw [indexInTree]
    omega
  · apply ext_getElem?
    intro offset
    rw [List.getElem?_take]
    by_cases inside : offset < leafHashes.length
    · rw [if_pos inside, List.getElem?_drop, (eachLeaf offset inside).2,
        List.getElem?_eq_getElem inside]
    · rw [if_neg inside, List.getElem?_eq_none (Nat.le_of_not_lt inside)]

omit leavesAreLeaves in
theorem single_of_last_index (isLast : first % 2 ^ 63 = 2 ^ 63 - 1) : leaves.length = 1 := by
  obtain ⟨notEmpty, others, reduced⟩ := reduce_of_verify verified
  rw [isLast] at reduced
  rcases reduce_cases reduced with
    ⟨_, _, _, isRoot⟩ | ⟨_, _, _, _, _, _, _, isChild, _⟩
  · have isLeafHash : isLeaf (hasher.scheme.root leaves) :=
      hashesAreLeaves _ (isRoot ▸ mem_cons_self)
    obtain ⟨noLevels, found⟩ := leaf_of_eq_nodeAt collisionFree treeIsUsed isLeafHash
      (le_refl _) root_eq_nodeAt
    have atMost := le_two_pow_rootLevel leaves.length
    have inside := (List.getElem?_eq_some_iff.mp found).1
    rw [noLevels, pow_zero] at atMost
    omega
  · cases isChild

end Soundness

/-- What is hashed when a range proof is verified against the root of a list. -/
def CollisionFreeFor (hasher : AccumulatorHasher) (leaves : List HashValue)
    (proof : AccumulatorRangeProof) (first : Nat) (leafHashes : List HashValue) : Prop :=
  hasher.scheme.CollisionFree (fun leaf => leaf ∈ leaves ∨ leaf ∈ leafHashes)
    (fun pair => hasher.scheme.IsInput leaves pair ∨
      pair ∈ proof.verifiedPairs hasher first leafHashes)

theorem collisionFreeFor_slice {hasher : AccumulatorHasher} {leaves : List HashValue}
    {proof : AccumulatorRangeProof} {first start count : Nat}
    (collisionFree : hasher.scheme.CollisionFree (· ∈ leaves) (hasher.scheme.IsInput leaves))
    (areInputs : ∀ pair ∈ proof.verifiedPairs hasher first ((leaves.drop start).take count),
      hasher.scheme.IsInput leaves pair) :
    CollisionFreeFor hasher leaves proof first ((leaves.drop start).take count) := by
  apply collisionFree.mono
  · rintro leaf (isALeaf | inSlice)
    · exact isALeaf
    · exact mem_of_mem_drop (mem_of_mem_take inSlice)
  · rintro pair (isInput | isHashed)
    · exact isInput
    · exact areInputs pair isHashed

/-- Range proofs bind the leaves to a first index exactly if it is an index of the list, or has
the bits of an index beyond it, or is the last of all and the list has other than one leaf. -/
theorem range_binds_indices (hasher : AccumulatorHasher) (leaves : List HashValue) (first : Nat)
    (isAccumulator : leaves.length ≤ maxAccumulatorLeaves)
    (collisionFree : hasher.scheme.CollisionFree (· ∈ leaves) (hasher.scheme.IsInput leaves)) :
    (∀ (proof : AccumulatorRangeProof) (leafHashes : List HashValue),
      CollisionFreeFor hasher leaves proof first leafHashes →
      proof.verify hasher (hasher.scheme.root leaves) (some first) leafHashes = .ok () →
      first + leafHashes.length ≤ leaves.length ∧
        leafHashes = (leaves.drop first).take leafHashes.length) ↔
    (first < leaves.length ∨ leaves.length ≤ indexInTree leaves first ∨
      first % 2 ^ 63 = 2 ^ 63 - 1 ∧ leaves.length ≠ 1) := by
  have fits : leaves.length ≤ 2 ^ 63 := by
    rwa [maxAccumulatorLeaves, maxAccumulatorProofDepth, one_shiftLeft] at isAccumulator
  constructor
  · intro binds
    by_contra outside
    push Not at outside
    obtain ⟨beyond, inside, notLast⟩ := outside
    have starts : 0 < rootLevel leaves.length → first % 2 ^ 63 < 2 ^ 63 - 1 := by
      intro hasLevels
      have isMod := mod_lt first (show 0 < 2 ^ 63 by decide)
      by_contra isLast
      rw [notLast (by omega)] at hasLevels
      cases hasLevels
    obtain ⟨verified, areInputs⟩ :=
      @verify_range hasher leaves _ _ first fits (le_refl _) inside starts rfl
    have free := collisionFreeFor_slice collisionFree areInputs
    have atMost := (binds _ _ free verified).1
    rw [length_take, length_drop] at atMost
    omega
  · intro condition proof leafHashes free verified
    obtain ⟨notEmpty, inside, isSlice, _⟩ := slice_of_verify free
      (fun _ member => .inl member) (fun _ isInput => .inl isInput)
      (fun _ member => .inr member) verified (fun _ member => .inr member)
    have positive := length_pos_of_ne_nil notEmpty
    rcases condition with isIndex | beyond | ⟨isLast, notSingle⟩
    · rw [indexInTree_eq fits isIndex] at inside isSlice
      exact ⟨inside, isSlice⟩
    · omega
    · exact absurd (single_of_last_index free (fun _ isInput => .inl isInput)
        (fun _ member => .inr member) verified isLast) notSingle

namespace Indices

open MerkleAccumulatorView.FullStore (toyHasher)

theorem isInput_two_leaves {pair : HashValue × HashValue}
    (isInput : toyHasher.scheme.IsInput [7, 8] pair) : pair = (7, 8) := by
  obtain ⟨level, index, low, inside, isPair⟩ := isInput
  have isLow : rootLevel [(7 : HashValue), 8].length = 1 := rfl
  have isZero : level = 0 := by omega
  subst isZero
  have isFirst : index = 0 := by
    simp only [length_cons, length_nil] at inside
    omega
  subst isFirst
  exact isPair

theorem collisionFree_of_one_pair {isLeaf : HashValue → Prop}
    {isUsed : HashValue × HashValue → Prop} (leaves : ∀ {leaf}, isLeaf leaf → leaf = 7 ∨ leaf = 8)
    (pairs : ∀ {pair}, isUsed pair → pair = (7, 8)) :
    toyHasher.scheme.CollisionFree isLeaf isUsed := by
  refine ⟨?_, ?_, ?_, ?_⟩
  · intro first second isFirst isSecond _
    rw [pairs isFirst, pairs isSecond]
  · intro leaf pair isALeaf isPair
    rw [pairs isPair]
    rcases leaves isALeaf with rfl | rfl
    · decide
    · decide
  · intro pair isPair
    rw [pairs isPair]
    decide
  · intro leaf isALeaf
    rcases leaves isALeaf with rfl | rfl
    · decide
    · decide

theorem second_leaf_bound : [(7 : HashValue), 8].length ≤ maxAccumulatorLeaves ∧
    ∀ (proof : AccumulatorRangeProof) (leafHashes : List HashValue),
      CollisionFreeFor toyHasher [7, 8] proof 1 leafHashes →
      proof.verify toyHasher (toyHasher.scheme.root [7, 8]) (some 1) leafHashes = .ok () →
      1 + leafHashes.length ≤ [(7 : HashValue), 8].length ∧
        leafHashes = ([7, 8].drop 1).take leafHashes.length := by
  refine ⟨by decide, (range_binds_indices toyHasher [7, 8] 1 (by decide) ?_).mpr (.inl (by decide))⟩
  apply collisionFree_of_one_pair
  · intro leaf isALeaf
    simpa using isALeaf
  · exact isInput_two_leaves

/-- A list of one leaf has a proof for every index. -/
theorem index_above_tree_accepted : CollisionFreeFor toyHasher [7] ⟨[], []⟩ 5 [7] ∧
    AccumulatorRangeProof.verify toyHasher ⟨[], []⟩
      (toyHasher.scheme.root [7]) (some 5) [7] = .ok () ∧
    ¬ 5 + [(7 : HashValue)].length ≤ [(7 : HashValue)].length := by
  refine ⟨?_, by decide, by decide⟩
  apply collisionFree_of_one_pair
  · intro leaf isALeaf
    simp only [mem_singleton, or_self] at isALeaf
    exact .inl isALeaf
  · rintro pair (isInput | isHashed)
    · exact absurd isInput (not_isInput_of_single rfl)
    · have none : AccumulatorRangeProof.verifiedPairs toyHasher ⟨[], []⟩ 5 [7] = [] := by decide
      cases isHashed

end Indices

/-- No sibling is missing up to the position above the largest tree, and something is left
there. -/
structure ClimbsPast (levels index last left right : Nat) : Prop where
  leftSuffice : countOnes index ≤ left
  rightSuffice : levels ≤ right + countOnes (last % 2 ^ levels)
  unfinished : countOnes index < left ∨ levels < right + countOnes (last % 2 ^ levels) ∨
    2 ^ levels ≤ last

theorem climbsPast_succ {levels last leftRest rightRest : Nat} :
    ClimbsPast (levels + 1) index last (leftRest + index % 2) (rightRest + (last + 1) % 2) ↔
      ClimbsPast levels (index / 2) (last / 2) leftRest rightRest := by
  have numLeft := countOnes_eq index
  have numRight := countOnes_mod_two_pow_succ last levels
  have beyond : 2 ^ (levels + 1) ≤ last ↔ 2 ^ levels ≤ last / 2 := by
    rw [Nat.le_div_iff_mul_le (by decide), pow_succ]
  constructor
  · rintro ⟨leftSuffice, rightSuffice, unfinished⟩
    rw [beyond] at unfinished
    exact ⟨by omega, by omega, by omega⟩
  · rintro ⟨leftSuffice, rightSuffice, unfinished⟩
    rw [← beyond] at unfinished
    exact ⟨by omega, by omega, by omega⟩

theorem not_climbsPast_of_done (levels index : Nat) : ¬ ClimbsPast levels index index 0 0 := by
  rintro ⟨leftSuffice, rightSuffice, unfinished⟩
  have isZero : index = 0 := by
    by_contra notZero
    have positive := countOnes_pos (Nat.pos_of_ne_zero notZero)
    omega
  have none : countOnes (0 % 2 ^ levels) = 0 := by
    rw [zero_mod]
    rfl
  have positive := Nat.two_pow_pos levels
  rw [isZero, none] at rightSuffice unfinished
  omega

theorem not_climbsPast_of_missing {levels last left right : Nat}
    (missing : left < index % 2 ∨ right < (last + 1) % 2) :
    ¬ ClimbsPast (levels + 1) index last left right := by
  rintro ⟨leftSuffice, rightSuffice, _⟩
  have numLeft := countOnes_eq index
  have atMost := countOnes_mod_two_pow_le (last / 2) levels
  rw [countOnes_mod_two_pow_succ] at rightSuffice
  omega

theorem ne_nil_of_reduce {position : Position} {result : List HashValue}
    (notEmpty : hashes ≠ [])
    (reduced : reduce hasher rounds position hashes leftSiblings rightSiblings = .ok result) :
    result ≠ [] := by
  induction rounds generalizing position hashes leftSiblings rightSiblings with
  | zero =>
    rcases reduce_cases reduced with ⟨_, _, _, isSame⟩ | ⟨_, _, _, _, _, _, isNext, _⟩
    · rwa [isSame]
    · omega
  | succ rounds inductionHypothesis =>
    rcases reduce_cases reduced with
      ⟨_, _, _, isSame⟩ | ⟨_, _, pairs, _, _, _, isNext, _, paired, _, later, _⟩
    · rwa [isSame]
    · cases isNext
      exact inductionHypothesis (by simpa using pairs_ne_nil notEmpty paired) later

theorem done_panics_iff {levels : Nat} (notEmpty : hashes ≠ [])
    (single : hashes.length ≤ 1) :
    reduce hasher rounds (Position.atNode level index) hashes [] [] = .error .panic ↔
      ClimbsPast levels index (index + hashes.length - 1) 0 0 := by
  have positive := length_pos_of_ne_nil notEmpty
  have isLast : index + hashes.length - 1 = index := by omega
  rw [isLast, reduce_done single]
  exact iff_of_false (fun panics => by cases panics) (not_climbsPast_of_done levels index)

theorem reduce_panics_iff {levels : Nat} (notEmpty : hashes ≠ [])
    (isLevel : level + levels = 64) (starts : index * 2 ^ level < 2 ^ 63 - 1)
    (enough : hashes.length + leftSiblings.length + rightSiblings.length ≤ rounds) :
    reduce hasher rounds (Position.atNode level index) hashes leftSiblings rightSiblings =
        .error .panic ↔
      ClimbsPast levels index (index + hashes.length - 1) leftSiblings.length
        rightSiblings.length := by
  induction levels generalizing rounds level index hashes leftSiblings rightSiblings with
  | zero =>
    by_cases done : hashes.length ≤ 1 ∧ leftSiblings = [] ∧ rightSiblings = []
    · obtain ⟨single, rfl, rfl⟩ := done
      exact done_panics_iff notEmpty single
    · have positive := length_pos_of_ne_nil notEmpty
      have isTop : level = 64 := isLevel
      subst isTop
      have isFirst : index = 0 := by omega
      subst isFirst
      obtain ⟨rounds, rfl⟩ := Nat.exists_eq_add_one.mpr (show 0 < rounds by omega)
      have stops : (Position.atNode 64 0).isRightChild = .error .panic := rfl
      simp only [reduce, done, if_false, stops, error_bind, true_iff]
      have none : countOnes 0 = 0 := rfl
      refine ⟨?_, Nat.zero_le _, ?_⟩
      · rw [none]
        exact Nat.zero_le _
      · rw [← length_eq_zero_iff, ← length_eq_zero_iff] at done
        rw [none, pow_zero, mod_one, none]
        omega
  | succ levels inductionHypothesis =>
    by_cases done : hashes.length ≤ 1 ∧ leftSiblings = [] ∧ rightSiblings = []
    · obtain ⟨single, rfl, rfl⟩ := done
      exact done_panics_iff notEmpty single
    · have positive := length_pos_of_ne_nil notEmpty
      obtain ⟨rounds, rfl⟩ := Nat.exists_eq_add_one.mpr (show 0 < rounds by omega)
      obtain ⟨isChild, isParent⟩ := Position.step_eq (by omega) starts
      simp only [reduce, done, if_false, isChild, isParent, ok_bind]
      have parity : (index + hashes.length - 1 + 1) % 2 = (hashes.length + index % 2) % 2 := by
        omega
      rcases @levelPairs_cases hashes (decide (index % 2 = 1)) notEmpty leftSiblings
          rightSiblings with
        ⟨⟨message, fails⟩, missing⟩ |
        ⟨pairs, leftRest, rightRest, paired, numPairs, numLeft, numRight⟩
      · rw [Position.toNat_isOdd, ← parity] at missing
        rw [fails, error_bind]
        exact iff_of_false (fun panics => by cases panics) (not_climbsPast_of_missing missing)
      · rw [Position.toNat_isOdd] at numPairs numLeft numRight
        have isLast : (index + hashes.length - 1) / 2 = index / 2 + pairs.length - 1 := by omega
        have someHashes : (pairs.map fun pair => hasher.scheme.node pair.1 pair.2) ≠ [] := by
          simpa using pairs_ne_nil notEmpty paired
        have above := @inductionHypothesis _ leftRest rightRest rounds (level + 1) (index / 2)
          someHashes (by omega) (lt_of_le_of_lt (starts_half index level) starts)
          (by rw [length_map]; omega)
        rw [length_map, ← isLast] at above
        simp only [paired, ok_bind]
        rw [above, numLeft, numRight, ← parity, climbsPast_succ]

/-- The loop reaches a position that `is_left_child` refuses: the last one in the first round,
or the one above the largest tree. -/
def PanicsAt (proof : AccumulatorRangeProof) (first : Nat) (leafHashes : List HashValue) : Prop :=
  leafHashes ≠ [] ∧ proof.leftSiblings.length ≤ maxAccumulatorProofDepth ∧
    proof.rightSiblings.length ≤ maxAccumulatorProofDepth ∧
    if first % 2 ^ 63 = 2 ^ 63 - 1 then
      ¬ (leafHashes.length ≤ 1 ∧ proof.leftSiblings = [] ∧ proof.rightSiblings = [])
    else ClimbsPast 64 (first % 2 ^ 63) (first % 2 ^ 63 + leafHashes.length - 1)
      proof.leftSiblings.length proof.rightSiblings.length

theorem last_index_panics_iff :
    reduce hasher rounds (Position.atNode 0 (2 ^ 63 - 1)) hashes leftSiblings rightSiblings =
        .error .panic ↔
      ¬ (hashes.length ≤ 1 ∧ leftSiblings = [] ∧ rightSiblings = []) := by
  by_cases done : hashes.length ≤ 1 ∧ leftSiblings = [] ∧ rightSiblings = []
  · obtain ⟨single, rfl, rfl⟩ := done
    simp [reduce_done single, single]
  · have stops : (Position.atNode 0 (2 ^ 63 - 1)).isRightChild = .error .panic := rfl
    cases rounds with
    | zero => simp [reduce, done]
    | succ rounds => simp only [reduce, done, if_false, stops, error_bind, not_false_eq_true]

theorem ensure_bind_panics_iff {condition : Prop} [Decidable condition] {message : String}
    {rest : Unit → Except Fault Unit} :
    (ensure condition (Fault.error message) >>= rest) = .error .panic ↔
      condition ∧ rest () = .error .panic := by
  by_cases holds : condition
  · rw [ensure_of holds, ok_bind]
    exact (and_iff_right holds).symm
  · rw [ensure, if_neg holds, error_bind]
    exact iff_of_false (fun panics => by cases panics) (fun both => holds both.1)

theorem verify_panics_iff {expected : HashValue} :
    proof.verify hasher expected (some first) leafHashes = .error .panic ↔
      proof.PanicsAt first leafHashes := by
  rw [verify, ensure_bind_panics_iff, ensure_bind_panics_iff, ensure_bind_panics_iff,
    Position.fromLeafIndex_eq_mod, PanicsAt]
  constructor
  · rintro ⟨leftShort, rightShort, notEmpty, panics⟩
    refine ⟨notEmpty, leftShort, rightShort, ?_⟩
    obtain reduced | ⟨result, reduced, mismatch⟩ := bind_eq_error.mp panics
    · split
      case isTrue isLast =>
        rw [isLast] at reduced
        exact last_index_panics_iff.mp reduced
      case isFalse notLast =>
        exact (reduce_panics_iff notEmpty rfl (by omega) le_rfl).mp reduced
    · cases result with
      | nil => exact absurd rfl (ne_nil_of_reduce notEmpty reduced)
      | cons actual rest =>
        simp only [ensure] at mismatch
        split at mismatch <;> cases mismatch
  · rintro ⟨notEmpty, leftShort, rightShort, climbs⟩
    refine ⟨leftShort, rightShort, notEmpty, bind_eq_error.mpr (.inl ?_)⟩
    split at climbs
    case isTrue isLast =>
      rw [isLast]
      exact last_index_panics_iff.mpr climbs
    case isFalse notLast =>
      exact (reduce_panics_iff notEmpty rfl (by omega) le_rfl).mpr climbs

/-- Range proofs are accepted or rejected, unless the loop climbs too far. -/
theorem range_proof_ne_panic (hasher : AccumulatorHasher) (proof : AccumulatorRangeProof)
    (expected : HashValue) (firstLeafIndex : Option Nat) (leafHashes : List HashValue) :
    proof.verify hasher expected firstLeafIndex leafHashes ≠ .error .panic ↔
      ∀ first, firstLeafIndex = some first → ¬ proof.PanicsAt first leafHashes := by
  cases firstLeafIndex with
  | none =>
    refine iff_of_true ?_ (fun _ isSome => by cases isSome)
    rw [verify, Ne, ensure_bind_panics_iff, ensure]
    rintro ⟨_, panics⟩
    split at panics <;> cases panics
  | some index =>
    rw [Ne, verify_panics_iff]
    constructor
    · rintro accepted first isFirst
      cases isFirst
      exact accepted
    · intro accepted
      exact accepted index rfl

namespace AnyPeer

open MerkleAccumulatorView.FullStore (toyHasher)

/-- A leaf at index 3 with all siblings that are allowed, and a leaf at the last index. -/
theorem range_proofs_panic :
    AccumulatorRangeProof.verify toyHasher ⟨[0, 0], List.replicate 63 0⟩ 0 (some 3) [7] =
      .error .panic ∧
    AccumulatorRangeProof.verify toyHasher ⟨[0], []⟩ 0 (some (2 ^ 63 - 1)) [7] =
      .error .panic := by
  constructor <;> decide +kernel

end AnyPeer

end AccumulatorRangeProof

end LumioNode
