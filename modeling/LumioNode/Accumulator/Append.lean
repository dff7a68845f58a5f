import LumioNode.Accumulator.MerkleAccumulator

/-! # Appending to the accumulator in storage

With the frozen nodes of a list in the reader, `append` returns the root of the longer
list and the nodes that its new leaves complete. -/

namespace LumioNode

open Library PaddedScheme Position List

namespace MerkleAccumulatorView

/-- The reader has the full subtrees of the leaves. -/
def HasFrozen (hasher : PaddedScheme HashValue) (reader : HashReader)
    (leaves : List HashValue) : Prop :=
  ∀ level index, (index + 1) * 2 ^ level ≤ leaves.length → reader (atNode level index) =
      .ok (hasher.nodeAt leaves level index)

def placed (hasher : PaddedScheme HashValue) (leaves : List HashValue)
    (nodes : List (Nat × Nat)) : List AccumulatorNode :=
  nodes.map fun node =>
    (atNode node.1 node.2, hasher.nodeAt leaves node.1 node.2)

variable {hasher : PaddedScheme HashValue} {reader : HashReader}
  {leaves : List HashValue} {level index : Nat}

variable {leafIndex count : Nat}

theorem rootLevel_le (fits : count ≤ 2 ^ 63) : rootLevel count ≤ 63 :=
  Nat.size_le.mpr (by omega)

theorem root_inTree (fits : count ≤ 2 ^ 63) : Position.InTree (rootLevel count) 0 := by
  have low := rootLevel_le fits
  unfold Position.InTree
  rw [Nat.zero_add, Nat.mul_one]
  exact Nat.pow_le_pow_right (by omega) (by omega)

theorem rightmostLeafIndex_eq (notEmpty : 0 < leaves.length) :
    rightmostLeafIndex ⟨reader, leaves.length⟩ = .ok (leaves.length - 1) := by
  simp only [rightmostLeafIndex, ensure, notEmpty, if_true, ok_bind, pure_eq_ok]

section GetHash

variable (hasFrozen : HasFrozen hasher reader leaves)
  (notEmpty : 0 < leaves.length) (fits : leaves.length ≤ 2 ^ 63)

include notEmpty fits

variable {levels : Nat}

theorem getHashBelow_placeholder (inTree : Position.InTree level index)
    (beyond : leaves.length ≤ index * 2 ^ level) :
    getHashBelow hasher ⟨reader, leaves.length⟩ levels (atNode level index) =
      .ok (hasher.nodeAt leaves level index) := by
  have isPlaceholder : (atNode level index).isPlaceholder (leaves.length - 1) = true := by
    rw [isPlaceholder_atNode inTree (by omega), decide_eq_true_iff]
    omega
  rw [nodeAt_eq_pad beyond]
  cases levels <;> simp only [getHashBelow, rightmostLeafIndex_eq notEmpty, ok_bind,
      isPlaceholder, if_true] <;> rfl

theorem isPlaceholder_eq_false (inTree : Position.InTree level index)
    (inside : index * 2 ^ level < leaves.length) :
    (atNode level index).isPlaceholder (leaves.length - 1) =
      false := by
  rw [isPlaceholder_atNode inTree (by omega), decide_eq_false_iff_not]
  omega

include hasFrozen

theorem getHashBelow_full (inTree : Position.InTree level index)
    (full : (index + 1) * 2 ^ level ≤ leaves.length) :
    getHashBelow hasher ⟨reader, leaves.length⟩ levels (atNode level index) =
      .ok (hasher.nodeAt leaves level index) := by
  have positive : 0 < 2 ^ level := Nat.two_pow_pos level
  have inside : index * 2 ^ level < leaves.length := by
    rw [Nat.add_mul] at full
    omega
  have isPlaceholder := isPlaceholder_eq_false notEmpty fits inTree inside
  have isFreezable : (atNode level index).isFreezable (leaves.length - 1) = true := by
    rw [isFreezable_atNode inTree (by omega), decide_eq_true_iff]
    omega
  cases levels <;> simp only [getHashBelow, rightmostLeafIndex_eq notEmpty, ok_bind,
      isPlaceholder, isFreezable, if_true, Bool.false_eq_true, if_false,
      hasFrozen level index full]

theorem getHashBelow_eq (inTree : Position.InTree level index) (deep : level ≤ levels) :
    getHashBelow hasher ⟨reader, leaves.length⟩ levels (atNode level index) =
      .ok (hasher.nodeAt leaves level index) := by
  induction levels generalizing level index with
  | zero =>
    have isLeaf : level = 0 := by omega
    subst isLeaf
    by_cases inside : index < leaves.length
    · apply getHashBelow_full hasFrozen notEmpty fits inTree
      rw [pow_zero]
      omega
    · apply getHashBelow_placeholder notEmpty fits inTree
      rw [pow_zero]
      omega
  | succ levels inductionHypothesis =>
    by_cases beyond : leaves.length ≤ index * 2 ^ level
    · exact getHashBelow_placeholder notEmpty fits inTree beyond
    · by_cases full : (index + 1) * 2 ^ level ≤ leaves.length
      · exact getHashBelow_full hasFrozen notEmpty fits inTree full
      · cases level with
        | zero =>
          omega
        | succ level =>
          have isPlaceholder := isPlaceholder_eq_false notEmpty fits
            inTree (Nat.lt_of_not_le beyond)
          have isFreezable : (atNode (level + 1)
              index).isFreezable (leaves.length - 1) = false := by
            rw [isFreezable_atNode inTree (by omega), decide_eq_false_iff_not]
            omega
          have leftInTree : Position.InTree level (2 * index) := inTree.leftChild
          have rightInTree : Position.InTree level (2 * index + 1) := inTree.rightChild
          simp only [getHashBelow, rightmostLeafIndex_eq notEmpty, ok_bind, isPlaceholder,
            isFreezable, Bool.false_eq_true, if_false, leftChild_atNode inTree,
            rightChild_atNode inTree, inductionHypothesis leftInTree (by omega),
            inductionHypothesis rightInTree (by omega), pure_eq_ok]
          rw [nodeAt_succ (Nat.lt_of_not_le beyond)]

theorem getHash_eq (inTree : Position.InTree level index) :
    getHash hasher ⟨reader, leaves.length⟩ (atNode level index) =
      .ok (hasher.nodeAt leaves level index) := by
  rw [getHash, level_atNode inTree]
  exact getHashBelow_eq hasFrozen notEmpty fits inTree (le_refl _)

theorem getRootHash_eq : getRootHash hasher ⟨reader, leaves.length⟩ = .ok (hasher.root leaves) := by
  rw [getRootHash, rootFromLeafCount_eq notEmpty fits, ok_bind,
    getHash_eq hasFrozen notEmpty fits (root_inTree fits), root_eq_nodeAt]

end GetHash

theorem maxToFreeze_eq {numNewLeaves rootLevel : Nat} (low : rootLevel ≤ 63)
    (counted : numNewLeaves ≤ 2 ^ 62) :
    maxToFreeze numNewLeaves rootLevel = .ok (numNewLeaves * 2 + rootLevel) := by
  have half : numNewLeaves < Word64.max / 2 := by
    rw [Word64.max]
    omega
  have twice : numNewLeaves * 2 ≤ Word64.max - rootLevel := by
    rw [Word64.max]
    omega
  rw [maxToFreeze, maxAccumulatorProofDepth, ensure_of low, ok_bind, ensure_of half, ok_bind,
    ensure_of twice, ok_bind]
  rfl

theorem last_onPath {shift half : Nat}
    (isCount : (leaves ++ more).length = (2 * half + 1) * 2 ^ shift) :
    2 * half = ((leaves ++ more).length - 1) / 2 ^ shift := by
  have power : 0 < 2 ^ shift := Nat.two_pow_pos shift
  symm
  apply Nat.div_eq_of_lt_le
  · rw [isCount, Nat.add_mul (2 * half)]
    omega
  · rw [isCount]
    have positive : 0 < (2 * half + 1) * 2 ^ shift := Nat.mul_pos (by omega) power
    omega

section Append

variable {more : List HashValue} (hasFrozen : HasFrozen hasher reader leaves)

include hasFrozen

/-- The left siblings made in this call reach beyond the stored leaves; the others are read. -/
theorem hashWithLeftSibling_eq (odd : index % 2 = 1)
    (inside : index / 2 * 2 ^ (level + 1) < (leaves ++ more).length) :
    hashWithLeftSibling hasher ⟨reader, leaves.length⟩ (placed hasher (leaves ++ more)
          (fullAbove leaves.length level index))
        (atNode level (index - 1))
        (hasher.nodeAt (leaves ++ more) level index) =
      .ok (hasher.nodeAt (leaves ++ more) (level + 1) (index / 2), placed hasher (leaves ++ more)
          (fullAbove leaves.length (level + 1) (index / 2))) := by
  by_cases created : leaves.length < index * 2 ^ level
  · rw [fullAbove_odd created odd]
    simp [placed, hashWithLeftSibling, ensure, node_of_odd odd inside]
  · have stored : (index - 1 + 1) * 2 ^ level ≤ leaves.length := by
      have same : index - 1 + 1 = index := by omega
      rw [same]
      omega
    have lower := le_trans (starts_half index level) (Nat.le_of_not_lt created)
    have none : fullAbove leaves.length level index = [] := fullAbove_of_le (by omega)
    rw [none, fullAbove_of_le lower]
    simp only [placed, map_nil, hashWithLeftSibling, hasFrozen level (index - 1) stored, ok_bind,
      pure_eq_ok, Prod.mk.injEq, and_true]
    rw [← nodeAt_append stored, node_of_odd odd inside]

theorem append_nil (few : leaves.length < 2 ^ 63) : append hasher ⟨reader, leaves.length⟩ [] =
    .ok (hasher.root leaves, []) := by
  by_cases isEmpty : leaves.length = 0
  · have isNil : leaves = [] := eq_nil_of_length_eq_zero isEmpty
    subst isNil
    simp [append, root, pure, Except.pure]
  · have position := rootFromLeafCount_eq (Nat.pos_of_ne_zero isEmpty) (Nat.le_of_lt few)
    have root := getRootHash_eq hasFrozen (Nat.pos_of_ne_zero isEmpty) (Nat.le_of_lt few)
    rw [getRootHash, position, ok_bind] at root
    simp [append, isEmpty, position, root]

variable {levels : Nat} (few : (leaves ++ more).length < 2 ^ 63)

include few

theorem freezeParents_eq (full : (index + 1) * 2 ^ level ≤ (leaves ++ more).length)
    (isNew : leaves.length < (index + 1) * 2 ^ level) (enough : 64 ≤ level + levels) :
    ∃ last rest, freezeParents hasher ⟨reader, leaves.length⟩ levels (atNode level index,
            hasher.nodeAt (leaves ++ more) level index)
          (placed hasher (leaves ++ more) (fullAbove leaves.length level index)) =
        .ok (last, placed hasher (leaves ++ more) (completed level index).tail, rest) ∧
      last :: rest = placed hasher (leaves ++ more)
        (fullAbove leaves.length level (index + 1)) := by
  induction levels generalizing level index with
  | zero =>
    have low := (walkable_of_full few full).1
    omega
  | succ levels inductionHypothesis =>
    have walkable := walkable_of_full few full
    rcases Nat.mod_two_eq_zero_or_one index with even | odd
    · refine ⟨(atNode level index, hasher.nodeAt (leaves ++ more) level index),
        placed hasher (leaves ++ more) (fullAbove leaves.length level index), ?_, ?_⟩
      · simp [freezeParents, isRightChild_atNode walkable, ok_bind,
          even, completed_even even, placed, pure, Except.pure]
      · rw [fullAbove_succ even isNew]
        rfl
    · have sibling : index ^^^ 1 = index - 1 := Nat.xor_one_of_odd (Nat.odd_iff.mpr odd)
      rw [← ends_of_odd odd] at full isNew
      have inside : index / 2 * 2 ^ (level + 1) < (leaves ++ more).length := by
        have positive : 0 < 2 ^ (level + 1) := Nat.two_pow_pos _
        rw [Nat.add_mul] at full
        omega
      obtain ⟨last, rest, frozen, isTop⟩ := inductionHypothesis full isNew (by omega)
      refine ⟨last, rest, ?_, ?_⟩
      · simp only [freezeParents, isRightChild_atNode walkable, ok_bind, odd, decide_true, if_true,
          sibling_atNode walkable, sibling, hashWithLeftSibling_eq hasFrozen odd inside,
          parent_atNode walkable, frozen, completed_odd odd, tail_cons, pure_eq_ok, Prod.mk.injEq,
          true_and, and_true]
        rw [completed_eq_cons (level + 1) (index / 2)]
        rfl
      · have even : (index + 1) % 2 = 0 := by omega
        have halved : (index + 1) / 2 = index / 2 + 1 := by omega
        rw [isTop, fullAbove_even even, halved]

theorem freezeLeaves_eq {rest : List HashValue} (isNew : leaves.length ≤ leafIndex)
    (isRest : (leaves ++ more).drop leafIndex = rest) :
    freezeLeaves hasher ⟨reader, leaves.length⟩ leafIndex rest (placed hasher (leaves ++ more)
          (fullAbove leaves.length 0 leafIndex)) =
      .ok (placed hasher (leaves ++ more) (completedBy leafIndex rest.length),
        placed hasher (leaves ++ more) (fullAbove leaves.length 0 (leafIndex + rest.length))) := by
  induction rest generalizing leafIndex with
  | nil =>
    rw [freezeLeaves, length_nil, Nat.add_zero]
    rfl
  | cons leaf rest inductionHypothesis =>
    have inside : leafIndex < (leaves ++ more).length := by
      have dropped := congrArg List.length isRest
      rw [length_drop, length_cons] at dropped
      omega
    have isLeaf : hasher.nodeAt (leaves ++ more) 0 leafIndex = leaf := by
      apply nodeAt_zero
      have first := congrArg List.head? isRest
      rwa [List.head?_drop] at first
    have isTail : (leaves ++ more).drop (leafIndex + 1) = rest := by
      have tail := congrArg List.tail isRest
      rwa [tail_drop] at tail
    obtain ⟨last, left, frozen, isTop⟩ := @freezeParents_eq hasher reader
      leaves 0 leafIndex more hasFrozen 64 few (by omega) (by omega)
      (by omega)
    rw [isLeaf] at frozen
    have atLeaf : fromLeafIndex leafIndex = atNode 0 leafIndex := fromLeafIndex_eq (by omega)
    have after := inductionHypothesis (by omega) isTail
    have count : leafIndex + (leaf :: rest).length = leafIndex + 1 + rest.length := by
      rw [length_cons]
      omega
    rw [freezeLeaves]
    simp only [atLeaf, frozen, isTop, after, ok_bind, count, pure_eq_ok, Prod.mk.injEq, and_true]
    rw [length_cons, completedBy_succ, completed_eq_cons 0 leafIndex, ← isLeaf]
    simp [placed]

theorem walkToRoot_eq (notEmpty : 0 < (leaves ++ more).length)
    (isPath : index = ((leaves ++ more).length - 1) / 2 ^ level) (below : level + levels ≤ 63) :
    walkToRoot hasher ⟨reader, leaves.length⟩ levels (atNode level index,
          hasher.nodeAt (leaves ++ more) level index)
        (placed hasher (leaves ++ more) (fullAbove leaves.length level index)) =
      .ok (hasher.nodeAt (leaves ++ more) (level + levels) (index / 2 ^ levels),
        placed hasher (leaves ++ more) (fullAbove leaves.length (level + levels)
            (index / 2 ^ levels))) := by
  induction levels generalizing level index with
  | zero =>
    rw [walkToRoot, Nat.add_zero, pow_zero, Nat.div_one]
  | succ levels inductionHypothesis =>
    have positive : 0 < 2 ^ level := Nat.two_pow_pos level
    have lower : index * 2 ^ level ≤ (leaves ++ more).length - 1 := by
      rw [isPath]
      exact Nat.div_mul_le_self _ _
    have upper : (leaves ++ more).length ≤ (index + 1) * 2 ^ level := by
      have less := @Nat.lt_div_mul_add ((leaves ++ more).length - 1) (2 ^ level) positive
      rw [← isPath] at less
      rw [Nat.add_mul]
      omega
    have walkable : Position.Walkable level index := ⟨by omega, by omega⟩
    have parentPath : index / 2 = ((leaves ++ more).length - 1) / 2 ^ (level + 1) := by
      rw [isPath, Nat.div_div_eq_div_mul, ← pow_succ]
    have inside : index / 2 * 2 ^ (level + 1) < (leaves ++ more).length := by
      rw [parentPath]
      exact lt_of_le_of_lt (Nat.div_mul_le_self _ _) (by omega)
    have above := inductionHypothesis parentPath (by omega)
    have atRoot : index / 2 / 2 ^ levels = index / 2 ^ (levels + 1) := by
      rw [Nat.div_div_eq_div_mul, ← pow_succ']
    have sum : level + 1 + levels = level + (levels + 1) := by omega
    rw [atRoot, sum] at above
    rw [← above]
    rcases Nat.mod_two_eq_zero_or_one index with even | odd
    · have parent : hasher.node (hasher.nodeAt (leaves ++ more) level index) hasher.pad =
          hasher.nodeAt (leaves ++ more) (level + 1) (index / 2) := by
        rw [← node_of_even even inside, nodeAt_eq_pad upper]
      simp only [walkToRoot, isLeftChild_atNode walkable, ok_bind, even, decide_true, if_true,
        parent, fullAbove_even even, parent_atNode walkable, pure_bind]
    · have sibling : index ^^^ 1 = index - 1 := Nat.xor_one_of_odd (Nat.odd_iff.mpr odd)
      simp [walkToRoot, isLeftChild_atNode walkable, ok_bind, odd, sibling_atNode walkable, sibling,
        hashWithLeftSibling_eq hasFrozen odd inside, parent_atNode walkable]

theorem walkToRoot_last {shift half : Nat}
    (isCount : (leaves ++ more).length = (2 * half + 1) * 2 ^ shift) :
    walkToRoot hasher ⟨reader, leaves.length⟩ (rootLevel (leaves ++ more).length - shift)
        (atNode shift (2 * half), hasher.nodeAt (leaves ++ more) shift (2 * half))
        (placed hasher (leaves ++ more) (fullAbove leaves.length shift (2 * half))) =
      .ok (hasher.root (leaves ++ more), []) := by
  have positive : 0 < (leaves ++ more).length := by
    rw [isCount]
    exact Nat.mul_pos (by omega) (Nat.two_pow_pos shift)
  have covers := le_two_pow_rootLevel (leaves ++ more).length
  have low := rootLevel_le few.le
  have reaches : shift ≤ rootLevel (leaves ++ more).length := by
    have least : 2 ^ shift ≤ (leaves ++ more).length := by
      rw [isCount]
      exact Nat.le_mul_of_pos_left _ (by omega)
    exact (Nat.pow_le_pow_iff_right (by omega)).mp (le_trans least covers)
  have top : shift + (rootLevel (leaves ++ more).length - shift) =
      rootLevel (leaves ++ more).length := by omega
  have isRoot : 2 * half / 2 ^ (rootLevel (leaves ++ more).length - shift) = 0 := by
    rw [last_onPath isCount, Nat.div_div_eq_div_mul, ← pow_add, top]
    exact Nat.div_eq_of_lt (by omega)
  rw [walkToRoot_eq hasFrozen few positive (last_onPath isCount) (by omega),
    top, isRoot, fullAbove_of_le (by omega), ← root_eq_nodeAt]
  rfl

theorem append_eq (notEmpty : more ≠ [])
    (roomy : (more.length * 2 + rootLevel (leaves ++ more).length) * 40 ≤ 2 ^ 63 - 1) :
    append hasher ⟨reader, leaves.length⟩ more =
      .ok (hasher.root (leaves ++ more), placed hasher (leaves ++ more)
        (completedBy leaves.length more.length)) := by
  have isTotal : (leaves ++ more).length = leaves.length + more.length := length_append
  have somePositive : 0 < more.length := length_pos_of_ne_nil notEmpty
  have positive : 0 < (leaves ++ more).length := by omega
  have counted : more.length ≤ 2 ^ 62 := by omega
  have total : checkedAdd leaves.length more.length = some (leaves ++ more).length := by
    rw [checkedAdd, u64Max, if_pos (by omega), isTotal]
  obtain ⟨shift, half, isCount⟩ := Word64.exists_shifted_odd positive
  have walkable : Position.Walkable shift (2 * half) :=
    walkable_of_full few (Nat.le_of_eq isCount.symm)
  have stack : fullAbove leaves.length 0 (leaves.length + more.length) =
      (shift, 2 * half) :: fullAbove leaves.length shift (2 * half) := by
    have above : leaves.length < (2 * half + 1) * 2 ^ shift := by omega
    rw [← isTotal, isCount, fullAbove_shift, Nat.zero_add, fullAbove_succ (by omega) above]
  have frozen := @freezeLeaves_eq hasher reader leaves leaves.length more hasFrozen
    few more (le_refl _) drop_left
  have nothing : fullAbove leaves.length 0 leaves.length = [] := fullAbove_of_le (by omega)
  rw [stack, nothing] at frozen
  have isEmpty : more.isEmpty = false := isEmpty_eq_false_iff.mpr notEmpty
  simp only [append, isEmpty, Bool.false_eq_true, if_false, total, expect,
    ok_bind, rootLevelFromLeafCount_eq positive (by omega),
    maxToFreeze_eq (rootLevel_le few.le) counted, withCapacity, ensure_of roomy]
  have made : freezeLeaves hasher ⟨reader, leaves.length⟩ leaves.length more [] = _ := frozen
  rw [made, ok_bind]
  simp only [placed, map_cons, level_atNode walkable.inTree]
  have walked := walkToRoot_last hasFrozen few isCount
  rw [placed] at walked
  rw [walked, ok_bind, ensure_of rfl, ok_bind]
  rfl

end Append

variable {view : MerkleAccumulatorView} {more : List HashValue}

theorem fromLeafIndex_of_freezeLeaves {left : List AccumulatorNode}
    {result : List AccumulatorNode × List AccumulatorNode}
    (frozen : freezeLeaves hasher view leafIndex more left = .ok result) (notEmpty : more ≠ []) :
    (fromLeafIndex (leafIndex + more.length - 1)).inorder < Word64.max - 1 := by
  induction more generalizing leafIndex left result with
  | nil => exact absurd rfl notEmpty
  | cons leaf rest inductionHypothesis =>
    obtain ⟨parents, isParents, restFrozen⟩ := of_bind frozen
    obtain ⟨after, isAfter, _⟩ := of_bind restFrozen
    by_cases isLast : rest = []
    · subst isLast
      obtain ⟨isRight, child, _⟩ := of_bind isParents
      obtain ⟨isLeft, leftChild, _⟩ := of_bind child
      obtain ⟨_, legal, _⟩ := of_bind leftChild
      rw [invariant, ensure_eq_ok] at legal
      exact legal
    · have later := inductionHypothesis isAfter isLast
      have sum : leafIndex + (leaf :: rest).length - 1 = leafIndex + 1 + rest.length - 1 := by
        rw [length_cons]
        omega
      rwa [sum]

theorem bounds_of_append {result : HashValue × List AccumulatorNode} (few : view.numLeaves < 2 ^ 63)
    (appended : append hasher view more = .ok result) :
    view.numLeaves + more.length < 2 ^ 63 ∧
      (more.length * 2 + rootLevel (view.numLeaves + more.length)) * 40 ≤ 2 ^ 63 - 1 := by
  by_cases isEmpty : more = []
  · have low := rootLevel_le few.le
    rw [isEmpty, length_nil, Nat.add_zero]
    omega
  · have isSome : more.isEmpty = false := isEmpty_eq_false_iff.mpr isEmpty
    have positive := length_pos_of_ne_nil isEmpty
    simp only [append, isSome, Bool.false_eq_true, if_false] at appended
    obtain ⟨total, isTotal, leveled⟩ := of_bind appended
    rw [expect_eq_ok, checkedAdd_eq_some, u64Max] at isTotal
    obtain ⟨atMost, rfl⟩ := isTotal
    rw [rootLevelFromLeafCount_eq (by omega) (by omega), ok_bind] at leveled
    obtain ⟨capacity, isCapacity, reserved⟩ := of_bind leveled
    obtain ⟨roomy, passed⟩ := of_ensure_bind reserved
    obtain ⟨frozen, isFrozen, _⟩ := of_bind passed
    obtain ⟨low, bounded⟩ := of_ensure_bind isCapacity
    obtain ⟨_, bounded⟩ := of_ensure_bind bounded
    obtain ⟨_, isSum⟩ := of_ensure_bind bounded
    rw [maxAccumulatorProofDepth] at low
    rw [pure_eq_ok] at isSum
    rw [← isSum] at roomy
    have legal := fromLeafIndex_of_freezeLeaves isFrozen isEmpty
    have less := Nat.size_le.mp low
    rw [inorder_fromLeafIndex (by omega), Word64.max] at legal
    exact ⟨by omega, roomy⟩

/-- A batch for whose nodes no vector can be reserved. -/
theorem append_oversized (fits : view.numLeaves + more.length ≤ 2 ^ 63)
    (oversized : 2 ^ 63 - 1 < more.length * 2 * 40) (counted : more.length ≤ 2 ^ 62) :
    append hasher view more = .error .panic := by
  have isEmpty : more.isEmpty = false := by
    rw [isEmpty_eq_false_iff]
    apply ne_nil_of_length_pos
    omega
  have total : checkedAdd view.numLeaves more.length = some (view.numLeaves + more.length) := by
    rw [checkedAdd, u64Max, if_pos (by omega)]
  have level := @rootLevelFromLeafCount_eq (view.numLeaves + more.length) (by omega) (by omega)
  have refused : ¬ (more.length * 2 +
      rootLevel (view.numLeaves + more.length)) * 40 ≤ 2 ^ 63 - 1 := by
    omega
  simp only [append, isEmpty, Bool.false_eq_true, if_false, total, expect,
    ok_bind, level, maxToFreeze_eq (rootLevel_le fits) counted, withCapacity]
  rw [ensure, if_neg refused, error_bind]

end MerkleAccumulatorView

end LumioNode
