import LumioNode.Accumulator.Append

/-! # The order of the frozen nodes

Completed nodes have consecutive post-order numbers, and the maximal full subtrees are
those of the set bits of the number of leaves. -/

namespace LumioNode

open Library PaddedScheme Word64 FrozenSubTreeIterator

namespace Position

def postorderNumber (level index : Nat) : Nat :=
  2 ^ (level + 1) - 2 + (2 ^ (level + 1) * index - countOnes index)

variable {level index : Nat}

theorem countOnes_le_mul (level index : Nat) : countOnes index ≤ 2 ^ (level + 1) * index :=
  le_trans (countOnes_le index) (Nat.le_mul_of_pos_left _ (Nat.two_pow_pos _))

/-- A right child is followed by its parent. -/
theorem postorderNumber_parent (odd : index % 2 = 1) : postorderNumber (level + 1) (index / 2) =
      postorderNumber level index + 1 := by
  have positive : 0 < 2 ^ level := Nat.two_pow_pos level
  obtain ⟨half, rfl⟩ : ∃ half, index = 2 * half + 1 := ⟨index / 2, by omega⟩
  have halved : (2 * half + 1) / 2 = half := by omega
  have expand : 2 ^ (level + 1) * (2 * half + 1) =
      2 ^ (level + 1 + 1) * half + 2 ^ (level + 1) := by ring
  have atMost := countOnes_le_mul (level + 1) half
  rw [halved, postorderNumber, postorderNumber, countOnes_double_add_one, expand]
  omega

/-- A left child is followed by the next leaf. -/
theorem postorderNumber_nextLeaf (even : index % 2 = 0) :
    postorderNumber 0 ((index + 1) * 2 ^ level) = postorderNumber level index + 1 := by
  have positive : 0 < 2 ^ level := Nat.two_pow_pos level
  obtain ⟨half, rfl⟩ : ∃ half, index = 2 * half := ⟨index / 2, by omega⟩
  have expand : 2 ^ (0 + 1) * ((2 * half + 1) * 2 ^ level) =
      2 ^ (level + 1) * (2 * half) + 2 ^ (level + 1) := by ring
  have atMost := countOnes_le_mul level (2 * half)
  rw [postorderNumber, postorderNumber, Nat.mul_comm _ (2 ^ level), countOnes_two_pow_mul,
    countOnes_double_add_one, Nat.mul_comm (2 ^ level), expand]
  rw [countOnes_double] at atMost ⊢
  omega

theorem postorder_completed (level index : Nat) :
    (completed level index).map (fun node => postorderNumber node.1 node.2) =
        List.range' (postorderNumber level index) (completed level index).length ∧
      postorderNumber level index + (completed level index).length =
        postorderNumber 0 ((index + 1) * 2 ^ level) := by
  induction index using Nat.strong_induction_on generalizing level with
  | h index inductionHypothesis =>
    rcases Nat.mod_two_eq_zero_or_one index with even | odd
    · rw [completed_even even, postorderNumber_nextLeaf even]
      exact ⟨rfl, rfl⟩
    · obtain ⟨numbers, next⟩ := inductionHypothesis (index / 2) (by omega) (level + 1)
      rw [completed_odd odd, List.map_cons, numbers, List.length_cons, List.range'_succ,
        ← ends_of_odd odd, ← next, postorderNumber_parent odd]
      exact ⟨rfl, by omega⟩

theorem postorder_completedBy (first count : Nat) : (completedBy first count).map
        (fun node => postorderNumber node.1 node.2) =
      List.range' (postorderNumber 0 first) (completedBy first count).length := by
  induction count generalizing first with
  | zero => rfl
  | succ count inductionHypothesis =>
    obtain ⟨numbers, next⟩ := postorder_completed 0 first
    rw [pow_zero, Nat.mul_one] at next
    rw [completedBy_succ, List.map_append, numbers, inductionHypothesis (first + 1), ← next,
      List.length_append, List.range'_append_1]

theorem toPostorderIndex_completedBy {first count : Nat} (few : first + count < 2 ^ 63) :
    (completedBy first count).map (fun node => (atNode node.1 node.2).toPostorderIndex) =
      (List.range' (postorderNumber 0 first) (completedBy first count).length).map .ok := by
  rw [← postorder_completedBy, List.map_map]
  apply List.map_congr_left
  intro node member
  have walkable := walkable_of_full few (mem_completedBy.mp member).2
  exact toPostorderIndex_atNode walkable.1 walkable.inTree

/-! ## Positions as a numbering -/

theorem inTree_iff_ends : InTree level index ↔ (index + 1) * 2 ^ level ≤ 2 ^ 63 := by
  have double : 2 ^ (level + 1) * (index + 1) = 2 * ((index + 1) * 2 ^ level) := by ring
  rw [InTree, double]
  omega

theorem exists_atNode {position : Position} (fits : position.inorder < 2 ^ 64)
    (low : position.level < 63) :
    ∃ index, InTree position.level index ∧ position = atNode position.level index := by
  obtain ⟨shift, half, isShifted⟩ := exists_shifted_odd (Nat.succ_pos position.inorder)
  have notLast : position.inorder ≠ 2 ^ 64 - 1 := by
    intro isLast
    rw [Position.level, isLast] at low
    exact absurd low (by decide)
  have inside : shift < 64 := by
    apply (Nat.pow_lt_pow_iff_right (show 1 < 2 by omega)).mp
    have atMost := Nat.le_mul_of_pos_left (2 ^ shift) (show 0 < 2 * half + 1 by omega)
    omega
  rw [Nat.add_mul, Nat.mul_assoc] at isShifted
  have inTree : InTree shift half := inTree_of_starts (by omega) (by omega)
  have isNode : position = atNode shift half := by
    rw [← position_eq]
    exact congrArg Position.mk (by omega)
  rw [isNode, level_atNode inTree]
  exact ⟨half, inTree, rfl⟩

/-- A node is numbered its level after its last leaf. -/
theorem postorderNumber_last (level index : Nat) : postorderNumber level index =
    postorderNumber 0 ((index + 1) * 2 ^ level - 1) + level := by
  induction level generalizing index with
  | zero => simp
  | succ level inductionHypothesis =>
    have isParent := @postorderNumber_parent level (2 * index + 1) (by omega)
    have half : (2 * index + 1) / 2 = index := by omega
    have ends : (2 * index + 1 + 1) * 2 ^ level = (index + 1) * 2 ^ (level + 1) := by ring
    rw [half, inductionHypothesis, ends] at isParent
    omega

theorem postorderNumber_lt_next (level index : Nat) :
    postorderNumber level index < postorderNumber 0 ((index + 1) * 2 ^ level) := by
  have next := (postorder_completed level index).2
  rw [completed_eq_cons, List.length_cons] at next
  omega

theorem strictMono_postorderNumber : StrictMono (postorderNumber 0) := by
  apply strictMono_nat_of_lt_succ
  intro index
  simpa using postorderNumber_lt_next 0 index

theorem postorderNumber_lt {otherLevel otherIndex : Nat}
    (ends : (otherIndex + 1) * 2 ^ otherLevel ≤ (index + 1) * 2 ^ level)
    (lower : (otherIndex + 1) * 2 ^ otherLevel = (index + 1) * 2 ^ level → otherLevel < level) :
    postorderNumber otherLevel otherIndex < postorderNumber level index := by
  rw [postorderNumber_last level index]
  rcases eq_or_lt_of_le ends with same | before
  · rw [postorderNumber_last otherLevel, same]
    have := lower same
    omega
  · apply (postorderNumber_lt_next otherLevel otherIndex).trans_le
    have ordered := strictMono_postorderNumber.monotone (Nat.le_sub_one_of_lt before)
    omega

/-- The bits of a leaf index stand for full subtrees to the left of it. -/
theorem postorderNumber_add_two_pow {bit rest : Nat} (small : rest < 2 ^ bit) :
    postorderNumber 0 (2 ^ bit + rest) = 2 ^ (bit + 1) - 1 + postorderNumber 0 rest := by
  have ones : countOnes (2 ^ bit + rest) = countOnes rest + 1 := by
    induction bit generalizing rest with
    | zero =>
      have isZero : rest = 0 := by omega
      subst isZero
      decide
    | succ bit inductionHypothesis =>
      have half : (2 ^ (bit + 1) + rest) / 2 = 2 ^ bit + rest / 2 := by omega
      rw [countOnes_eq (2 ^ (bit + 1) + rest), countOnes_eq rest, half,
        inductionHypothesis (by omega)]
      omega
  have atMost := countOnes_le rest
  simp only [postorderNumber, ones]
  omega

/-- The loop on the number of a leaf plus a level below which all its bits are set. -/
theorem splitNumber_eq {leaf : Nat} (ones : ∀ bit, leaf.testBit bit = false → level ≤ bit)
    (bits bitmap : Nat) : splitNumber bits (2 ^ bits - 1)
      (postorderNumber 0 (leaf % 2 ^ bits) + level) bitmap =
      (level, bitmap ||| leaf % 2 ^ bits) := by
  induction bits generalizing bitmap with
  | zero => simp [splitNumber, postorderNumber, countOnes, Nat.mod_one]
  | succ bits inductionHypothesis =>
    have half : (2 ^ (bits + 1) - 1) >>> 1 = 2 ^ bits - 1 := by
      rw [Nat.shiftRight_one]
      omega
    have less : leaf % 2 ^ bits < 2 ^ bits := Nat.mod_lt _ (Nat.two_pow_pos bits)
    rw [splitNumber, half, Nat.mod_pow_succ, ← Nat.toNat_testBit, Nat.add_comm (leaf % 2 ^ bits)]
    cases isSet : leaf.testBit bits with
    | true =>
      have joined : 2 ^ bits + leaf % 2 ^ bits = 2 ^ bits ||| leaf % 2 ^ bits := by
        simpa using Nat.two_pow_add_eq_or_of_lt less 1
      rw [Bool.toNat_true, Nat.mul_one, postorderNumber_add_two_pow less, if_pos (by omega),
        Nat.add_assoc, Nat.add_sub_cancel_left, inductionHypothesis, joined,
        Nat.shiftLeft_eq, Nat.one_mul, Nat.or_assoc]
    | false =>
      have high := ones bits isSet
      have ordered := strictMono_postorderNumber.monotone
        (show leaf % 2 ^ bits ≤ (0 + 1) * 2 ^ bits - 1 by omega)
      have largest := postorderNumber_last bits 0
      have isLargest : postorderNumber bits 0 = 2 ^ (bits + 1) - 2 := by simp [postorderNumber]
      rw [Bool.toNat_false, Nat.mul_zero, Nat.zero_add, if_neg (by omega), inductionHypothesis]

theorem fromLevelAndPos_atNode (low : level < 63) (inTree : InTree level index) :
    fromLevelAndPos level index = .ok (atNode level index) := by
  have positive : 0 < 2 ^ level := Nat.two_pow_pos level
  have one : shiftLeft 1 level = 2 ^ level := by
    rw [shiftLeft, Nat.shiftLeft_eq, Nat.one_mul]
    exact Nat.mod_eq_of_lt (Nat.pow_lt_pow_right (by omega) (by omega))
  have shifted : shiftLeft index (level + 1) = 2 ^ (level + 1) * index := by
    rw [shiftLeft, Nat.shiftLeft_eq, Nat.mul_comm]
    apply Nat.mod_eq_of_lt
    apply lt_of_lt_of_le _ inTree
    exact Nat.mul_lt_mul_of_pos_left (by omega) (by omega)
  rw [fromLevelAndPos, ensure_of (by omega), ok_bind, one, ensure_of positive, ok_bind,
    if_neg (by omega), shifted, pure_eq_ok, ← Nat.two_pow_add_eq_or_of_lt (by omega)]
  rfl

theorem fromPostorderIndex_postorderNumber (low : level < 63) (inTree : InTree level index) :
    fromPostorderIndex (postorderNumber level index) = .ok (atNode level index) := by
  have positive : 0 < 2 ^ level := Nat.two_pow_pos level
  have ends := inTree_iff_ends.mp inTree
  have leaf : (index + 1) * 2 ^ level - 1 = 2 ^ level * index + (2 ^ level - 1) := by
    rw [Nat.add_mul, Nat.one_mul, Nat.mul_comm]
    omega
  have valid : postorderNumber level index < Word64.max := by
    rw [InTree, Nat.mul_add] at inTree
    rw [postorderNumber, Word64.max]
    omega
  have split : splitNumber 64 Word64.max (postorderNumber level index) 0 =
      (level, 2 ^ level * index + (2 ^ level - 1)) := by
    have ones (bit : Nat) (unset : (2 ^ level * index + (2 ^ level - 1)).testBit bit = false) :
        level ≤ bit := by
      by_contra below
      rw [Nat.testBit_two_pow_mul_add _ (by omega), if_pos (by omega)] at unset
      simp [Nat.testBit_two_pow_sub_one] at unset
      omega
    have looped := splitNumber_eq ones 64 0
    rwa [Nat.mod_eq_of_lt (by omega), Nat.zero_or, ← leaf, ← postorderNumber_last, leaf] at looped
  have shifted : (2 ^ level * index + (2 ^ level - 1)) >>> level = index := by
    rw [Nat.shiftRight_eq_div_pow, Nat.mul_add_div positive, Nat.div_eq_of_lt (by omega)]
    rfl
  rw [fromPostorderIndex, ensure_of valid, ok_bind, postorderToInorder, split]
  simp only [Nat.mod_eq_of_lt (show level < 2 ^ 32 by omega), shifted,
    fromLevelAndPos_atNode low inTree]
  rfl

theorem positions_number_the_tree :
    (∀ position : Position, position.inorder < 2 ^ 64 → position.level < 63 → ∃ index number,
      position = atNode position.level index ∧
      position.toPostorderIndex = .ok number ∧ fromPostorderIndex number = .ok position ∧
      (∀ level < 63, ∀ other,
        level < position.level ∧ other / 2 ^ (position.level - level) = index ∨
          (other + 1) * 2 ^ level ≤ index * 2 ^ position.level →
        ∃ less < number, (atNode level other).toPostorderIndex = .ok less) ∧
      (position.inorder ≠ 2 ^ 64 - 2 →
        position.parent = .ok (atNode (position.level + 1) (index / 2)) ∧
          position.sibling = .ok (atNode position.level (index ^^^ 1))) ∧
      ∀ below, position.level = below + 1 →
        position.leftChild = .ok (atNode below (2 * index)) ∧
          position.rightChild = .ok (atNode below (2 * index + 1))) ∧
    ∀ leafCount, 0 < leafCount → leafCount ≤ 2 ^ 62 →
      (∃ root, rootFromLeafCount leafCount = .ok (atNode root 0) ∧
        ∀ level, leafCount ≤ 2 ^ level ↔ root ≤ level) ∧
      ∀ level index, InTree level index →
        ((atNode level index).isFreezable (leafCount - 1) ↔ (index + 1) * 2 ^ level ≤ leafCount) ∧
        ((atNode level index).isPlaceholder (leafCount - 1) ↔ leafCount ≤ index * 2 ^ level) := by
  constructor
  · intro position fits low
    obtain ⟨index, inTree, isNode⟩ := exists_atNode fits low
    generalize position.level = level at *
    subst isNode
    have power : 0 < 2 ^ level := Nat.two_pow_pos level
    have ends := inTree_iff_ends.mp inTree
    refine ⟨index, postorderNumber level index, rfl, toPostorderIndex_atNode low inTree,
      fromPostorderIndex_postorderNumber low inTree, ?_, ?_, ?_⟩
    · intro otherLevel otherLow other earlier
      have before : (other + 1) * 2 ^ otherLevel ≤ (index + 1) * 2 ^ level ∧
          ((other + 1) * 2 ^ otherLevel = (index + 1) * 2 ^ level → otherLevel < level) := by
        rcases earlier with ⟨lower, rfl⟩ | left
        · refine ⟨?_, fun _ => lower⟩
          rw [← pow_sub_mul_pow 2 lower.le, ← Nat.mul_assoc]
          apply Nat.mul_le_mul_right
          exact Nat.lt_mul_of_div_lt (Nat.lt_succ_self _) (Nat.two_pow_pos _)
        · rw [Nat.add_mul index]
          omega
      exact ⟨_, postorderNumber_lt before.1 before.2, toPostorderIndex_atNode otherLow
        (inTree_iff_ends.mpr (before.1.trans ends))⟩
    · intro notLast
      have walkable : Walkable level index := by
        refine ⟨low, ?_⟩
        rw [Nat.add_mul] at ends
        have expand : 2 ^ (level + 1) * index = 2 * (index * 2 ^ level) := by ring
        rw [inorder_atNode, expand] at notLast
        omega
      exact ⟨parent_atNode walkable, sibling_atNode walkable⟩
    · rintro below rfl
      exact ⟨leftChild_atNode inTree, rightChild_atNode inTree⟩
  · intro leafCount positive few
    refine ⟨⟨rootLevel leafCount, rootFromLeafCount_eq positive (by omega), fun level => ?_⟩, ?_⟩
    · rw [rootLevel, Nat.size_le]
      omega
    · intro level index inTree
      rw [isFreezable_atNode inTree (by omega), isPlaceholder_atNode inTree (by omega),
        decide_eq_true_iff, decide_eq_true_iff]
      omega

/-- The walks exclude the last leaf by an assertion, and the root no leaf at all. -/
theorem walk_from_last_leaf_panics : (Position.mk (2 ^ 64 - 2)).level = 0 ∧
    (Position.mk (2 ^ 64 - 2)).parent = .error .panic ∧
    (Position.mk (2 ^ 64 - 2)).sibling = .error .panic ∧ rootFromLeafCount 0 = .error .panic :=
  ⟨by decide, rfl, rfl, rfl⟩

end Position

namespace MerkleAccumulatorView

variable {hasher : PaddedScheme HashValue} {reader : HashReader} {leaves : List HashValue}

theorem frozenSubTreeIterator_next {bit rest half : Nat} (small : rest < 2 ^ bit)
    (few : 2 * half * 2 ^ bit + (2 ^ bit + rest) < 2 ^ 63) :
    next ⟨2 ^ bit + rest, 2 * half * 2 ^ bit⟩ =
      .ok (some (Position.atNode bit (2 * half), ⟨rest, (2 * half + 1) * 2 ^ bit⟩)) := by
  have double : 2 ^ (bit + 1) = 2 * 2 ^ bit := pow_succ' 2 bit
  have inside : bit < 64 := @shift_lt 0 bit (by omega)
  have offset : smearOnes (2 ^ bit + rest) >>> 1 = 2 ^ bit - 1 := by
    rw [smearOnes_eq (by omega), size_two_pow_add small, Nat.shiftRight_one]
    omega
  have leaves : 2 ^ bit - 1 + 1 = 2 ^ bit := by omega
  have cleared : (2 ^ bit + rest) &&& Word64.not (2 ^ bit) = rest := by
    rw [clear_highest inside (by omega) (by omega)]
    omega
  have root : (Position.fromLeafIndex (2 * half * 2 ^ bit)).inorder +
      (2 ^ bit - 1) = (Position.atNode bit (2 * half)).inorder := by
    rw [Position.inorder_fromLeafIndex (by omega), Position.inorder_atNode]
    congr 1
    rw [double]
    ring
  have seen : 2 * half * 2 ^ bit + 2 ^ bit = (2 * half + 1) * 2 ^ bit := by ring
  have notZero : 2 ^ bit + rest ≠ 0 := by omega
  have within : 2 * half * 2 ^ bit < Word64.max - (2 ^ bit + rest) := by
    rw [Word64.max]
    omega
  have offsetLess : 2 ^ bit - 1 < 2 ^ bit + rest := by omega
  simp only [next, ensure_of within, ok_bind, notZero, if_false, offset, ensure_of offsetLess,
    leaves, cleared, root, seen, pure_eq_ok]

/-- From a bitmap on, the hashes are read from the highest subtree to the lowest. -/
theorem readFrozen_eq {steps bitmap seen : Nat} (hasFrozen : HasFrozen hasher reader leaves)
    (few : leaves.length < 2 ^ 63) (isTotal : seen + bitmap = leaves.length)
    (aligned : 2 ^ bitmap.size ∣ seen) (enough : bitmap.size < steps) :
    readFrozen ⟨reader, leaves.length⟩ steps ⟨bitmap, seen⟩ = .ok (hasher.nodesAt leaves
        (fullAbove seen 0 leaves.length)).reverse := by
  induction steps generalizing bitmap seen with
  | zero => omega
  | succ steps inductionHypothesis =>
    by_cases isZero : bitmap = 0
    · subst isZero
      have within : seen < Word64.max - 0 := by
        rw [Word64.max]
        omega
      rw [fullAbove_of_le (by omega), readFrozen, next]
      simp only [ensure_of within, ok_bind, if_true]
      rfl
    · obtain ⟨bit, rest, half, isRest, small, isBit, isSeen, restAligned,
        restTotal, highest⟩ := fullAbove_highest isTotal aligned isZero
      have restSize : rest.size ≤ bit := Nat.size_le.mpr small
      have next := @frozenSubTreeIterator_next bit rest half small (by omega)
      have others := inductionHypothesis restTotal restAligned (by omega)
      have full : (2 * half + 1) * 2 ^ bit ≤ leaves.length := by omega
      rw [readFrozen, isRest, isSeen, next, ok_bind]
      simp only [hasFrozen bit (2 * half) full, ok_bind, others, pure_eq_ok]
      rw [← isSeen, highest]
      simp [nodesAt]

theorem getFrozenSubtreeHashes_eq (hasFrozen : HasFrozen hasher reader leaves)
    (few : leaves.length < 2 ^ 63) :
    getFrozenSubtreeHashes ⟨reader, leaves.length⟩ =
      .ok (InMemoryAccumulator.frozenRoots hasher leaves) := by
  have sizeAtMost : leaves.length.size ≤ 63 := Nat.size_le.mpr few
  exact readFrozen_eq hasFrozen few (Nat.zero_add _) (Nat.dvd_zero _)
    (Nat.lt_of_le_of_lt sizeAtMost (by omega))

end MerkleAccumulatorView

end LumioNode
