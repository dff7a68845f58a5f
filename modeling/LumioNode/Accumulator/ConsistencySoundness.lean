import LumioNode.Accumulator.Consistency
import LumioNode.Accumulator.ProofSoundness

/-! # Soundness of consistency proofs

A summary that is extended to the root of a list was that of a prefix.  Backwards, the
root determines the frozen roots and what was merged, by collision freedom. -/

namespace LumioNode

open Library PaddedScheme Word64 MerkleAccumulatorView List

namespace InMemoryAccumulator

/-! ## The pairs that are hashed -/

section HashedPairs

variable (hasher : PaddedScheme HashValue)

def carryPairs (currentNumLeaves : Nat) : Nat → Nat → HashValue →
    List HashValue → List (HashValue × HashValue)
  | bits + 1, mask, currentHash, leftHash :: rest =>
    if currentNumLeaves &&& mask ≠ 0 then
      (leftHash, currentHash) :: carryPairs currentNumLeaves bits
        (shiftLeft mask 1) (hasher.node leftHash currentHash) rest
    else []
  | _, _, _, _ => []

def SubtreeLoop.stepPairs (state : SubtreeLoop) : List (HashValue × HashValue) :=
  match state.subtreeIter with
  | [] => []
  | subtree :: _ => carryPairs hasher state.currentNumLeaves 64
      state.rightmostFrozenSubtreeSize subtree state.currentSubtreeRoots

def SubtreeLoop.runPairs : Nat → SubtreeLoop → List (HashValue × HashValue)
  | 0, _ => []
  | rounds + 1, state =>
    if state.rightmostFrozenSubtreeSize ≤ state.remainingNewLeaves then
      match state.step hasher with
      | .error _ => state.stepPairs hasher
      | .ok next => state.stepPairs hasher ++ runPairs rounds next
    else []

def rootLoopPairs : Nat → Nat → HashValue → List HashValue → List (HashValue × HashValue)
  | 0, _, _, _ => []
  | bits + 1, bitmap, current, roots =>
    if bitmap = 0 then []
    else if bitmap &&& 1 ≠ 0 then
      match roots with
      | [] => []
      | root :: rest => (root, current) ::
          rootLoopPairs bits (bitmap >>> 1) (hasher.node root current) rest
    else (current, hasher.pad) ::
      rootLoopPairs bits (bitmap >>> 1) (hasher.node current hasher.pad) roots

def rootPairs (frozenSubtreeRoots : List HashValue) (numLeaves : Nat) :
    List (HashValue × HashValue) :=
  if frozenSubtreeRoots.length < 2 then []
  else rootLoopPairs hasher 64 (numLeaves >>> trailingZeros numLeaves)
    hasher.pad frozenSubtreeRoots.reverse

def appendSubtreesPairs (accumulator : InMemoryAccumulator) (subtrees : List HashValue)
    (numNewLeaves : Nat) : List (HashValue × HashValue) :=
  if accumulator.numLeaves = 0 then rootPairs hasher subtrees numNewLeaves
  else
    let start := SubtreeLoop.start accumulator subtrees numNewLeaves
    match start.run hasher 65 with
    | .error _ => start.runPairs hasher 65
    | .ok last => start.runPairs hasher 65 ++ rootPairs hasher
        (last.currentSubtreeRoots.reverse ++ last.subtreeIter)
        (last.currentNumLeaves + last.remainingNewLeaves)

end HashedPairs

variable {hasher : PaddedScheme HashValue} {leaves roots stack rest : List HashValue}
  {level index bits bitmap numLeaves count half mask : Nat}
  {current frozen currentHash hash : HashValue} {accumulator : InMemoryAccumulator}

theorem rootLoopPairs_odd (odd : bitmap % 2 = 1) :
    rootLoopPairs hasher (bits + 1) bitmap current (frozen :: roots) =
      (frozen, current) :: rootLoopPairs hasher bits (bitmap / 2)
        (hasher.node frozen current) roots := by
  have notZero : bitmap ≠ 0 := by omega
  simp [rootLoopPairs, notZero, Nat.and_one_is_mod, odd, Nat.shiftRight_one]

theorem rootLoopPairs_even (even : bitmap % 2 = 0) (notZero : bitmap ≠ 0) :
    rootLoopPairs hasher (bits + 1) bitmap current roots =
      (current, hasher.pad) :: rootLoopPairs hasher bits (bitmap / 2)
        (hasher.node current hasher.pad) roots := by
  simp [rootLoopPairs, notZero, Nat.and_one_is_mod, even, Nat.shiftRight_one]

/-! ## The frozen roots behind a root -/

theorem nodes_of_rootLoop_zero
    (sameLength : roots.length = (fullAbove 0 level 0).length)
    (isRoot : rootLoop hasher bits 0 current roots =
      .ok (hasher.nodeAt leaves (level + Nat.size 0) 0)) :
    current = hasher.nodeAt leaves level 0 ∧
      roots = hasher.nodesAt leaves (fullAbove 0 level 0) := by
  rw [rootLoop_done, Nat.size_zero, Nat.add_zero, Except.ok.injEq] at isRoot
  rw [fullAbove_of_le (by omega)] at sameLength ⊢
  exact ⟨isRoot, eq_nil_of_length_eq_zero sameLength⟩

theorem length_of_carry (isIndex : numLeaves / 2 ^ level = index)
    (carries : index + 1 = (2 * half + 1) * 2 ^ count) (inside : level + count < 64)
    (enough : count < bits) (sameLength : stack.length = (fullAbove 0 level index).length)
    (carried : carry hasher numLeaves bits (2 ^ level) currentHash stack = .ok (hash, rest, mask)) :
    (hash :: rest).length = (fullAbove 0 level (index + 1)).length := by
  have merged := ((carry_eq_ok isIndex carries inside enough).mp carried).1
  clear carried isIndex
  induction count generalizing level index currentHash stack with
  | zero =>
    have positive : 0 < (index + 1) * 2 ^ level := Nat.mul_pos (by omega) (Nat.two_pow_pos level)
    cases merged
    rw [fullAbove_succ (by omega) positive, length_cons, length_cons, sameLength]
  | succ count inductionHypothesis =>
    have double : (2 * half + 1) * 2 ^ (count + 1) = 2 * ((2 * half + 1) * 2 ^ count) := by ring
    have positive : 0 < index * 2 ^ level := Nat.mul_pos (by omega) (Nat.two_pow_pos level)
    have halfNext : (index + 1) / 2 = index / 2 + 1 := by omega
    rw [fullAbove_odd positive (by omega), length_cons] at sameLength
    cases stack with
    | nil => simp at sameLength
    | cons leftHash below =>
      rw [fullAbove_even (by omega), halfNext]
      exact inductionHypothesis (by omega) (by omega) (by omega) (by simpa using sameLength) merged

theorem SubtreeLoop.step_eq_ok {state next : SubtreeLoop} : state.step hasher = .ok next ↔
    ∃ subtree rest hash stack mask, state.subtreeIter = subtree :: rest ∧
      carry hasher state.currentNumLeaves 64 state.rightmostFrozenSubtreeSize subtree
        state.currentSubtreeRoots = .ok (hash, stack, mask) ∧
      state.currentNumLeaves + state.rightmostFrozenSubtreeSize ≤ u64Max ∧
      next = ⟨hash :: stack, state.currentNumLeaves + state.rightmostFrozenSubtreeSize,
        state.remainingNewLeaves - state.rightmostFrozenSubtreeSize, rest,
        mask⟩ := by
  unfold step
  cases subtrees : state.subtreeIter with
  | nil => simp
  | cons subtree rest =>
    simp only [bind_eq_ok, Prod.exists, pure_eq_ok, List.cons.injEq, expect_eq_ok,
      checkedAdd_eq_some]
    constructor
    · rintro ⟨hash, stack, mask, carried, _, ⟨fits, rfl⟩, isNext⟩
      exact ⟨subtree, rest, hash, stack, mask, ⟨rfl, rfl⟩, carried, fits, isNext.symm⟩
    · rintro ⟨_, _, hash, stack, mask, ⟨rfl, rfl⟩, carried, fits, isNext⟩
      exact ⟨hash, stack, mask, carried, _, ⟨fits, rfl⟩, isNext.symm⟩

theorem SubtreeLoop.run_total {rounds : Nat} {state last : SubtreeLoop}
    (ran : state.run hasher rounds = .ok last) :
    last.currentNumLeaves + last.remainingNewLeaves =
      state.currentNumLeaves + state.remainingNewLeaves := by
  induction rounds generalizing state with
  | zero => cases ran
  | succ rounds inductionHypothesis =>
    by_cases goes : state.rightmostFrozenSubtreeSize ≤ state.remainingNewLeaves
    · rw [run_step goes] at ran
      obtain ⟨next, stepped, rest⟩ := of_bind ran
      obtain ⟨_, _, _, _, _, _, _, _, rfl⟩ := step_eq_ok.mp stepped
      have total := inductionHypothesis rest
      simp only at total
      omega
    · rw [run_stop goes] at ran
      cases ran
      rfl

section Inversion

variable {isLeaf : HashValue → Prop} {isUsed : HashValue × HashValue → Prop}
  (collisionFree : hasher.CollisionFree isLeaf isUsed)
  (leavesAreLeaves : ∀ leaf ∈ leaves, isLeaf leaf)
  (treeIsUsed : ∀ pair, hasher.IsInput leaves pair → isUsed pair)

include collisionFree leavesAreLeaves treeIsUsed

theorem children_of_parent {left right : HashValue} (used : isUsed (left, right))
    (low : level + 1 ≤ rootLevel leaves.length)
    (isParent : hasher.node left right = hasher.nodeAt leaves (level + 1) index) :
    left = hasher.nodeAt leaves level (2 * index) ∧
      right = hasher.nodeAt leaves level (2 * index + 1) := by
  obtain ⟨below, isBelow, _, isPair⟩ := children_of_eq_nodeAt collisionFree
    leavesAreLeaves treeIsUsed used low isParent
  have same : level = below := by omega
  subst same
  exact Prod.mk.inj isPair

/-- Backwards, the loop reaches the root only from nodes of the tree. -/
theorem nodes_of_rootLoop (small : index < 2 ^ bits)
    (isFloor : index = leaves.length / 2 ^ level)
    (partly : index % 2 = 0 → index * 2 ^ level < leaves.length)
    (low : level + index.size ≤ rootLevel leaves.length)
    (sameLength : roots.length = (fullAbove 0 level index).length)
    (areUsed : ∀ pair ∈ rootLoopPairs hasher bits index current roots, isUsed pair)
    (isRoot : rootLoop hasher bits index current roots = .ok
      (hasher.nodeAt leaves (level + index.size) 0)) :
    current = hasher.nodeAt leaves level index ∧
      roots = hasher.nodesAt leaves (fullAbove 0 level index) := by
  induction bits generalizing level index current roots with
  | zero =>
    have isZero : index = 0 := by omega
    subst isZero
    exact nodes_of_rootLoop_zero sameLength isRoot
  | succ bits inductionHypothesis =>
    by_cases isZero : index = 0
    · subst isZero
      exact nodes_of_rootLoop_zero sameLength isRoot
    · obtain ⟨starts, above, halfFloor, sized⟩ := parent_of_floor isZero isFloor partly
      have halfSmall : index / 2 < 2 ^ bits := by omega
      rw [sized] at isRoot low
      rcases Nat.mod_two_eq_zero_or_one index with even | odd
      · rw [rootLoop_even even isZero] at isRoot
        rw [rootLoopPairs_even even isZero, forall_mem_cons] at areUsed
        rw [fullAbove_even even] at sameLength ⊢
        obtain ⟨isParent, others⟩ := inductionHypothesis halfSmall halfFloor
          (fun _ => starts) low sameLength areUsed.2 isRoot
        have isLeft : 2 * (index / 2) = index := by omega
        have isChild := (children_of_parent collisionFree leavesAreLeaves
          treeIsUsed areUsed.1 (by omega) isParent).1
        rw [isLeft] at isChild
        exact ⟨isChild, others⟩
      · have positive : 0 < index * 2 ^ level := Nat.mul_pos (by omega) (Nat.two_pow_pos level)
        rw [fullAbove_odd positive odd, length_cons] at sameLength
        cases roots with
        | nil => simp at sameLength
        | cons frozen rest =>
          have restLength : rest.length = (fullAbove 0 (level + 1) (index / 2)).length := by
            simpa using sameLength
          rw [rootLoop_odd odd] at isRoot
          rw [rootLoopPairs_odd odd, forall_mem_cons] at areUsed
          obtain ⟨isParent, others⟩ := inductionHypothesis halfSmall
            halfFloor (fun _ => starts) low restLength areUsed.2 isRoot
          have isLeft : 2 * (index / 2) = index - 1 := by omega
          have isRight : 2 * (index / 2) + 1 = index := by omega
          have areChildren := children_of_parent collisionFree
            leavesAreLeaves treeIsUsed areUsed.1 (by omega) isParent
          rw [isRight, isLeft] at areChildren
          rw [nodesAt_odd odd, ← areChildren.1, ← others]
          exact ⟨areChildren.2, rfl⟩

theorem frozenRoots_of_computeRootHash (notEmpty : 0 < leaves.length)
    (fits : leaves.length ≤ 2 ^ 63) (sameLength : roots.length = countOnes leaves.length)
    (areUsed : ∀ pair ∈ rootPairs hasher roots leaves.length, isUsed pair)
    (isRoot : computeRootHash hasher roots leaves.length = .ok (hasher.root leaves)) :
    roots = frozenRoots hasher leaves := by
  obtain ⟨shift, half, isCount⟩ := exists_shifted_odd notEmpty
  have positive : 0 < 2 ^ shift := Nat.two_pow_pos shift
  by_cases isPower : half = 0
  · have single : roots.length = 1 := by
      rw [sameLength, isCount, isPower, Nat.mul_comm, countOnes_two_pow_mul]
      rfl
    have expected := @computeRootHash_eq hasher leaves fits
    have singleFrozen : (frozenRoots hasher leaves).length = 1 := by
      rw [length_frozenRoots, ← sameLength, single]
    obtain ⟨root, rfl⟩ := length_eq_one_iff.mp single
    obtain ⟨frozen, isFrozen⟩ := length_eq_one_iff.mp singleFrozen
    rw [isFrozen] at expected ⊢
    rw [computeRootHash, Except.ok.injEq] at isRoot expected
    rw [isRoot, expected]
  · have atLeastTwo : 2 ≤ roots.length := by
      have others := countOnes_pos (Nat.pos_of_ne_zero isPower)
      rw [sameLength, isCount, Nat.mul_comm, countOnes_two_pow_mul, countOnes_double_add_one]
      omega
    have stripped := shiftRight_trailingZeros isCount fits
    have small : 2 * half + 1 < 2 ^ 64 := by
      have atMost : 2 * half + 1 ≤ leaves.length := by
        rw [isCount]
        exact Nat.le_mul_of_pos_right _ positive
      omega
    have isFloor : 2 * half + 1 = leaves.length / 2 ^ shift := by
      rw [isCount, Nat.mul_div_cancel _ positive]
    have rootAt : rootLevel leaves.length = shift + (2 * half + 1).size := by
      rw [isCount, rootLevel_eq_size isPower]
    have shifted : fullAbove 0 0 leaves.length = fullAbove 0 shift (2 * half + 1) := by
      rw [isCount, fullAbove_shift, Nat.zero_add]
    rw [computeRootHash_of_two atLeastTwo, stripped, root_eq_nodeAt, rootAt] at isRoot
    rw [rootPairs, if_neg (by omega), stripped] at areUsed
    have lengths : roots.reverse.length = (fullAbove 0 shift (2 * half + 1)).length := by
      rw [length_reverse, sameLength, ← shifted, length_fullAbove]
    have areNodes := (nodes_of_rootLoop collisionFree leavesAreLeaves
      treeIsUsed small isFloor (by omega) (Nat.le_of_eq rootAt.symm) lengths
      areUsed isRoot).2
    rw [frozenRoots, shifted, ← areNodes, reverse_reverse]

/-! ## The roots before a merge -/

/-- Backwards, the inner loop ends in frozen roots of the tree only from such. -/
theorem nodes_of_carry (isIndex : numLeaves / 2 ^ level = index)
    (carries : index + 1 = (2 * half + 1) * 2 ^ count)
    (inside : level + count < 64) (enough : count < bits)
    (full : (index + 1) * 2 ^ level ≤ leaves.length)
    (areUsed : ∀ pair ∈ carryPairs hasher numLeaves bits (2 ^ level) currentHash stack, isUsed pair)
    (carried : carry hasher numLeaves bits (2 ^ level) currentHash stack = .ok (hash, rest, mask))
    (areNodes : hash :: rest = hasher.nodesAt leaves (fullAbove 0 level (index + 1))) :
    currentHash = hasher.nodeAt leaves level index ∧
      stack = hasher.nodesAt leaves (fullAbove 0 level index) := by
  induction count generalizing level index bits currentHash stack with
  | zero =>
    obtain ⟨bits, rfl⟩ : ∃ less, bits = less + 1 := ⟨bits - 1, by omega⟩
    have positive : 0 < (index + 1) * 2 ^ level := Nat.mul_pos (by omega) (Nat.two_pow_pos level)
    rw [carry_stop isIndex (by omega)] at carried
    rw [fullAbove_succ (by omega) positive] at areNodes
    cases carried
    exact List.cons.inj areNodes
  | succ count inductionHypothesis =>
    obtain ⟨bits, rfl⟩ : ∃ less, bits = less + 1 := ⟨bits - 1, by omega⟩
    have double : (2 * half + 1) * 2 ^ (count + 1) = 2 * ((2 * half + 1) * 2 ^ count) := by ring
    have odd : index % 2 = 1 := by omega
    have halved : numLeaves / 2 ^ (level + 1) = index / 2 := by
      rw [← Position.div_two_pow_succ, isIndex]
    have halfNext : (index + 1) / 2 = index / 2 + 1 := by omega
    have isLeft : 2 * (index / 2) = index - 1 := by omega
    have isRight : 2 * (index / 2) + 1 = index := by omega
    rw [← ends_of_odd odd] at full
    cases stack with
    | nil =>
      rw [carry_empty isIndex odd] at carried
      cases carried
    | cons leftHash below =>
      rw [carry_merge isIndex odd (by omega)] at carried
      rw [carryPairs, if_pos (and_mask_ne_zero isIndex odd),
        Position.shiftLeft_two_pow (by omega), forall_mem_cons] at areUsed
      rw [fullAbove_even (by omega), halfNext] at areNodes
      obtain ⟨isParent, others⟩ := inductionHypothesis halved (by omega)
        (by omega) (by omega) full areUsed.2 carried areNodes
      have areChildren := children_of_parent collisionFree leavesAreLeaves treeIsUsed areUsed.1
        (le_rootLevel_of_full full) isParent
      rw [isRight, isLeft] at areChildren
      rw [nodesAt_odd odd, ← areChildren.1, ← others]
      exact ⟨areChildren.2, rfl⟩

/-- Backwards, so does the outer loop. -/
theorem nodes_of_run {rounds remaining : Nat} {subtrees : List HashValue}
    {last : SubtreeLoop} (fits : leaves.length ≤ 2 ^ 63)
    (isTotal : (2 * half + 1) * 2 ^ level + remaining = leaves.length)
    (sameLength : stack.length = (fullAbove 0 level (2 * half + 1)).length)
    (areUsed : ∀ pair ∈ SubtreeLoop.runPairs hasher rounds
      ⟨stack, (2 * half + 1) * 2 ^ level, remaining, subtrees, 2 ^ level⟩, isUsed pair)
    (ran : SubtreeLoop.run hasher rounds ⟨stack, (2 * half + 1) * 2 ^ level, remaining, subtrees, 2
      ^ level⟩ = .ok last)
    (isFrozen : last.currentSubtreeRoots.reverse ++ last.subtreeIter = frozenRoots hasher leaves) :
    stack = hasher.nodesAt leaves (fullAbove 0 level (2 * half + 1)) := by
  induction rounds generalizing level half remaining stack subtrees with
  | zero => cases ran
  | succ rounds inductionHypothesis =>
    have positive : 0 < 2 ^ level := Nat.two_pow_pos level
    by_cases goes : 2 ^ level ≤ remaining
    · rw [SubtreeLoop.run_step goes] at ran
      obtain ⟨next, stepped, rest⟩ := of_bind ran
      rw [SubtreeLoop.runPairs, if_pos goes, stepped] at areUsed
      obtain ⟨subtree, others, hash, below, mask, isIter, carried, _,
        isNext⟩ := SubtreeLoop.step_eq_ok.mp stepped
      simp only at isIter carried isNext
      subst isIter isNext
      obtain ⟨count, odd, carries, _, highest, merged⟩ := @exists_carry half level (by omega)
      have isIndex : (2 * half + 1) * 2 ^ level / 2 ^ level =
          2 * half + 1 := Nat.mul_div_cancel _ positive
      have full : (2 * half + 1 + 1) * 2 ^ level ≤ leaves.length := by
        rw [Nat.add_mul, Nat.one_mul]
        omega
      have shifted : fullAbove 0 level (2 * half + 1 + 1) =
          fullAbove 0 (level + count) (2 * odd + 1) := by
        rw [carries, fullAbove_shift]
      have isMask : mask = 2 ^ (level + count) :=
        ((carry_eq_ok isIndex carries highest (by omega)).mp carried).2
      have newLength := length_of_carry isIndex carries highest (by omega) sameLength carried
      rw [isMask, merged] at rest areUsed
      rw [shifted] at newLength
      have newStack := inductionHypothesis (by omega) newLength
        (fun pair member => areUsed pair (mem_append_right _ member))
        rest
      rw [← shifted] at newStack
      exact (nodes_of_carry collisionFree leavesAreLeaves treeIsUsed isIndex
        carries highest (by omega) full
        (fun pair member => areUsed pair (mem_append_left _ member))
        carried newStack).2
    · rw [SubtreeLoop.run_stop goes] at ran
      cases ran
      have above : leaves.length < (2 * half + 1 + 1) * 2 ^ level := by
        rw [Nat.add_mul _ 1, Nat.one_mul]
        omega
      have split := @fullAbove_split 0 leaves.length level (2 * half + 1) (by omega) above
      rw [Nat.zero_add] at split
      rw [frozenRoots, split, nodesAt, map_append, reverse_append] at isFrozen
      have same := (append_inj isFrozen (by simp [sameLength])).1
      exact reverse_injective same

omit leavesAreLeaves in
/-- Frozen roots that are those of another list come from a prefix of it. -/
theorem prefix_of_frozenRoots {known : List HashValue}
    (knownIsUsed : ∀ pair, hasher.IsInput known pair → isUsed pair)
    (shorter : known.length ≤ leaves.length)
    (same : hasher.nodesAt known (fullAbove 0 0 known.length) = hasher.nodesAt leaves
      (fullAbove 0 0 known.length)) : known <+: leaves := by
  have sameLeaf (index : Nat) (inside : index < known.length) : known[index]? = leaves[index]? := by
    obtain ⟨node, member, after, below⟩ :=
      @exists_mem_fullAbove 0 known.length index (by simpa using inside)
    have full := (mem_fullAbove member).1
    rw [pow_zero, Nat.mul_one] at full
    have sameNode := map_inj_left.mp same node member
    apply leaves_eq_of_nodeAt_eq collisionFree knownIsUsed treeIsUsed (le_rootLevel_of_full full)
      (le_rootLevel_of_full (le_trans full shorter)) _ sameNode after below
    intro leaf _ less
    omega
  rw [prefix_iff_eq_take]
  apply ext_getElem?
  intro index
  rw [List.getElem?_take]
  by_cases inside : index < known.length
  · rw [if_pos inside, sameLeaf index inside]
  · rw [if_neg inside, List.getElem?_eq_none (Nat.le_of_not_lt inside)]

/-- What a successful `append_subtrees` with a known root says of the subtrees. -/
theorem extends_of_appendSubtrees {known subtrees : List HashValue} {numNewLeaves : Nat}
    (notEmpty : 0 < known.length)
    (isTotal : known.length + numNewLeaves = leaves.length)
    (knownIsUsed : ∀ pair, hasher.IsInput known pair → isUsed pair)
    (areUsed : ∀ pair ∈ appendSubtreesPairs hasher (ofLeaves hasher known) subtrees numNewLeaves,
      isUsed pair)
    (appended : (ofLeaves hasher known).appendSubtrees hasher subtrees numNewLeaves = .ok
      accumulator) (isRoot : accumulator.rootHash = hasher.root leaves) :
    known <+: leaves ∧ leaves.length ≤ 2 ^ 63 ∧ accumulator = ofLeaves hasher leaves := by
  have isLimit : maxAccumulatorLeaves = 2 ^ 63 := by
    rw [maxAccumulatorLeaves, maxAccumulatorProofDepth, Nat.one_shiftLeft]
  have notZero : (ofLeaves hasher known).numLeaves ≠ 0 := by
    rw [numLeaves_ofLeaves]
    omega
  obtain ⟨inside, rest⟩ := of_ensure_bind appended
  obtain ⟨bounded, rest⟩ := of_ensure_bind rest
  rw [numLeaves_ofLeaves] at inside bounded
  have fits : leaves.length ≤ 2 ^ 63 := by omega
  rw [if_neg notZero] at rest
  obtain ⟨last, ran, rest⟩ := of_bind rest
  obtain ⟨total, added, made⟩ := of_bind rest
  have lastTotal : last.currentNumLeaves + last.remainingNewLeaves =
      leaves.length := by
    have kept := SubtreeLoop.run_total ran
    simp only [SubtreeLoop.start, numLeaves_ofLeaves] at kept
    omega
  obtain ⟨_, rfl⟩ := checkedAdd_eq_some.mp (expect_eq_ok.mp added)
  rw [lastTotal] at made
  obtain ⟨isLength, rest⟩ := of_ensure_bind made
  obtain ⟨rootHash, computed, isResult⟩ := of_bind rest
  cases isResult
  simp only at isRoot
  subst isRoot
  rw [appendSubtreesPairs, if_neg notZero] at areUsed
  simp only [ran, lastTotal, forall_mem_append] at areUsed
  have isFrozen := frozenRoots_of_computeRootHash collisionFree leavesAreLeaves
    treeIsUsed (by omega) fits isLength areUsed.2 computed
  obtain ⟨level, half, isKnown⟩ := exists_shifted_odd notEmpty
  have low : level < 64 := @shift_lt half level (by omega)
  have shifted : fullAbove 0 0 known.length = fullAbove 0 level (2 * half + 1) := by
    rw [isKnown, fullAbove_shift, Nat.zero_add]
  have start : SubtreeLoop.start (ofLeaves hasher known) subtrees
      numNewLeaves = ⟨hasher.nodesAt known (fullAbove 0 0 known.length),
        (2 * half + 1) * 2 ^ level, numNewLeaves, subtrees, 2 ^ level⟩ := by
    rw [SubtreeLoop.start, ofLeaves, frozenRoots, reverse_reverse, ← isKnown, Nat.one_shiftLeft]
    congr 2
    rw [isKnown, trailingZeros_eq low]
  rw [start] at ran areUsed
  have sameNodes := nodes_of_run collisionFree leavesAreLeaves treeIsUsed fits
    (by omega) (by rw [nodesAt, length_map, shifted]) areUsed.1 ran
    isFrozen
  rw [← shifted] at sameNodes
  refine ⟨?_, fits, ?_⟩
  · exact prefix_of_frozenRoots collisionFree treeIsUsed knownIsUsed (by omega) sameNodes
  · rw [isFrozen]
    rfl

end Inversion

theorem length_of_appendEach {frozen more : List HashValue} {total : Nat}
    (appended : appendEach hasher roots numLeaves more = .ok (frozen, total)) :
    total = numLeaves + more.length := by
  induction more generalizing roots numLeaves with
  | nil =>
    cases appended
    rfl
  | cons leaf rest inductionHypothesis =>
    obtain ⟨_, _, others⟩ := of_bind appended
    obtain ⟨next, added, others⟩ := of_bind others
    obtain ⟨_, rfl⟩ := checkedAdd_eq_some.mp (expect_eq_ok.mp added)
    rw [inductionHypothesis others, length_cons]
    omega

theorem numLeaves_of_fromLeaves (made : fromLeaves hasher leaves = .ok accumulator) :
    accumulator.numLeaves = leaves.length := by
  rw [fromLeaves, default_eq, ok_bind, append] at made
  obtain ⟨⟨roots, total⟩, appended, rest⟩ := of_bind made
  have isTotal := length_of_appendEach appended
  simp only [mapError_eq_ok, new] at rest
  obtain ⟨_, _, rest⟩ := of_bind rest
  obtain ⟨_, _, rest⟩ := of_bind rest
  cases rest
  rw [isTotal, numLeaves_ofLeaves, length_nil, Nat.zero_add]

end InMemoryAccumulator

namespace TransactionAccumulatorSummary

open InMemoryAccumulator

/-- What is hashed when the summary of known leaves is extended to a root. -/
def CollisionFreeFor (hasher : PaddedScheme HashValue)
    (known leaves : List HashValue) (summary : TransactionAccumulatorSummary)
    (proof : AccumulatorConsistencyProof) (target : LedgerInfo) : Prop :=
  hasher.CollisionFree (fun leaf => leaf ∈ leaves)
    (fun pair => hasher.IsInput known pair ∨ hasher.IsInput leaves pair ∨
      pair ∈ appendSubtreesPairs hasher summary.accumulator proof.subtrees
        (target.version - summary.version))

/-- The store's consistency proof leads to the accumulator of all leaves, and an accepted proof
leads to a list from its prefixes only. -/
theorem consistency_proofs_ratchet (hasher : PaddedScheme HashValue) :
    (∀ (reader : HashReader) (leaves : List HashValue) (known : Nat),
      MerkleAccumulatorView.HasFrozen hasher reader leaves →
      leaves.length ≤ maxAccumulatorLeaves → known ≤ leaves.length →
      ∃ small subtrees full, fromLeaves hasher (leaves.take known) = .ok small ∧
        getConsistencyProof ⟨reader, leaves.length⟩ known = .ok subtrees ∧
        small.appendSubtrees hasher subtrees (leaves.length - known) = .ok full ∧
        fromLeaves hasher leaves = .ok full) ∧
    (∀ (known leaves : List HashValue) (accumulator : InMemoryAccumulator)
      (summary extended : TransactionAccumulatorSummary)
      (target : LedgerInfo) (proof : AccumulatorConsistencyProof),
      known ≠ [] → leaves ≠ [] →
      fromLeaves hasher known = .ok accumulator →
      new accumulator = .ok summary →
      target.version = leaves.length - 1 →
      target.transactionAccumulatorHash = hasher.root leaves →
      CollisionFreeFor hasher known leaves summary proof target →
      summary.tryExtendWithProof hasher proof target = .ok extended →
      known <+: leaves ∧ ∃ full, fromLeaves hasher leaves = .ok full ∧
        new full = .ok extended) := by
  have isLimit : maxAccumulatorLeaves = 2 ^ 63 := by
    rw [maxAccumulatorLeaves, maxAccumulatorProofDepth, Nat.one_shiftLeft]
  constructor
  · intro reader leaves known hasFrozen few atMost
    have fits : leaves.length ≤ 2 ^ 63 := isLimit ▸ few
    have shorter : (leaves.take known).length ≤ 2 ^ 63 := by
      rw [length_take]
      omega
    obtain ⟨subtrees, asked, appended⟩ :=
      appendSubtrees_of_getConsistencyProof hasFrozen fits atMost
    exact ⟨_, subtrees, _, fromLeaves_eq shorter, asked, appended, fromLeaves_eq fits⟩
  · intro known leaves accumulator summary extended target proof notEmpty
      hasLeaves made isSummary isVersion isHash collisionFree accepted
    have positive : 0 < known.length := length_pos_iff.mpr notEmpty
    have leavesPositive : 0 < leaves.length := length_pos_iff.mpr hasLeaves
    have knownLength := numLeaves_of_fromLeaves made
    obtain ⟨_, _, isSummary⟩ := of_bind isSummary
    cases isSummary
    have knownVersion : (⟨accumulator⟩ : TransactionAccumulatorSummary).version
        = known.length - 1 := by
      rw [version, InMemoryAccumulator.version, knownLength, if_neg (by omega)]
    obtain ⟨newer, rest⟩ := of_ensure_bind accepted
    obtain ⟨larger, appended, rest⟩ := of_bind rest
    obtain ⟨_, verified, rest⟩ := of_bind rest
    cases rest
    rw [mapError_eq_ok, verifyConsistency] at verified
    obtain ⟨_, _, sameRoot⟩ := of_bind verified
    have bounded := appended
    obtain ⟨inside, _⟩ := of_ensure_bind bounded
    simp only [knownLength] at inside
    rw [fromLeaves_eq (by omega)] at made
    cases made
    have isRoot : larger.rootHash = hasher.root leaves := by
      rw [← isHash, ensure_eq_ok.mp sameRoot]
      rfl
    obtain ⟨isPrefix, fits, rfl⟩ := extends_of_appendSubtrees collisionFree
      (fun _ member => member) (fun _ isInput => .inr (.inl isInput))
      positive (by omega) (fun _ isInput => .inl isInput)
      (fun _ member => .inr (.inr member)) appended isRoot
    have isNotEmpty : (!(ofLeaves hasher leaves).isEmpty) = true := by
      simp [InMemoryAccumulator.isEmpty, numLeaves_ofLeaves, hasLeaves]
    refine ⟨isPrefix, _, fromLeaves_eq fits, ?_⟩
    rw [new, ensure_of isNotEmpty]
    rfl

namespace Ratchet

open MerkleAccumulatorView.FullStore (toyHasher ledgerInfo)

theorem from_one_leaf : (∃ reader small subtrees full,
      MerkleAccumulatorView.HasFrozen toyHasher.scheme reader [7, 8, 9] ∧
      fromLeaves toyHasher.scheme [7] = .ok small ∧
      getConsistencyProof ⟨reader, 3⟩ 1 = .ok subtrees ∧
      small.appendSubtrees toyHasher.scheme subtrees 2 = .ok full ∧
      fromLeaves toyHasher.scheme [7, 8, 9] = .ok full) ∧
    ∃ full, fromLeaves toyHasher.scheme [7, 8] = .ok full ∧
      tryExtendWithProof ⟨⟨[7], 1, 7⟩⟩ toyHasher.scheme ⟨[8]⟩ ledgerInfo = .ok ⟨full⟩ ∧
      [(7 : HashValue)] <+: [7, 8] := by
  obtain ⟨complete, sound⟩ := consistency_proofs_ratchet toyHasher.scheme
  constructor
  · obtain ⟨run, ran, _⟩ := @AccumulatorRun.appendBatches_ok toyHasher.scheme
      [[7, 8, 9]] (by decide)
      (AccumulatorRun.reservable_of_length (by decide) (by decide))
    have hasFrozen := (AccumulatorRun.appendBatches_represents ran).1.hasFrozen
    obtain ⟨small, subtrees, full, made, asked, appended, isFull⟩ :=
      complete _ [7, 8, 9] 1 hasFrozen (by decide) (by decide)
    exact ⟨_, small, subtrees, full, hasFrozen, made, asked, appended, isFull⟩
  · have accepted : tryExtendWithProof ⟨⟨[7], 1, 7⟩⟩ toyHasher.scheme ⟨[8]⟩
        ledgerInfo = .ok ⟨⟨[62], 2, 62⟩⟩ := by
      decide
    have collisionFree : CollisionFreeFor toyHasher.scheme [7] [7, 8]
        ⟨⟨[7], 1, 7⟩⟩ ⟨[8]⟩ ledgerInfo := by
      apply AccumulatorRangeProof.Indices.collisionFree_of_one_pair
      · intro leaf isALeaf
        simpa using isALeaf
      · rintro pair (isInput | isInput | isHashed)
        · exact absurd isInput (not_isInput_of_single rfl)
        · exact AccumulatorRangeProof.Indices.isInput_two_leaves isInput
        · have single : appendSubtreesPairs toyHasher.scheme ⟨[7], 1, 7⟩ [8] 1 = [(7, 8)] := by
            decide
          exact mem_singleton.mp (single ▸ isHashed)
    obtain ⟨isPrefix, full, isFull, isExtended⟩ := sound [7] [7, 8] ⟨[7], 1, 7⟩
      ⟨⟨[7], 1, 7⟩⟩ _ ledgerInfo ⟨[8]⟩ (by decide) (by decide) (by decide)
      (by decide) rfl rfl collisionFree accepted
    obtain ⟨_, _, isSame⟩ := of_bind isExtended
    cases isSame
    exact ⟨_, isFull, accepted, isPrefix⟩

end Ratchet

end TransactionAccumulatorSummary

end LumioNode
