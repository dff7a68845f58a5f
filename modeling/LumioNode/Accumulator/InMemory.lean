import LumioNode.Accumulator.Position
import LumioNode.Types.ValidatorVerifier

/-! # The in-memory accumulator

The accumulator that keeps only the roots of its maximal full subtrees. -/

namespace LumioNode

open List

open Library PaddedScheme Word64

structure InMemoryAccumulator where
  frozenSubtreeRoots : List HashValue
  numLeaves : Nat
  rootHash : HashValue
deriving DecidableEq

namespace InMemoryAccumulator

section Definitions

variable (hasher : PaddedScheme HashValue)

def rootLoop : Nat → Nat → HashValue → List HashValue → Except Fault HashValue
  | 0, _, current, _ => .ok current
  | bits + 1, bitmap, current, roots =>
    if bitmap = 0 then .ok current
    else if bitmap &&& 1 ≠ 0 then
      match roots with
      | [] => .error .panic
      | root :: rest =>
        rootLoop bits (bitmap >>> 1) (hasher.node root current) rest
    else rootLoop bits (bitmap >>> 1) (hasher.node current hasher.pad) roots

variable (frozenSubtreeRoots : List HashValue)

def computeRootHash (numLeaves : Nat) :
    Except Fault HashValue :=
  match frozenSubtreeRoots with
  | [] => .ok hasher.pad
  | [root] => .ok root
  | roots => rootLoop hasher 64
      (numLeaves >>> trailingZeros numLeaves) hasher.pad roots.reverse

def new (numLeaves : Nat) :
    Except Fault InMemoryAccumulator := do
  ensure (frozenSubtreeRoots.length = countOnes numLeaves)
    (.error <| "The number of frozen subtrees does not match the number of " ++
      s!"leaves. frozen_subtree_roots.len(): {frozenSubtreeRoots.length}. " ++
      s!"num_leaves: {numLeaves}.")
  let rootHash ← computeRootHash hasher frozenSubtreeRoots numLeaves
  return ⟨frozenSubtreeRoots, numLeaves, rootHash⟩

/-- Merge the last two subtrees a number of times; the last root is on top. -/
def mergeLast : Nat → List HashValue → Except Fault (List HashValue)
  | 0, stack => .ok stack
  | count + 1, right :: left :: rest =>
    mergeLast count (hasher.node left right :: rest)
  | _ + 1, _ => .error .panic

def appendOne (numExistingLeaves : Nat)
    (leaf : HashValue) : Except Fault (List HashValue) := do
  let numTrailingOnes := trailingZeros (not numExistingLeaves)
  let stack ← mergeLast hasher numTrailingOnes (leaf :: frozenSubtreeRoots.reverse)
  return stack.reverse

def appendEach (frozenSubtreeRoots : List HashValue) (numLeaves : Nat) :
    List HashValue → Except Fault (List HashValue × Nat)
  | [] => .ok (frozenSubtreeRoots, numLeaves)
  | leaf :: rest => do
      let roots ← appendOne hasher frozenSubtreeRoots numLeaves leaf
      let next ← expect Fault.panic (checkedAdd numLeaves 1)
      appendEach roots next rest

/-- An error of `new` is a panic here: the result is unwrapped. -/
def append (accumulator : InMemoryAccumulator) (leaves : List HashValue) :
    Except Fault InMemoryAccumulator := do
  let (roots, numLeaves) ← appendEach hasher accumulator.frozenSubtreeRoots
    accumulator.numLeaves leaves
  (new hasher roots numLeaves).mapError fun _ => .panic

def default : Except Fault InMemoryAccumulator := (new hasher [] 0).mapError fun _ => .panic

def fromLeaves (leaves : List HashValue) : Except Fault InMemoryAccumulator := do
  let empty ← default hasher
  append hasher empty leaves

/-- The roots of the maximal full subtrees, from left to right. -/
def frozenRoots (leaves : List HashValue) : List HashValue :=
  (hasher.nodesAt leaves (fullAbove 0 0 leaves.length)).reverse

def ofLeaves (leaves : List HashValue) : InMemoryAccumulator :=
  ⟨frozenRoots hasher leaves, leaves.length, hasher.root leaves⟩

end Definitions

variable {hasher : PaddedScheme HashValue} {leaves more : List HashValue} {level index : Nat}

/-- A full subtree is merged once for every trailing one of its index. -/
theorem mergeLast_eq {count half : Nat} (carries : index + 1 = (2 * half + 1) * 2 ^ count)
    (full : (index + 1) * 2 ^ level ≤ leaves.length) :
    mergeLast hasher count (hasher.nodeAt leaves level index ::
        hasher.nodesAt leaves (fullAbove 0 level index)) =
      .ok (hasher.nodesAt leaves (fullAbove 0 level (index + 1))) := by
  induction count generalizing level index with
  | zero =>
    have positive : 0 < (index + 1) * 2 ^ level := Nat.mul_pos (by omega) (Nat.two_pow_pos level)
    rw [mergeLast, fullAbove_succ (by omega) positive]
    rfl
  | succ count inductionHypothesis =>
    have double : (2 * half + 1) * 2 ^ (count + 1) = 2 * ((2 * half + 1) * 2 ^ count) := by ring
    have odd : index % 2 = 1 := by omega
    have even : (index + 1) % 2 = 0 := by omega
    have halved : (index + 1) / 2 = index / 2 + 1 := by omega
    rw [← ends_of_odd odd] at full
    have starts : index / 2 * 2 ^ (level + 1) < leaves.length := by
      have positive : 0 < 2 ^ (level + 1) := Nat.two_pow_pos _
      rw [Nat.add_mul] at full
      omega
    rw [nodesAt_odd odd, mergeLast, node_of_odd odd starts, inductionHypothesis (by omega) full,
      fullAbove_even even, halved]

theorem trailingOnes_eq {number count half : Nat} (less : number < 2 ^ 63)
    (carries : number + 1 = (2 * half + 1) * 2 ^ count) : trailingZeros (not number) = count := by
  have positive : 0 < 2 ^ count := Nat.two_pow_pos count
  have expand : (2 * half + 1) * 2 ^ count = 2 ^ (count + 1) * half + 2 ^ count := by ring
  have inTree : Position.InTree count half := by
    unfold Position.InTree
    rw [Nat.mul_add, Nat.mul_one]
    omega
  have isNumber : number = (Position.atNode count half).inorder := by
    rw [Position.inorder_atNode]
    omega
  rw [isNumber]
  exact Position.level_atNode inTree

theorem appendOne_eq {leaf : HashValue} (fits : leaves.length < 2 ^ 63) :
    appendOne hasher (frozenRoots hasher leaves) leaves.length leaf =
      .ok (frozenRoots hasher (leaves ++ [leaf])) := by
  obtain ⟨count, half, carries⟩ := exists_shifted_odd (Nat.succ_pos leaves.length)
  have last : hasher.nodeAt (leaves ++ [leaf]) 0 leaves.length = leaf := by
    apply nodeAt_zero
    simp
  have earlier : (frozenRoots hasher leaves).reverse =
      hasher.nodesAt (leaves ++ [leaf]) (fullAbove 0 0 leaves.length) := by
    rw [nodesAt_append, frozenRoots, reverse_reverse]
  have merged := @mergeLast_eq hasher (leaves ++ [leaf]) 0 leaves.length
    count half carries (by simp)
  rw [last, ← earlier] at merged
  rw [appendOne, trailingOnes_eq fits carries, merged, ok_bind, pure_eq_ok,
    frozenRoots, length_append, length_singleton]

theorem appendEach_eq (fits : leaves.length + more.length ≤ 2 ^ 63) :
    appendEach hasher (frozenRoots hasher leaves) leaves.length more =
      .ok (frozenRoots hasher (leaves ++ more), (leaves ++ more).length) := by
  induction more generalizing leaves with
  | nil =>
    rw [appendEach, append_nil]
  | cons leaf rest inductionHypothesis =>
    rw [length_cons] at fits
    have next : checkedAdd leaves.length 1 = some (leaves ++ [leaf]).length := by
      rw [checkedAdd, u64Max, if_pos (by omega), length_append, length_singleton]
    have longer : (leaves ++ [leaf]).length + rest.length ≤ 2 ^ 63 := by
      rw [length_append, length_singleton]
      omega
    rw [appendEach, appendOne_eq (by omega), ok_bind, next, expect, ok_bind,
      inductionHypothesis longer, append_assoc, singleton_append]

theorem length_fullAbove (count : Nat) : (fullAbove 0 level count).length = countOnes count := by
  induction count using Nat.strong_induction_on generalizing level with
  | h count inductionHypothesis =>
    by_cases isZero : count = 0
    · rw [isZero, fullAbove_of_le (by omega)]
      rfl
    · have half : (fullAbove 0 (level + 1) (count / 2)).length = countOnes (count / 2) :=
        inductionHypothesis (count / 2) (by omega)
      rcases Nat.mod_two_eq_zero_or_one count with even | odd
      · have isDouble : count = 2 * (count / 2) := by omega
        rw [fullAbove_even even, half, isDouble, countOnes_double]
        congr 1
        omega
      · have isDouble : count = 2 * (count / 2) + 1 := by omega
        have positive : 0 < count * 2 ^ level := Nat.mul_pos (by omega) (Nat.two_pow_pos level)
        rw [fullAbove_odd positive odd, length_cons, half, isDouble, countOnes_double_add_one]
        congr 2
        omega

theorem length_frozenRoots : (frozenRoots hasher leaves).length = countOnes leaves.length := by
  rw [frozenRoots, length_reverse, nodesAt, length_map, length_fullAbove]

section RootLoop

variable {bits bitmap : Nat} {current frozen : HashValue} {roots : List HashValue}

theorem rootLoop_done : rootLoop hasher bits 0 current roots = .ok current := by
  cases bits with
  | zero => rw [rootLoop]
  | succ bits => simp [rootLoop]

theorem rootLoop_odd (odd : bitmap % 2 = 1) :
    rootLoop hasher (bits + 1) bitmap current (frozen :: roots) =
      rootLoop hasher bits (bitmap / 2) (hasher.node frozen current) roots := by
  have notZero : bitmap ≠ 0 := by omega
  simp [rootLoop, notZero, Nat.and_one_is_mod, odd, Nat.shiftRight_one]

theorem rootLoop_even (even : bitmap % 2 = 0) (notZero : bitmap ≠ 0) :
    rootLoop hasher (bits + 1) bitmap current roots =
      rootLoop hasher bits (bitmap / 2) (hasher.node current hasher.pad) roots := by
  simp [rootLoop, notZero, Nat.and_one_is_mod, even, Nat.shiftRight_one]

theorem computeRootHash_of_two {numLeaves : Nat} (atLeastTwo : 2 ≤ roots.length) :
    computeRootHash hasher roots numLeaves = rootLoop hasher 64
      (numLeaves >>> trailingZeros numLeaves) hasher.pad
      roots.reverse := by
  match roots, atLeastTwo with
  | _ :: _ :: _, _ => rfl

end RootLoop

theorem parent_of_floor (notZero : index ≠ 0) (isFloor : index = leaves.length / 2 ^ level)
    (partly : index % 2 = 0 → index * 2 ^ level < leaves.length) :
    index / 2 * 2 ^ (level + 1) < leaves.length ∧ leaves.length ≤ (index + 1) * 2 ^ level ∧
      index / 2 = leaves.length / 2 ^ (level + 1) ∧
      level + index.size = level + 1 + (index / 2).size := by
  have positive : 0 < 2 ^ level := Nat.two_pow_pos level
  have below : index * 2 ^ level ≤ leaves.length := by
    rw [isFloor]
    exact Nat.div_mul_le_self _ _
  have above : leaves.length < (index + 1) * 2 ^ level := by
    rw [isFloor, Nat.add_mul, Nat.one_mul]
    exact Nat.lt_div_mul_add positive
  have halfFloor : index / 2 = leaves.length / 2 ^ (level + 1) := by
    rw [isFloor, Nat.div_div_eq_div_mul, ← pow_succ]
  have sized : level + index.size = level + 1 + (index / 2).size := by
    rw [size_half (Nat.pos_of_ne_zero notZero)]
    omega
  have regroup : index / 2 * 2 ^ (level + 1) = 2 * (index / 2) * 2 ^ level := by ring
  refine ⟨?_, Nat.le_of_lt above, halfFloor, sized⟩
  rw [regroup]
  rcases Nat.mod_two_eq_zero_or_one index with even | odd
  · have isLeft : 2 * (index / 2) = index := by omega
    rw [isLeft]
    exact partly even
  · have isLeft : 2 * (index / 2) = index - 1 := by omega
    have atLeast : 2 ^ level ≤ index * 2 ^ level :=
      Nat.le_mul_of_pos_left _ (Nat.pos_of_ne_zero notZero)
    rw [isLeft, Nat.sub_mul, Nat.one_mul]
    omega

/-- The hash so far is the first node that is not full; the roots on its left follow. -/
theorem rootLoop_eq {bits : Nat} (small : index < 2 ^ bits)
    (isFloor : index = leaves.length / 2 ^ level)
    (partly : index % 2 = 0 → index * 2 ^ level < leaves.length) :
    rootLoop hasher bits index (hasher.nodeAt leaves level index)
        (hasher.nodesAt leaves (fullAbove 0 level index)) =
      .ok (hasher.nodeAt leaves (level + index.size) 0) := by
  induction bits generalizing level index with
  | zero =>
    have isZero : index = 0 := by omega
    rw [isZero, rootLoop_done, Nat.size_zero, Nat.add_zero]
  | succ bits inductionHypothesis =>
    by_cases isZero : index = 0
    · rw [isZero, rootLoop_done, Nat.size_zero, Nat.add_zero]
    · obtain ⟨starts, above, halfFloor, sized⟩ := parent_of_floor isZero isFloor partly
      have halfSmall : index / 2 < 2 ^ bits := by omega
      rw [sized]
      rcases Nat.mod_two_eq_zero_or_one index with even | odd
      · have parent : hasher.node (hasher.nodeAt leaves level index)
            hasher.pad = hasher.nodeAt leaves (level + 1) (index / 2) := by
          rw [← node_of_even even starts, nodeAt_eq_pad above]
        rw [rootLoop_even even isZero, parent, fullAbove_even even]
        exact inductionHypothesis halfSmall halfFloor fun _ => starts
      · rw [nodesAt_odd odd, rootLoop_odd odd, node_of_odd odd starts]
        exact inductionHypothesis halfSmall halfFloor fun _ => starts

theorem rootLevel_eq_size {shift half : Nat} (notPower : half ≠ 0) :
    rootLevel ((2 * half + 1) * 2 ^ shift) = shift + (2 * half + 1).size := by
  have sized : (2 * half + 1).size = half.size + 1 := by
    have halved : (2 * half + 1) / 2 = half := by omega
    rw [size_half (by omega), halved]
  have positive : 0 < 2 ^ shift := Nat.two_pow_pos shift
  apply rootLevel_eq
  · have less : 2 * half + 1 ≤ 2 ^ (2 * half + 1).size := Nat.le_of_lt (Nat.lt_size_self _)
    rw [pow_add, Nat.mul_comm]
    exact Nat.mul_le_mul_left _ less
  · intro _
    have least : 2 ^ (half.size - 1) ≤ half := by
      rw [← Nat.lt_size]
      have isPositive := Nat.size_pos.mpr (Nat.pos_of_ne_zero notPower)
      omega
    have exponent : shift + (half.size + 1) - 1 = shift + 1 + (half.size - 1) := by
      have isPositive := Nat.size_pos.mpr (Nat.pos_of_ne_zero notPower)
      omega
    rw [sized, exponent, pow_add]
    calc 2 ^ (shift + 1) * 2 ^ (half.size - 1)
        ≤ 2 ^ (shift + 1) * half := Nat.mul_le_mul_left _ least
      _ < 2 ^ (shift + 1) * half + 2 ^ shift := by omega
      _ = (2 * half + 1) * 2 ^ shift := by ring

theorem shiftRight_trailingZeros {number shift half : Nat}
    (isNumber : number = (2 * half + 1) * 2 ^ shift) (fits : number ≤ 2 ^ 63) :
    number >>> trailingZeros number = 2 * half + 1 := by
  have positive : 0 < 2 ^ shift := Nat.two_pow_pos shift
  have low : shift < 64 := by
    have atMost : 2 ^ shift ≤ 2 ^ 63 :=
      le_trans (Nat.le_mul_of_pos_left _ (by omega)) (isNumber ▸ fits)
    have exponent := (Nat.pow_le_pow_iff_right (by omega)).mp atMost
    omega
  rw [isNumber, trailingZeros_eq low, Nat.shiftRight_eq_div_pow, Nat.mul_div_cancel _ positive]

theorem computeRootHash_eq (fits : leaves.length ≤ 2 ^ 63) :
    computeRootHash hasher (frozenRoots hasher leaves) leaves.length =
      .ok (hasher.root leaves) := by
  by_cases isEmpty : leaves.length = 0
  · have isNil : leaves = [] := eq_nil_of_length_eq_zero isEmpty
    subst isNil
    rw [frozenRoots, length_nil, fullAbove_of_le (by omega)]
    simp [nodesAt, computeRootHash, root]
  · obtain ⟨shift, half, isCount⟩ := exists_shifted_odd (Nat.pos_of_ne_zero isEmpty)
    have positive : 0 < 2 ^ shift := Nat.two_pow_pos shift
    have shifted : fullAbove 0 0 leaves.length = fullAbove 0 shift (2 * half + 1) := by
      rw [isCount, fullAbove_shift, Nat.zero_add]
    have isFloor : 2 * half + 1 = leaves.length / 2 ^ shift := by
      rw [isCount, Nat.mul_div_cancel _ positive]
    rw [root_eq_nodeAt]
    by_cases isPower : half = 0
    · subst isPower
      have level : rootLevel leaves.length = shift := by
        rw [isCount, Nat.mul_zero, Nat.zero_add, Nat.one_mul]
        apply rootLevel_eq (le_refl _)
        intro isPositive
        exact Nat.pow_lt_pow_right (by omega) (by omega)
      rw [frozenRoots, shifted, nodesAt_odd (by omega), level, fullAbove_of_le (by omega)]
      simp [nodesAt, computeRootHash]
    · have atLeastTwo : 2 ≤ (frozenRoots hasher leaves).length := by
        have others := countOnes_pos (Nat.pos_of_ne_zero isPower)
        rw [length_frozenRoots, isCount, Nat.mul_comm,
          countOnes_two_pow_mul, countOnes_double_add_one]
        omega
      have small : 2 * half + 1 < 2 ^ 64 := by
        have atMost : 2 * half + 1 ≤ 2 ^ 63 :=
          le_trans (Nat.le_mul_of_pos_right _ positive) (isCount ▸ fits)
        omega
      have padded : hasher.pad = hasher.nodeAt leaves shift (2 * half + 1) := by
        rw [nodeAt_eq_pad (Nat.le_of_eq isCount)]
      rw [computeRootHash_of_two atLeastTwo, shiftRight_trailingZeros isCount fits, frozenRoots,
        reverse_reverse, shifted, padded, rootLoop_eq small isFloor (by omega), isCount,
        rootLevel_eq_size isPower]

theorem new_eq (fits : leaves.length ≤ 2 ^ 63) :
    new hasher (frozenRoots hasher leaves) leaves.length = .ok (ofLeaves hasher leaves) := by
  simp only [new, ensure, length_frozenRoots, if_true, ok_bind, computeRootHash_eq fits, pure_eq_ok]
  rfl

theorem append_eq (fits : leaves.length + more.length ≤ 2 ^ 63) :
    append hasher (ofLeaves hasher leaves) more = .ok (ofLeaves hasher (leaves ++ more)) := by
  have longer : (leaves ++ more).length ≤ 2 ^ 63 := by rwa [length_append]
  have appended : appendEach hasher (ofLeaves hasher leaves).frozenSubtreeRoots
      (ofLeaves hasher leaves).numLeaves more = _ := appendEach_eq fits
  rw [append, appended, ok_bind]
  simp only [new_eq longer, mapError_eq_ok]

theorem default_eq : default hasher = .ok (ofLeaves hasher []) := by
  have empty : frozenRoots hasher [] = [] := by
    rw [frozenRoots, length_nil, fullAbove_of_le (by omega)]
    rfl
  have made := @new_eq hasher [] (by simp)
  rw [empty, length_nil] at made
  rw [default, made]
  rfl

theorem fromLeaves_eq (fits : leaves.length ≤ 2 ^ 63) :
    fromLeaves hasher leaves = .ok (ofLeaves hasher leaves) := by
  rw [fromLeaves, default_eq, ok_bind, append_eq (by simpa using fits), nil_append]

end InMemoryAccumulator

end LumioNode
