import LumioNode.Library.Fallible
import LumioNode.Library.PaddedMerkle
import LumioNode.Library.Word64

/-! # Positions of accumulator nodes

A position is the in-order number of a node, a 64-bit word; `atNode level index` is the
node by its level. -/

namespace LumioNode

open Library Word64
open Nat hiding shiftLeft

def maxAccumulatorProofDepth : Nat := 63

def maxAccumulatorLeaves : Nat := 1 <<< maxAccumulatorProofDepth

structure Position where
  inorder : Nat
deriving DecidableEq, Repr

namespace Position

def isolateRightmostZeroBit (value : Nat) : Nat := Word64.not value &&& (value + 1) % 2 ^ 64

def turnOffRightMostBits (value count : Nat) : Nat := shiftLeft (value >>> count) count

variable (position : Position)

def level : Nat := trailingZeros (Word64.not position.inorder)

def isLeaf : Bool := position.inorder &&& 1 == 0

def fromLevelAndPos (level pos : Nat) : Except Fault Position := do
  ensure (level < 64) .panic
  ensure (0 < shiftLeft 1 level) .panic
  let levelOneBits := shiftLeft 1 level - 1
  let shiftedPos := if level = 63 then 0 else shiftLeft pos (level + 1)
  return ⟨shiftedPos ||| levelOneBits⟩

/-- `from_level_and_pos` at level 0, where its assertions hold. -/
def fromLeafIndex (leafIndex : Nat) : Position := ⟨shiftLeft leafIndex 1 ||| ((1 <<< 0) - 1)⟩

/-- The assertion `self.0 < u64::MAX - 1`. -/
def invariant : Except Fault Unit :=
  ensure (position.inorder < Word64.max - 1) .panic

def parent : Except Fault Position := do
  position.invariant
  let zeroBit := isolateRightmostZeroBit position.inorder
  return ⟨(position.inorder ||| zeroBit) &&& Word64.not (shiftLeft zeroBit 1)⟩

inductive NodeDirection where
  | left
  | right

def child (direction : NodeDirection) : Except Fault Position := do
  ensure (position.isLeaf = false) .panic
  position.invariant
  let zeroBit := isolateRightmostZeroBit position.inorder
  let directionBit := match direction with
    | .left => 0
    | .right => zeroBit
  return ⟨(position.inorder ||| directionBit) &&& Word64.not (zeroBit >>> 1)⟩

def leftChild : Except Fault Position := position.child .left

def rightChild : Except Fault Position := position.child .right

def isLeftChild : Except Fault Bool := do
  position.invariant
  let zeroBit := isolateRightmostZeroBit position.inorder
  return position.inorder &&& shiftLeft zeroBit 1 == 0

def isRightChild : Except Fault Bool := do
  let left ← position.isLeftChild
  return !left

def sibling : Except Fault Position := do
  position.invariant
  let zeroBit := isolateRightmostZeroBit position.inorder
  return ⟨position.inorder ^^^ shiftLeft zeroBit 1⟩

def rootFromLeafIndex (leafIndex : Nat) : Position :=
  ⟨smearOnes (fromLeafIndex leafIndex).inorder >>> 1⟩

def rootFromLeafCount (leafCount : Nat) : Except Fault Position := do
  ensure (0 < leafCount) .panic
  return rootFromLeafIndex (leafCount - 1)

def rootLevelFromLeafCount (leafCount : Nat) : Except Fault Nat := do
  ensure (0 < leafCount) .panic
  return maxAccumulatorProofDepth + 1 - leadingZeros (leafCount - 1)

def rightMostChild : Position :=
  ⟨position.inorder + (1 <<< position.level) - 1⟩

def leftMostChild : Position :=
  ⟨turnOffRightMostBits position.inorder position.level⟩

/-- The root of a full subtree, given the index of the last leaf. -/
def isFreezable (leafIndex : Nat) : Bool :=
  position.rightMostChild.inorder ≤ (fromLeafIndex leafIndex).inorder

def isPlaceholder (leafIndex : Nat) : Bool :=
  if position.inorder ≤ (fromLeafIndex leafIndex).inorder then false
  else if position.leftMostChild.inorder ≤ (fromLeafIndex leafIndex).inorder then false
  else true

/-- `iter_ancestor_sibling().take(count)`. -/
def ancestorSiblings (position : Position) : Nat → Except Fault (List Position)
  | 0 => .ok []
  | count + 1 => do
      let current ← position.sibling
      let next ← position.parent
      let rest ← next.ancestorSiblings count
      return current :: rest

/-! ## Post-order numbers -/

/-- `children_of_node`; the subtraction is checked. -/
def childrenOfNode (node : Nat) : Except Fault Nat := do
  let twice := shiftLeft (isolateRightmostZeroBit node) 1
  ensure (2 ≤ twice) .panic
  return twice - 2

def nodesToLeftOf (node : Nat) : Nat := let onesUpToLevel := isolateRightmostZeroBit node - 1
  let unsetLevelZeros := node ^^^ onesUpToLevel
  unsetLevelZeros - countOnes unsetLevelZeros

def inorderToPostorder (node : Nat) : Except Fault Nat := do
  let children ← childrenOfNode node
  return children + nodesToLeftOf node

def toPostorderIndex : Except Fault Nat := inorderToPostorder position.inorder

/-- The loop of `postorder_to_inorder` over the bits below the given one. -/
def splitNumber : Nat → Nat → Nat → Nat → Nat × Nat
  | 0, _, node, bitmap => (node, bitmap)
  | bit + 1, fullBinarySize, node, bitmap =>
    if fullBinarySize ≤ node then
      splitNumber bit (fullBinarySize >>> 1) (node - fullBinarySize) (bitmap ||| 1 <<< bit)
    else splitNumber bit (fullBinarySize >>> 1) node bitmap

def postorderToInorder (node : Nat) : Except Fault Nat := do
  let (rest, bitmap) := splitNumber 64 Word64.max node 0
  let level := rest % 2 ^ 32
  let position ← fromLevelAndPos level (bitmap >>> level)
  return position.inorder

def fromPostorderIndex (index : Nat) : Except Fault Position := do
  ensure (index < Word64.max) (.error s!"node index {index} is invalid (equal to 2^64 - 1)")
  let inorder ← postorderToInorder index
  return ⟨inorder⟩

/-! ## Nodes by level and index -/

def atNode (level index : Nat) : Position := ⟨2 ^ (level + 1) * index + (2 ^ level - 1)⟩

/-- A node of the tree with `2 ^ 63` leaves. -/
def InTree (level index : Nat) : Prop := 2 ^ (level + 1) * (index + 1) ≤ 2 ^ 64

/-- The nodes of a walk to the root: their subtrees start before the last of `2 ^ 63` leaves. -/
def Walkable (level index : Nat) : Prop := level < 63 ∧ index * 2 ^ level < 2 ^ 63 - 1

variable {level index : Nat}

theorem inorder_atNode : (atNode level index).inorder = 2 ^ (level + 1) * index + (2 ^ level - 1) :=
  rfl

theorem position_eq :
    Position.mk (index * 2 ^ level + (index * 2 ^ level + 2 ^ level - 1)) = atNode level index := by
  have positive : 0 < 2 ^ level := Nat.two_pow_pos level
  have double : 2 ^ (level + 1) * index = 2 * (index * 2 ^ level) := by ring
  apply congrArg Position.mk
  rw [double]
  omega

theorem testBit_atNode (position : Nat) : (atNode level index).inorder.testBit position =
    if position < level then true
    else if position = level then false
    else index.testBit (position - (level + 1)) := by
  have positive : 0 < 2 ^ level := Nat.two_pow_pos level
  have small : 2 ^ level - 1 < 2 ^ (level + 1) := by
    rw [pow_succ]
    omega
  rw [atNode, testBit_two_pow_mul_add index small, testBit_two_pow_sub_one]
  by_cases below : position < level
  · simp [below, lt_succ_of_lt below]
  · by_cases same : position = level
    · simp [same]
    · have above : ¬ position < level + 1 := by omega
      simp [below, same, above]

theorem walkable_of_full {count : Nat} (few : count < 2 ^ 63)
    (full : (index + 1) * 2 ^ level ≤ count) : Walkable level index := by
  have positive : 0 < 2 ^ level := Nat.two_pow_pos level
  have small : 2 ^ level < 2 ^ 63 := lt_of_le_of_lt
      (le_trans (Nat.le_mul_of_pos_left _ (succ_pos index)) full) few
  rw [Nat.add_mul] at full
  exact ⟨(Nat.pow_lt_pow_iff_right (by omega)).mp small, by omega⟩

theorem inTree_iff (low : level < 64) : InTree level index ↔ index < 2 ^ (63 - level) := by
  have split : 2 ^ 64 = 2 ^ (level + 1) * 2 ^ (63 - level) := by
    rw [← pow_add]
    congr 1
    omega
  rw [InTree, split, Nat.mul_le_mul_left_iff (Nat.two_pow_pos _), succ_le_iff]

theorem inTree_of_starts (low : level ≤ 63)
    (starts : index * 2 ^ level < 2 ^ 63) : InTree level index := by
  have split : 2 ^ 63 = 2 ^ (63 - level) * 2 ^ level := by
    rw [← pow_add]
    congr 1
    omega
  rw [split] at starts
  exact (inTree_iff (by omega)).mpr (Nat.lt_of_mul_lt_mul_right starts)

theorem InTree.inside (inTree : InTree level index) :
    (atNode level index).inorder + 1 < 2 ^ 64 := by
  have positive : 0 < 2 ^ level := Nat.two_pow_pos level
  unfold InTree at inTree
  rw [Nat.mul_add, Nat.mul_one] at inTree
  rw [inorder_atNode]
  omega

theorem InTree.level_lt (inTree : InTree level index) : level < 64 := by
  have atMost : 2 ^ (level + 1) ≤ 2 ^ 64 :=
    le_trans (Nat.le_mul_of_pos_right _ (succ_pos index)) inTree
  have exponent := (Nat.pow_le_pow_iff_right (by omega)).mp atMost
  omega

theorem InTree.leftChild (inTree : InTree (level + 1) index) : InTree level (2 * index) := by
  calc 2 ^ (level + 1) * (2 * index + 1)
      ≤ 2 ^ (level + 1) * (2 * index + 1 + 1) := Nat.mul_le_mul_left _ (le_succ _)
    _ = 2 ^ (level + 1 + 1) * (index + 1) := by ring
    _ ≤ 2 ^ 64 := inTree

theorem InTree.rightChild (inTree : InTree (level + 1) index) : InTree level (2 * index + 1) := by
  calc 2 ^ (level + 1) * (2 * index + 1 + 1)
      = 2 ^ (level + 1 + 1) * (index + 1) := by ring
    _ ≤ 2 ^ 64 := inTree

theorem InTree.parent (low : level < 63) (inTree : InTree level index) :
    InTree (level + 1) (index / 2) := by
  have double : 2 ^ (63 - level) = 2 * 2 ^ (63 - (level + 1)) := by
    rw [← pow_succ']
    congr 1
    omega
  rw [inTree_iff (by omega)] at inTree ⊢
  omega

theorem xor_one_eq (index : Nat) :
    index ^^^ 1 = if index % 2 = 0 then index + 1 else index - 1 := by
  split
  · exact xor_one_of_even (even_iff.mpr ‹_›)
  · exact xor_one_of_odd (odd_iff.mpr (by omega))

theorem div_two_pow_succ (value level : Nat) : value / 2 ^ level / 2 = value / 2 ^ (level + 1) := by
  rw [Nat.div_div_eq_div_mul, ← pow_succ]

theorem InTree.sibling (low : level < 63) (inTree : InTree level index) :
    InTree level (index ^^^ 1) := by
  have parentInTree := inTree.parent low
  rw [xor_one_eq]
  split
  · rw [show index + 1 = 2 * (index / 2) + 1 by omega]
    exact parentInTree.rightChild
  · rw [show index - 1 = 2 * (index / 2) by omega]
    exact parentInTree.leftChild

/-- Only the last leaf breaks the invariant of positions. -/
theorem InTree.fits (inTree : InTree (level + 1) index) :
    (atNode (level + 1) index).inorder < Word64.max - 1 := by
  have positive : 0 < 2 ^ level := Nat.two_pow_pos level
  unfold InTree at inTree
  rw [Nat.mul_add, Nat.mul_one] at inTree
  rw [inorder_atNode, Word64.max]
  omega

section

variable (walkable : Walkable level index)

include walkable

theorem Walkable.inTree : InTree level index := by
  apply inTree_of_starts walkable.1.le
  have starts := walkable.2
  omega

theorem Walkable.fits : (atNode level index).inorder < Word64.max - 1 := by
  cases level with
  | zero =>
    have starts := walkable.2
    have position : (atNode 0 index).inorder = 2 * index := by simp [atNode]
    rw [position, Word64.max]
    omega
  | succ level => exact walkable.inTree.fits

theorem Walkable.invariant_eq : (atNode level index).invariant = .ok () := by
  rw [invariant, ensure_eq_ok]
  exact walkable.fits

end

theorem isolateRightmostZeroBit_atNode (inTree : InTree level index) :
    isolateRightmostZeroBit (atNode level index).inorder = 2 ^ level := by
  have inside := inTree.inside
  have levelInside := inTree.level_lt
  have positive : 0 < 2 ^ level := Nat.two_pow_pos level
  have successor : (atNode level index).inorder + 1 = 2 ^ (level + 1) * index + 2 ^ level := by
    rw [inorder_atNode]
    omega
  have small : 2 ^ level < 2 ^ (level + 1) := by
    rw [pow_succ]
    omega
  apply eq_of_testBit_eq
  intro position
  rw [isolateRightmostZeroBit, mod_eq_of_lt inside, testBit_and, testBit_not (by omega),
    successor, testBit_two_pow_mul_add index small, testBit_atNode]
  by_cases below : position < level
  · have different : level ≠ position := by omega
    simp [below, different]
  · by_cases same : position = level
    · simp [same, levelInside]
    · have above : ¬ position < level + 1 := by omega
      have different : level ≠ position := by omega
      simp only [below, same, above, if_false, testBit_two_pow, different, decide_false]
      cases index.testBit (position - (level + 1)) <;> simp

theorem shiftLeft_two_pow (low : level < 63) : shiftLeft (2 ^ level) 1 = 2 ^ (level + 1) := by
  have less : 2 ^ (level + 1) < 2 ^ 64 := Nat.pow_lt_pow_right (by omega) (by omega)
  rw [shiftLeft, shiftLeft_eq, pow_one, ← pow_succ, mod_eq_of_lt less]

section

variable (walkable : Walkable level index)

include walkable

theorem parent_atNode : (atNode level index).parent = .ok (atNode (level + 1) (index / 2)) := by
  have low := walkable.1
  have inside := walkable.inTree.inside
  have bitFits : 2 ^ level < 2 ^ 64 := Nat.pow_lt_pow_right (by omega) (by omega)
  have orFits : (atNode level index).inorder ||| 2 ^ level < 2 ^ 64 :=
    or_lt_two_pow (by omega) bitFits
  simp only [parent, walkable.invariant_eq, ok_bind, isolateRightmostZeroBit_atNode walkable.inTree,
    shiftLeft_two_pow low, pure_eq_ok]
  apply congrArg Position.mk
  apply eq_of_testBit_eq
  intro position
  rw [testBit_clear orFits (by omega), testBit_or, testBit_two_pow, ← inorder_atNode,
    testBit_atNode, testBit_atNode, testBit_div_two]
  by_cases below : position < level + 1
  · by_cases isLevel : position = level
    · simp [isLevel]
    · simp [below, show position < level by omega, show position ≠ level + 1 by omega]
  · by_cases next : position = level + 1
    · simp [next]
    · have shifted : position - (level + 1 + 1) + 1 = position - (level + 1) := by omega
      simp [below, next, shifted, show ¬ position < level by omega,
        show position ≠ level by omega, show level ≠ position by omega]

theorem isLeftChild_atNode : (atNode level index).isLeftChild = .ok (decide (index % 2 = 0)) := by
  simp only [isLeftChild, walkable.invariant_eq, ok_bind,
    isolateRightmostZeroBit_atNode walkable.inTree, shiftLeft_two_pow walkable.1, pure_eq_ok]
  have lowestBit : (atNode level index).inorder.testBit (level + 1) = decide (index % 2 = 1) := by
    rw [testBit_atNode]
    simp
  rw [and_two_pow, lowestBit]
  rcases mod_two_eq_zero_or_one index with even | odd
  · simp [even]
  · simp [odd]

theorem isRightChild_atNode : (atNode level index).isRightChild = .ok (decide (index % 2 = 1)) := by
  rw [isRightChild, isLeftChild_atNode walkable, ok_bind, pure_eq_ok]
  rcases mod_two_eq_zero_or_one index with even | odd
  · simp [even]
  · simp [odd]

theorem sibling_atNode : (atNode level index).sibling = .ok (atNode level (index ^^^ 1)) := by
  simp only [sibling, walkable.invariant_eq, ok_bind,
    isolateRightmostZeroBit_atNode walkable.inTree, shiftLeft_two_pow walkable.1, pure_eq_ok]
  apply congrArg Position.mk
  apply eq_of_testBit_eq
  intro position
  rw [testBit_xor, testBit_two_pow, ← inorder_atNode, testBit_atNode, testBit_atNode]
  by_cases below : position < level + 1
  · by_cases isLevel : position = level
    · simp [isLevel]
    · simp [show position < level by omega, show level + 1 ≠ position by omega]
  · have notBelow : ¬ position < level := by omega
    have notLevel : position ≠ level := by omega
    simp only [notBelow, notLevel, if_false, testBit_xor]
    congr 1
    rw [← pow_zero 2, testBit_two_pow, decide_eq_decide]
    omega

end

theorem invariant_succ (inTree : InTree (level + 1) index) :
    (atNode (level + 1) index).invariant = .ok () := by
  rw [invariant, ensure_eq_ok]
  exact inTree.fits

theorem isLeaf_succ : (atNode (level + 1) index).isLeaf = false := by
  have odd : (atNode (level + 1) index).inorder % 2 = 1 := by
    have isOne : (atNode (level + 1) index).inorder.testBit 0 = true := by
      rw [testBit_atNode, if_pos (succ_pos level)]
    simpa using isOne
  rw [isLeaf, and_one_is_mod, odd]
  rfl

theorem clear_atNode {value : Nat} (right : Bool)
    (bits : ∀ position, value.testBit position = ((atNode (level + 1) index).inorder.testBit
      position || (right && decide (position = level + 1)))) (fits : value < 2 ^ 64)
    (low : level < 64) :
    value &&& Word64.not (2 ^ level) = (atNode level (2 * index + right.toNat)).inorder := by
  apply eq_of_testBit_eq
  intro position
  rw [testBit_clear fits low, bits, testBit_atNode, testBit_atNode]
  by_cases below : position < level + 1
  · by_cases isLevel : position = level
    · simp [isLevel]
    · simp [below, isLevel, show position < level by omega]
  · have notBelow : ¬ position < level := by omega
    have notLevel : position ≠ level := by omega
    by_cases next : position = level + 1
    · cases right <;> simp [next]
    · have shifted : position - (level + 1) = position - (level + 1 + 1) + 1 := by omega
      have half : (2 * index + right.toNat) / 2 = index := by
        have atMost := Bool.toNat_le right
        omega
      simp [below, next, notBelow, notLevel, shifted, testBit_succ, half]

theorem half_two_pow : 2 ^ (level + 1) >>> 1 = 2 ^ level := by
  rw [shiftRight_one, pow_succ]
  omega

theorem leftChild_atNode (inTree : InTree (level + 1) index) :
    (atNode (level + 1) index).leftChild = .ok (atNode level (2 * index)) := by
  have inside := inTree.inside
  have low := inTree.level_lt
  simp only [leftChild, child, isLeaf_succ, ensure, if_true, invariant_succ inTree, ok_bind,
    isolateRightmostZeroBit_atNode inTree, half_two_pow, pure_eq_ok, or_zero]
  apply congrArg Position.mk
  apply clear_atNode false _ (by omega) (by omega)
  intro position
  simp

theorem rightChild_atNode (inTree : InTree (level + 1) index) :
    (atNode (level + 1) index).rightChild = .ok (atNode level (2 * index + 1)) := by
  have inside := inTree.inside
  have low := inTree.level_lt
  have bitFits : 2 ^ (level + 1) < 2 ^ 64 := Nat.pow_lt_pow_right (by omega) (by omega)
  simp only [rightChild, child, isLeaf_succ, ensure, if_true, invariant_succ inTree, ok_bind,
    isolateRightmostZeroBit_atNode inTree, half_two_pow, pure_eq_ok]
  apply congrArg Position.mk
  apply clear_atNode true _ (or_lt_two_pow (by omega) bitFits) (by omega)
  intro position
  rw [testBit_or, testBit_two_pow]
  simp [eq_comm]

/-! ## Subtrees and their leaves -/

theorem level_atNode (inTree : InTree level index) : (atNode level index).level = level := by
  have low := inTree.level_lt
  have positive : 0 < 2 ^ level := Nat.two_pow_pos level
  have double : 2 ^ (level + 1) = 2 * 2 ^ level := pow_succ' 2 level
  have split : 2 ^ 64 = 2 * 2 ^ (63 - level) * 2 ^ level := by
    rw [← pow_succ', ← pow_add]
    congr 1
    omega
  have less : index + 1 ≤ 2 ^ (63 - level) := (inTree_iff low).mp inTree
  obtain ⟨rest, isRest⟩ := Nat.exists_eq_add_of_le less
  have complement : Word64.not (atNode level index).inorder = (2 * rest + 1) * 2 ^ level := by
    have total : 2 ^ 64 = (2 * rest + 1) * 2 ^ level + (2 ^ (level + 1) * index + 2 ^ level) := by
      rw [split, isRest, double]
      ring
    rw [Word64.not, Word64.max, inorder_atNode]
    omega
  rw [Position.level, complement, trailingZeros_eq low]

theorem atNode_injective {otherLevel otherIndex : Nat}
    (inTree : InTree level index) (otherInTree : InTree otherLevel otherIndex)
    (same : (atNode level index).inorder = (atNode otherLevel otherIndex).inorder) :
    level = otherLevel ∧ index = otherIndex := by
  have samePosition : atNode level index = atNode otherLevel otherIndex := congrArg Position.mk same
  have sameLevel : level = otherLevel := by
    rw [← level_atNode inTree, samePosition, level_atNode otherInTree]
  subst sameLevel
  refine ⟨rfl, ?_⟩
  rw [inorder_atNode, inorder_atNode] at same
  exact Nat.eq_of_mul_eq_mul_left (Nat.two_pow_pos (level + 1)) (by omega)

variable {leafIndex leafCount : Nat}

theorem inorder_fromLeafIndex (fits : leafIndex < 2 ^ 63) :
    (fromLeafIndex leafIndex).inorder = 2 * leafIndex := by
  have less : leafIndex * 2 < 2 ^ 64 := by omega
  simp only [fromLeafIndex, shiftLeft, shiftLeft_eq, pow_one, mod_eq_of_lt less]
  simp [Nat.mul_comm]

theorem fromLeafIndex_eq (fits : leafIndex < 2 ^ 63) :
    fromLeafIndex leafIndex = atNode 0 leafIndex := by
  apply congrArg Position.mk (inorder_fromLeafIndex fits) |>.trans
  simp [atNode]

theorem isFreezable_atNode (inTree : InTree level index) (fits : leafIndex < 2 ^ 63) :
    (atNode level index).isFreezable leafIndex =
      decide ((index + 1) * 2 ^ level ≤ leafIndex + 1) := by
  have positive : 0 < 2 ^ level := Nat.two_pow_pos level
  have rightMost : (atNode level index).rightMostChild.inorder + 2 =
      2 * ((index + 1) * 2 ^ level) := by
    have expand : 2 * ((index + 1) * 2 ^ level) = 2 ^ (level + 1) * index + 2 * 2 ^ level := by ring
    simp only [rightMostChild, level_atNode inTree, inorder_atNode, shiftLeft_eq, Nat.one_mul]
    omega
  rw [isFreezable, inorder_fromLeafIndex fits, decide_eq_decide]
  omega

theorem isPlaceholder_atNode (inTree : InTree level index) (fits : leafIndex < 2 ^ 63) :
    (atNode level index).isPlaceholder leafIndex = decide (leafIndex < index * 2 ^ level) := by
  have inside := inTree.inside
  have positive : 0 < 2 ^ level := Nat.two_pow_pos level
  have expand : 2 * (index * 2 ^ level) = 2 ^ (level + 1) * index := by ring
  have leftMost : (atNode level index).leftMostChild.inorder = 2 * (index * 2 ^ level) := by
    have quotient : (2 ^ (level + 1) * index + (2 ^ level - 1)) / 2 ^ level = 2 * index := by
      rw [pow_succ, Nat.mul_assoc, mul_add_div positive, div_eq_of_lt (by omega), Nat.add_zero]
    have product : 2 * index * 2 ^ level = 2 * (index * 2 ^ level) := by ring
    rw [inorder_atNode] at inside
    simp only [leftMostChild, turnOffRightMostBits, level_atNode inTree, inorder_atNode,
      shiftRight_eq_div_pow, quotient, shiftLeft, shiftLeft_eq, product]
    exact mod_eq_of_lt (by omega)
  rw [isPlaceholder, leftMost, inorder_fromLeafIndex fits, inorder_atNode]
  by_cases beyond : leafIndex < index * 2 ^ level
  · rw [if_neg (by omega), if_neg (by omega)]
    simp [beyond]
  · have second : 2 * (index * 2 ^ level) ≤ 2 * leafIndex := by omega
    rw [if_pos second]
    simp [beyond]

theorem rootFromLeafCount_eq (positive : 0 < leafCount) (fits : leafCount ≤ 2 ^ 63) :
    rootFromLeafCount leafCount = .ok (atNode (PaddedScheme.rootLevel leafCount) 0) := by
  rw [rootFromLeafCount, ensure_of positive, ok_bind, pure_eq_ok, rootFromLeafIndex,
    inorder_fromLeafIndex (by omega), smearOnes_eq (by omega)]
  apply congrArg Position.mk
  rw [shiftRight_one, PaddedScheme.rootLevel]
  by_cases isOne : leafCount - 1 = 0
  · rw [isOne]
    rfl
  · have doubled : (2 * (leafCount - 1)).size = (leafCount - 1).size + 1 := by
      have shifted := size_shiftLeft isOne 1
      rwa [shiftLeft_eq, pow_one, Nat.mul_comm] at shifted
    rw [doubled, pow_succ]
    omega

theorem rootLevelFromLeafCount_eq (positive : 0 < leafCount) (fits : leafCount ≤ 2 ^ 64) :
    rootLevelFromLeafCount leafCount = .ok (PaddedScheme.rootLevel leafCount) := by
  have sizeAtMost : (leafCount - 1).size ≤ 64 := size_le.mpr (by omega)
  rw [rootLevelFromLeafCount, ensure_of positive, ok_bind, pure_eq_ok,
    leadingZeros, maxAccumulatorProofDepth, PaddedScheme.rootLevel]
  omega

/-- In post-order a node follows its subtree and the full subtrees on its left. -/
theorem toPostorderIndex_atNode (low : level < 63) (inTree : InTree level index) :
    (atNode level index).toPostorderIndex = .ok (2 ^ (level + 1) - 2 +
      (2 ^ (level + 1) * index - countOnes index)) := by
  have positive : 0 < 2 ^ level := Nat.two_pow_pos level
  have atLeast : 2 ≤ 2 ^ (level + 1) := by omega
  have unset : (atNode level index).inorder ^^^ (2 ^ level - 1) = 2 ^ (level + 1) * index := by
    apply eq_of_testBit_eq
    intro position
    rw [testBit_xor, testBit_atNode, testBit_two_pow_sub_one, testBit_two_pow_mul]
    by_cases below : position < level
    · simp [below, show ¬ level + 1 ≤ position by omega]
    · by_cases isLevel : position = level
      · simp [isLevel]
      · simp [below, isLevel, show level + 1 ≤ position by omega]
  simp only [toPostorderIndex, inorderToPostorder, childrenOfNode, nodesToLeftOf,
    isolateRightmostZeroBit_atNode inTree, shiftLeft_two_pow low, ensure_of atLeast, unset, ok_bind,
    countOnes_two_pow_mul]
  rfl

end Position

end LumioNode
