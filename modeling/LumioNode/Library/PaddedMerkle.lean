import Mathlib.Data.Nat.Size
import Mathlib.Data.List.Basic
import Mathlib.Tactic.Ring

/-! # Padded Merkle trees

A tree filled up on the right: a subtree without leaves is the padding.  The maximal
full subtrees are those of the set bits of the number of leaves. -/

namespace LumioNode.Library

open List Nat

structure PaddedScheme (η : Type) where
  node : η → η → η
  pad : η

namespace PaddedScheme

variable {η : Type} (scheme : PaddedScheme η)

def padded : Nat → List η → η
  | _, [] => scheme.pad
  | 0, leaf :: _ => leaf
  | level + 1, leaves => scheme.node
      (padded level (leaves.take (2 ^ level)))
      (padded level (leaves.drop (2 ^ level)))

/-- The level of the smallest tree that holds `count` leaves. -/
def rootLevel (count : Nat) : Nat := (count - 1).size

def root (leaves : List η) : η := scheme.padded (rootLevel leaves.length) leaves

def nodeAt (leaves : List η) (level index : Nat) : η :=
  scheme.padded level ((leaves.drop (index * 2 ^ level)).take (2 ^ level))

def nodesAt (leaves : List η) (nodes : List (Nat × Nat)) : List η :=
  nodes.map fun node => scheme.nodeAt leaves node.1 node.2

variable {scheme} {leaves more : List η} {level index : Nat}

@[simp]
theorem padded_nil : scheme.padded level [] = scheme.pad := by
  unfold padded
  rfl

theorem padded_succ (notEmpty : leaves ≠ []) : scheme.padded (level + 1) leaves = scheme.node
    (scheme.padded level (leaves.take (2 ^ level)))
    (scheme.padded level (leaves.drop (2 ^ level))) := by
  rw [padded]
  exact notEmpty

theorem nodeAt_eq_pad (beyond : leaves.length ≤ index * 2 ^ level) :
    scheme.nodeAt leaves level index = scheme.pad := by
  rw [nodeAt, drop_eq_nil_of_le beyond, take_nil, padded_nil]

variable {node : Nat × Nat} {leaf : η}

theorem nodeAt_zero (found : leaves[index]? = some leaf) : scheme.nodeAt leaves 0 index = leaf := by
  obtain ⟨inside, isLeaf⟩ := List.getElem?_eq_some_iff.mp found
  rw [nodeAt, pow_zero, Nat.mul_one, drop_eq_getElem_cons inside, isLeaf]
  rfl

theorem nodeAt_succ (inside : index * 2 ^ (level + 1) < leaves.length) :
    scheme.nodeAt leaves (level + 1) index = scheme.node (scheme.nodeAt leaves level (2 * index))
      (scheme.nodeAt leaves level (2 * index + 1)) := by
  have positive : 0 < 2 ^ (level + 1) := Nat.two_pow_pos _
  have leftStart : 2 * index * 2 ^ level = index * 2 ^ (level + 1) := by ring
  have rightStart : (2 * index + 1) * 2 ^ level = index * 2 ^ (level + 1) + 2 ^ level := by ring
  have notEmpty : (leaves.drop (index * 2 ^ (level + 1))).take (2 ^ (level + 1)) ≠ [] := by
    intro isEmpty
    have noLength := congrArg List.length isEmpty
    rw [length_take, length_drop, length_nil] at noLength
    omega
  rw [nodeAt, padded_succ notEmpty, nodeAt, nodeAt, leftStart, rightStart,
    take_take, drop_take, drop_drop]
  congr 3 <;> omega

/-- A right child and the sibling on its left. -/
theorem node_of_odd (odd : index % 2 = 1) (inside : index / 2 * 2 ^ (level + 1) < leaves.length) :
    scheme.node (scheme.nodeAt leaves level (index - 1)) (scheme.nodeAt leaves level index) =
      scheme.nodeAt leaves (level + 1) (index / 2) := by
  have isLeft : 2 * (index / 2) = index - 1 := by omega
  have isRight : 2 * (index / 2) + 1 = index := by omega
  rw [nodeAt_succ inside, isRight, isLeft]

theorem node_of_even (even : index % 2 = 0) (inside : index / 2 * 2 ^ (level + 1) < leaves.length) :
    scheme.node (scheme.nodeAt leaves level index) (scheme.nodeAt leaves level (index + 1)) =
      scheme.nodeAt leaves (level + 1) (index / 2) := by
  have isLeft : 2 * (index / 2) = index := by omega
  rw [nodeAt_succ inside, isLeft]

theorem half_mul (even : index % 2 = 0) (level : Nat) :
    index / 2 * 2 ^ (level + 1) = index * 2 ^ level := by
  rw [pow_succ', ← Nat.mul_assoc]
  congr 1
  omega

/-- A right child ends where its parent ends. -/
theorem ends_of_odd (odd : index % 2 = 1) (level : Nat) :
    (index / 2 + 1) * 2 ^ (level + 1) = (index + 1) * 2 ^ level := by
  have half : (index + 1) / 2 = index / 2 + 1 := by omega
  rw [← half, half_mul (by omega)]

theorem starts_half (index level : Nat) : index / 2 * 2 ^ (level + 1) ≤ index * 2 ^ level := by
  rw [pow_succ', ← Nat.mul_assoc]
  exact Nat.mul_le_mul_right _ (div_mul_le_self index 2)

theorem nodeAt_append (full : (index + 1) * 2 ^ level ≤ leaves.length) :
    scheme.nodeAt (leaves ++ more) level index = scheme.nodeAt leaves level index := by
  have expand : (index + 1) * 2 ^ level = index * 2 ^ level + 2 ^ level := by ring
  have positive : 0 < 2 ^ level := Nat.two_pow_pos _
  have dropped : (leaves ++ more).drop (index * 2 ^ level) =
      leaves.drop (index * 2 ^ level) ++ more :=
    drop_append_of_le_length (by omega)
  have taken : (leaves.drop (index * 2 ^ level) ++ more).take (2 ^ level) =
      (leaves.drop (index * 2 ^ level)).take (2 ^ level) :=
    take_append_of_le_length (by rw [length_drop]; omega)
  rw [nodeAt, dropped, taken, nodeAt]

theorem le_two_pow_rootLevel (count : Nat) : count ≤ 2 ^ rootLevel count := by
  have less := lt_size_self (count - 1)
  unfold rootLevel
  omega

theorem rootLevel_eq {count : Nat} (fits : count ≤ 2 ^ level)
    (needed : 0 < level → 2 ^ (level - 1) < count) : rootLevel count = level := by
  have positive : 0 < 2 ^ level := Nat.two_pow_pos level
  apply le_antisymm
  · exact size_le.mpr (by omega)
  · by_cases isZero : level = 0
    · omega
    · have least : 2 ^ (level - 1) ≤ count - 1 := by omega
      have less := lt_size.mpr least
      unfold rootLevel
      omega

/-- No full subtree is higher than the tree. -/
theorem le_rootLevel_of_full {count : Nat}
    (full : (index + 1) * 2 ^ level ≤ count) : level ≤ rootLevel count := by
  have atLeast : 2 ^ level ≤ (index + 1) * 2 ^ level :=
    Nat.le_mul_of_pos_left _ (succ_pos index)
  exact (Nat.pow_le_pow_iff_right (by omega)).mp
    (le_trans (le_trans atLeast full) (le_two_pow_rootLevel count))

theorem root_eq_nodeAt : scheme.root leaves = scheme.nodeAt leaves (rootLevel leaves.length) 0 := by
  have covers := le_two_pow_rootLevel leaves.length
  rw [root, nodeAt, Nat.zero_mul, drop_zero, take_of_length_le covers]

/-- The maximal full subtrees among the first `count` nodes of a level beyond the first `floor`
leaves, the lowest first. -/
def fullAbove (floor : Nat) (level count : Nat) : List (Nat × Nat) :=
  if count * 2 ^ level ≤ floor then []
  else if count % 2 = 1 then
    (level, count - 1) :: fullAbove floor (level + 1) (count / 2)
  else fullAbove floor (level + 1) (count / 2)
termination_by count
decreasing_by all_goals
    rename_i above _
    have positive : 0 < count := by
      apply Nat.pos_of_ne_zero
      intro isZero
      rw [isZero, Nat.zero_mul] at above
      omega
    omega

variable {floor count : Nat}

theorem fullAbove_of_le (atMost : count * 2 ^ level ≤ floor) :
    fullAbove floor level count = [] := by
  rw [fullAbove, if_pos atMost]

theorem fullAbove_odd (above : floor < count * 2 ^ level) (odd : count % 2 = 1) :
    fullAbove floor level count =
      (level, count - 1) :: fullAbove floor (level + 1) (count / 2) := by
  rw [fullAbove, if_neg (Nat.not_le.mpr above), if_pos odd]

theorem fullAbove_even (even : count % 2 = 0) : fullAbove floor level count =
    fullAbove floor (level + 1) (count / 2) := by
  by_cases atMost : count * 2 ^ level ≤ floor
  · rw [fullAbove_of_le atMost, fullAbove_of_le (half_mul even level ▸ atMost)]
  · rw [fullAbove, if_neg atMost, if_neg (by omega)]

theorem fullAbove_shift (shift : Nat) : fullAbove floor level (count * 2 ^ shift) =
    fullAbove floor (level + shift) count := by
  induction shift generalizing level with
  | zero => rw [pow_zero, Nat.mul_one, Nat.add_zero]
  | succ shift inductionHypothesis =>
    have double : count * 2 ^ (shift + 1) = 2 * (count * 2 ^ shift) := by ring
    have half : 2 * (count * 2 ^ shift) / 2 = count * 2 ^ shift := by omega
    rw [double, fullAbove_even (by omega), half, inductionHypothesis]
    congr 1
    omega

theorem mem_fullAbove (member : node ∈ fullAbove floor level count) :
    (node.2 + 1) * 2 ^ node.1 ≤ count * 2 ^ level ∧ floor < (node.2 + 1) * 2 ^ node.1 := by
  induction count using Nat.strong_induction_on generalizing level with
  | h count inductionHypothesis =>
    by_cases atMost : count * 2 ^ level ≤ floor
    · rw [fullAbove_of_le atMost] at member
      cases member
    · have positive : 0 < count := by
        apply Nat.pos_of_ne_zero
        intro isZero
        rw [isZero, Nat.zero_mul] at atMost
        omega
      have above (inRest : node ∈ fullAbove floor (level + 1) (count / 2)) :
          (node.2 + 1) * 2 ^ node.1 ≤ count * 2 ^ level ∧ floor < (node.2 + 1) * 2 ^ node.1 := by
        have fromRest := inductionHypothesis (count / 2) (by omega) inRest
        exact ⟨le_trans fromRest.1 (starts_half count level), fromRest.2⟩
      rcases mod_two_eq_zero_or_one count with even | odd
      · rw [fullAbove_even even] at member
        exact above member
      · rw [fullAbove_odd (by omega) odd] at member
        rcases mem_cons.mp member with isHead | inRest
        · rw [isHead]
          have same : count - 1 + 1 = count := by omega
          simp only [same]
          exact ⟨le_refl _, by omega⟩
        · exact above inRest

theorem nodesAt_append : scheme.nodesAt (leaves ++ more) (fullAbove floor 0 leaves.length) =
    scheme.nodesAt leaves (fullAbove floor 0 leaves.length) := by
  apply map_congr_left
  intro node member
  have full := (mem_fullAbove member).1
  rw [pow_zero, Nat.mul_one] at full
  exact nodeAt_append full

theorem nodesAt_odd (odd : index % 2 = 1) : scheme.nodesAt leaves (fullAbove 0 level index) =
    scheme.nodeAt leaves level (index - 1) ::
      scheme.nodesAt leaves (fullAbove 0 (level + 1) (index / 2)) := by
  have positive : 0 < index * 2 ^ level := Nat.mul_pos (by omega) (Nat.two_pow_pos level)
  rw [fullAbove_odd positive odd]
  rfl

theorem fullAbove_succ (even : count % 2 = 0) (above : floor < (count + 1) * 2 ^ level) :
    fullAbove floor level (count + 1) = (level, count) :: fullAbove floor level count := by
  have half : (count + 1) / 2 = count / 2 := by omega
  rw [fullAbove_odd above (by omega), half, fullAbove_even even]
  rfl

/-- Maximal full subtrees beyond an aligned floor come before those up to it. -/
theorem fullAbove_split {shift half : Nat} (atLeast : half * 2 ^ shift ≤ count)
    (less : count < (half + 1) * 2 ^ shift) :
    fullAbove 0 level count = fullAbove (half * 2 ^ (level + shift)) level count ++
        fullAbove 0 (level + shift) half := by
  induction shift generalizing level count with
  | zero =>
    have isCount : count = half := by omega
    rw [isCount, Nat.add_zero, fullAbove_of_le (le_refl _), nil_append]
  | succ shift inductionHypothesis =>
    have doubleLow : half * 2 ^ (shift + 1) = 2 * (half * 2 ^ shift) := by ring
    have doubleHigh : (half + 1) * 2 ^ (shift + 1) = 2 * ((half + 1) * 2 ^ shift) := by ring
    have split := @inductionHypothesis (level + 1) (count / 2) (by omega) (by omega)
    have sum : level + 1 + shift = level + (shift + 1) := by omega
    rw [sum] at split
    rcases mod_two_eq_zero_or_one count with even | odd
    · rw [fullAbove_even even, split, fullAbove_even even]
    · have above : half * 2 ^ (level + (shift + 1)) < count * 2 ^ level := by
        have regroup : half * 2 ^ (level + (shift + 1)) = half * 2 ^ (shift + 1) * 2 ^ level := by
          rw [pow_add]
          ring
        rw [regroup]
        exact Nat.mul_lt_mul_of_pos_right (by omega) (Nat.two_pow_pos level)
      rw [fullAbove_odd (by omega) odd, split, fullAbove_odd above odd, cons_append]

/-- The highest maximal full subtree beyond an aligned floor is next to it. -/
theorem fullAbove_floor {shift half : Nat} (atLeast : (2 * half + 1) * 2 ^ shift ≤ count)
    (less : count < (2 * half + 2) * 2 ^ shift) :
    fullAbove (2 * half * 2 ^ shift) 0 count =
      fullAbove ((2 * half + 1) * 2 ^ shift) 0 count ++ [(shift, 2 * half)] := by
  have start : half * 2 ^ (shift + 1) = 2 * half * 2 ^ shift := by ring
  have stop : (half + 1) * 2 ^ (shift + 1) = (2 * half + 2) * 2 ^ shift := by ring
  have wider : 2 * half * 2 ^ shift ≤ (2 * half + 1) * 2 ^ shift :=
    Nat.mul_le_mul_right _ (le_succ _)
  have above : 0 < (2 * half + 1) * 2 ^ shift := Nat.mul_pos (by omega) (Nat.two_pow_pos _)
  have halved : (2 * half + 1) / 2 = half := by omega
  have whole := @fullAbove_split 0 count (shift + 1) half (by omega) (by omega)
  have parts := @fullAbove_split 0 count shift (2 * half + 1) atLeast less
  rw [Nat.zero_add, start] at whole
  rw [Nat.zero_add, fullAbove_odd above (by omega), halved, whole, append_cons] at parts
  exact append_cancel_right parts

/-- The first node beyond an aligned floor has the highest bit of what is left. -/
theorem fullAbove_highest {left : Nat} (isTotal : floor + left = count)
    (aligned : 2 ^ left.size ∣ floor) (notZero : left ≠ 0) :
    ∃ bit rest half, left = 2 ^ bit + rest ∧ rest < 2 ^ bit ∧
      left.size = bit + 1 ∧ floor = 2 * half * 2 ^ bit ∧
      2 ^ rest.size ∣ (2 * half + 1) * 2 ^ bit ∧
      (2 * half + 1) * 2 ^ bit + rest = count ∧
      fullAbove floor 0 count =
        fullAbove ((2 * half + 1) * 2 ^ bit) 0 count ++ [(bit, 2 * half)] := by
  have notEmpty : 0 < left.size := size_pos.mpr (Nat.pos_of_ne_zero notZero)
  obtain ⟨bit, isBit⟩ : ∃ bit, left.size = bit + 1 := ⟨left.size - 1, by omega⟩
  have double : 2 ^ (bit + 1) = 2 * 2 ^ bit := pow_succ' 2 bit
  have atLeast : 2 ^ bit ≤ left := lt_size.mp (by omega)
  have less : left < 2 ^ (bit + 1) := size_le.mp (by omega)
  obtain ⟨rest, isRest⟩ := Nat.exists_eq_add_of_le atLeast
  obtain ⟨half, isHalf⟩ := aligned
  have isFloor : floor = 2 * half * 2 ^ bit := by
    rw [isHalf, isBit, double]
    ring
  have upper : (2 * half + 1) * 2 ^ bit = floor + 2 ^ bit := by
    rw [isFloor]
    ring
  have further : (2 * half + 2) * 2 ^ bit = floor + 2 * 2 ^ bit := by
    rw [isFloor]
    ring
  have restSize : rest.size ≤ bit := size_le.mpr (by omega)
  have split := @fullAbove_floor count bit half (by omega) (by omega)
  rw [← isFloor] at split
  exact ⟨bit, rest, half, isRest, by omega, isBit, isFloor,
    Dvd.dvd.mul_left (Nat.pow_dvd_pow 2 restSize) _, by omega, split⟩

theorem exists_mem_fullAbove {leaf : Nat} (inside : leaf < count * 2 ^ level) :
    ∃ node ∈ fullAbove 0 level count,
      node.2 * 2 ^ node.1 ≤ leaf ∧ leaf < (node.2 + 1) * 2 ^ node.1 := by
  induction count using Nat.strong_induction_on generalizing level with
  | h count inductionHypothesis =>
    have positive : 0 < count := by
      apply Nat.pos_of_ne_zero
      intro isZero
      rw [isZero, Nat.zero_mul] at inside
      omega
    have smaller : count / 2 < count := by omega
    rcases mod_two_eq_zero_or_one count with even | odd
    · rw [fullAbove_even even]
      exact inductionHypothesis _ smaller (half_mul even level ▸ inside)
    · have sameLeaves := half_mul (show (count - 1) % 2 = 0 by omega) level
      have halved : (count - 1) / 2 = count / 2 := by omega
      rw [halved] at sameLeaves
      have same : count - 1 + 1 = count := by omega
      rw [fullAbove_odd (by omega) odd]
      by_cases inLast : (count - 1) * 2 ^ level ≤ leaf
      · refine ⟨(level, count - 1), mem_cons_self, inLast, ?_⟩
        rwa [same]
      · obtain ⟨node, member, covers⟩ := @inductionHypothesis _ smaller (level + 1) (by omega)
        exact ⟨node, mem_cons_of_mem _ member, covers⟩

/-- The full subtrees that end with a given node, from that node upwards. -/
def completed (level index : Nat) : List (Nat × Nat) := if index % 2 = 1 then
    (level, index) :: completed (level + 1) (index / 2)
  else [(level, index)]
termination_by index
decreasing_by omega

theorem completed_odd (odd : index % 2 = 1) : completed level index =
    (level, index) :: completed (level + 1) (index / 2) := by
  rw [completed, if_pos odd]

theorem completed_even (even : index % 2 = 0) : completed level index = [(level, index)] := by
  rw [completed, if_neg (by omega)]

theorem completed_eq_cons (level index : Nat) :
    completed level index = (level, index) :: (completed level index).tail := by
  rcases mod_two_eq_zero_or_one index with even | odd
  · rw [completed_even even]
    rfl
  · rw [completed_odd odd]
    rfl

theorem mem_completed : node ∈ completed level index ↔
    level ≤ node.1 ∧ (node.2 + 1) * 2 ^ node.1 = (index + 1) * 2 ^ level := by
  induction index using Nat.strong_induction_on generalizing level with
  | h index inductionHypothesis =>
    have split : level ≤ node.1 ∧ (node.2 + 1) * 2 ^ node.1 = (index + 1) * 2 ^ level ↔
        node = (level, index) ∨
          level + 1 ≤ node.1 ∧ (node.2 + 1) * 2 ^ node.1 = (index + 1) * 2 ^ level := by
      constructor
      · rintro ⟨atLeast, sameLeaves⟩
        rcases eq_or_lt_of_le atLeast with sameLevel | above
        · rw [← sameLevel, Nat.mul_left_inj (Nat.two_pow_pos level).ne'] at sameLeaves
          exact .inl (Prod.ext sameLevel.symm (by omega))
        · exact .inr ⟨above, sameLeaves⟩
      · rintro (rfl | ⟨above, sameLeaves⟩)
        · exact ⟨le_refl _, rfl⟩
        · exact ⟨by omega, sameLeaves⟩
    rw [split]
    rcases mod_two_eq_zero_or_one index with even | odd
    · rw [completed_even even, mem_singleton, or_iff_left]
      rintro ⟨above, sameLeaves⟩
      obtain ⟨higher, isHigher⟩ := Nat.exists_eq_add_of_le above
      have double : (node.2 + 1) * 2 ^ node.1 = 2 * ((node.2 + 1) * 2 ^ higher) * 2 ^ level := by
        rw [isHigher, pow_add, pow_succ]
        ring
      rw [double, Nat.mul_left_inj (Nat.two_pow_pos level).ne'] at sameLeaves
      omega
    · rw [completed_odd odd, mem_cons, inductionHypothesis (index / 2) (by omega), ends_of_odd odd]

/-- The full subtrees that end with one of the given leaves. -/
def completedBy (first count : Nat) : List (Nat × Nat) :=
  (List.range' first count).flatMap (completed 0)

theorem completedBy_succ (first : Nat) : completedBy first (count + 1) =
    completed 0 first ++ completedBy (first + 1) count := by
  rw [completedBy, List.range'_succ, flatMap_cons]
  rfl

theorem completedBy_add (first more : Nat) : completedBy first (count + more) =
    completedBy first count ++ completedBy (first + count) more := by
  rw [completedBy, ← List.range'_append_1, flatMap_append]
  rfl

theorem mem_completedBy {first : Nat} : node ∈ completedBy first count ↔
    first < (node.2 + 1) * 2 ^ node.1 ∧ (node.2 + 1) * 2 ^ node.1 ≤ first + count := by
  rw [completedBy, mem_flatMap]
  constructor
  · rintro ⟨leaf, isLeaf, member⟩
    have sameLeaves := (mem_completed.mp member).2
    rw [mem_range'_1] at isLeaf
    omega
  · rintro ⟨above, atMost⟩
    refine ⟨(node.2 + 1) * 2 ^ node.1 - 1, ?_, ?_⟩
    · rw [mem_range'_1]
      omega
    · rw [mem_completed, pow_zero, Nat.mul_one]
      omega

variable (scheme) in
/-- The pairs that are hashed for the tree of a list of leaves. -/
def IsInput (leaves : List η) (pair : η × η) : Prop :=
  ∃ level index, level < rootLevel leaves.length ∧ index * 2 ^ (level + 1) < leaves.length ∧
    pair = (scheme.nodeAt leaves level (2 * index), scheme.nodeAt leaves level (2 * index + 1))

theorem not_isInput_of_single {leaves : List η} (isSingle : leaves.length = 1) {pair : η × η} :
    ¬ scheme.IsInput leaves pair := by
  rintro ⟨level, index, low, _⟩
  have noLevels : rootLevel leaves.length = 0 := by
    rw [isSingle]
    rfl
  omega

variable (scheme) in
/-- Different pairs in use have different hashes, which are no leaves and no padding. -/
structure CollisionFree (isLeaf : η → Prop) (isUsed : η × η → Prop) : Prop where
  injective : ∀ {first second}, isUsed first → isUsed second →
    scheme.node first.1 first.2 = scheme.node second.1 second.2 → first = second
  leafApart : ∀ {leaf pair}, isLeaf leaf → isUsed pair → scheme.node pair.1 pair.2 ≠ leaf
  padApart : ∀ {pair}, isUsed pair → scheme.node pair.1 pair.2 ≠ scheme.pad
  leafNotPad : ∀ {leaf}, isLeaf leaf → leaf ≠ scheme.pad

section CollisionFree

variable {isLeaf : η → Prop} {isUsed : η × η → Prop}
  (collisionFree : scheme.CollisionFree isLeaf isUsed)
  (leavesAreLeaves : ∀ leaf ∈ leaves, isLeaf leaf)
  (treeIsUsed : ∀ pair, scheme.IsInput leaves pair → isUsed pair)

theorem CollisionFree.mono {isLess : η → Prop} {isFewer : η × η → Prop}
    (collisionFree : scheme.CollisionFree isLeaf isUsed)
    (leaves : ∀ {leaf}, isLess leaf → isLeaf leaf)
    (pairs : ∀ {pair}, isFewer pair → isUsed pair) :
    scheme.CollisionFree isLess isFewer where
  injective isFirst isSecond := collisionFree.injective (pairs isFirst) (pairs isSecond)
  leafApart isALeaf isPair := collisionFree.leafApart (leaves isALeaf) (pairs isPair)
  padApart isPair := collisionFree.padApart (pairs isPair)
  leafNotPad isALeaf := collisionFree.leafNotPad (leaves isALeaf)

include collisionFree treeIsUsed

theorem leaf_of_eq_nodeAt (isALeaf : isLeaf leaf) (low : level ≤ rootLevel leaves.length)
    (same : leaf = scheme.nodeAt leaves level index) : level = 0 ∧ leaves[index]? = some leaf := by
  by_cases beyond : leaves.length ≤ index * 2 ^ level
  · rw [nodeAt_eq_pad beyond] at same
    exact absurd same (collisionFree.leafNotPad isALeaf)
  · cases level with
    | zero =>
      rw [pow_zero, Nat.mul_one] at beyond
      have found := List.getElem?_eq_getElem (Nat.lt_of_not_le beyond)
      rw [nodeAt_zero found] at same
      exact ⟨rfl, by rw [found, same]⟩
    | succ level =>
      rw [nodeAt_succ (Nat.lt_of_not_le beyond)] at same
      have isInput : isUsed (scheme.nodeAt leaves level (2 * index),
          scheme.nodeAt leaves level (2 * index + 1)) :=
        treeIsUsed _ ⟨level, index, by omega, Nat.lt_of_not_le beyond, rfl⟩
      exact absurd same.symm (collisionFree.leafApart isALeaf isInput)

include leavesAreLeaves

theorem children_of_eq_nodeAt {pair : η × η} (isUsedPair : isUsed pair)
    (low : level ≤ rootLevel leaves.length)
    (same : scheme.node pair.1 pair.2 = scheme.nodeAt leaves level index) :
    ∃ below, level = below + 1 ∧ index * 2 ^ level < leaves.length ∧
      pair = (scheme.nodeAt leaves below (2 * index),
        scheme.nodeAt leaves below (2 * index + 1)) := by
  by_cases beyond : leaves.length ≤ index * 2 ^ level
  · rw [nodeAt_eq_pad beyond] at same
    exact absurd same (collisionFree.padApart isUsedPair)
  · have inside := Nat.lt_of_not_le beyond
    cases level with
    | zero =>
      rw [pow_zero, Nat.mul_one] at inside
      have found := List.getElem?_eq_getElem inside
      rw [nodeAt_zero found] at same
      have isALeaf : isLeaf leaves[index] := leavesAreLeaves _ (getElem_mem inside)
      exact absurd same (collisionFree.leafApart isALeaf isUsedPair)
    | succ below =>
      refine ⟨below, rfl, inside, ?_⟩
      rw [nodeAt_succ inside] at same
      have isInput : isUsed (scheme.nodeAt leaves below (2 * index),
          scheme.nodeAt leaves below (2 * index + 1)) :=
        treeIsUsed _ ⟨below, index, by omega, inside, rfl⟩
      exact collisionFree.injective isUsedPair isInput same

variable (leavesUsed : ∀ pair, scheme.IsInput leaves pair → isUsed pair)

include leavesUsed

omit leavesAreLeaves treeIsUsed in
theorem leaves_eq_of_nodeAt_eq {others : List η}
    (othersUsed : ∀ pair, scheme.IsInput others pair → isUsed pair)
    (low : level ≤ rootLevel leaves.length) (lowInOthers : level ≤ rootLevel others.length)
    (samePositions : ∀ leaf, index * 2 ^ level ≤ leaf → leaf < (index + 1) * 2 ^ level →
      (leaf < leaves.length ↔ leaf < others.length))
    (same : scheme.nodeAt leaves level index = scheme.nodeAt others level index) {leaf : Nat}
    (after : index * 2 ^ level ≤ leaf) (below : leaf < (index + 1) * 2 ^ level) :
    leaves[leaf]? = others[leaf]? := by
  induction level generalizing index with
  | zero =>
    have isIndex : leaf = index := by omega
    subst isIndex
    by_cases inside : leaf < leaves.length
    · have insideOthers := (samePositions leaf after below).mp inside
      have found := List.getElem?_eq_getElem inside
      have foundOther := List.getElem?_eq_getElem insideOthers
      rw [nodeAt_zero found, nodeAt_zero foundOther] at same
      rw [found, foundOther, same]
    · have outside := inside ∘ (samePositions leaf after below).mpr
      rw [List.getElem?_eq_none (Nat.le_of_not_lt inside),
        List.getElem?_eq_none (Nat.le_of_not_lt outside)]
  | succ level inductionHypothesis =>
    have start : index * 2 ^ (level + 1) = 2 * index * 2 ^ level := by ring
    have middle : (2 * index + 1) * 2 ^ level = 2 * index * 2 ^ level + 2 ^ level := by ring
    have stop : (index + 1) * 2 ^ (level + 1) =
        2 * index * 2 ^ level + 2 ^ level + 2 ^ level := by ring
    have last : (2 * index + 1 + 1) * 2 ^ level =
        2 * index * 2 ^ level + 2 ^ level + 2 ^ level := by ring
    by_cases starts : index * 2 ^ (level + 1) < leaves.length
    · have startsOthers : index * 2 ^ (level + 1) < others.length :=
        (samePositions _ (le_refl _) (by omega)).mp starts
      rw [nodeAt_succ starts, nodeAt_succ startsOthers] at same
      have sameChildren := collisionFree.injective
        (leavesUsed _ ⟨level, index, by omega, starts, rfl⟩)
        (othersUsed _ ⟨level, index, by omega, startsOthers, rfl⟩) same
      obtain ⟨sameLeft, sameRight⟩ := Prod.mk.inj sameChildren
      by_cases isLeft : leaf < (2 * index + 1) * 2 ^ level
      · apply inductionHypothesis (by omega) (by omega) _ sameLeft (by omega) isLeft
        intro other atLeast less
        exact samePositions other (by omega) (by omega)
      · apply inductionHypothesis (by omega) (by omega) _ sameRight (by omega) (by omega)
        intro other atLeast less
        exact samePositions other (by omega) (by omega)
    · have outside : ¬ leaf < leaves.length := by omega
      have outsideOthers := outside ∘ (samePositions leaf after below).mpr
      rw [List.getElem?_eq_none (Nat.le_of_not_lt outside),
        List.getElem?_eq_none (Nat.le_of_not_lt outsideOthers)]

omit leavesAreLeaves treeIsUsed in
theorem eq_of_root_eq {others : List η}
    (othersUsed : ∀ pair, scheme.IsInput others pair → isUsed pair)
    (sameLength : leaves.length = others.length)
    (same : scheme.root leaves = scheme.root others) : leaves = others := by
  rw [root_eq_nodeAt, root_eq_nodeAt, ← sameLength] at same
  apply ext_getElem?
  intro index
  by_cases inside : index < leaves.length
  · have covered := le_two_pow_rootLevel leaves.length
    apply leaves_eq_of_nodeAt_eq collisionFree leavesUsed othersUsed
      (le_refl _) (by rw [sameLength]) _ same (by omega) (by omega)
    intro leaf _ _
    rw [sameLength]
  · rw [List.getElem?_eq_none (by omega), List.getElem?_eq_none (by omega)]

end CollisionFree

end PaddedScheme

end LumioNode.Library
