import Mathlib.Data.List.Nodup
import Mathlib.Data.List.Perm.Basic

/-! # Compressed sparse Merkle trees

An empty subtree has a fixed root, a subtree with one entry is its leaf, and every other
one is the node of its halves. -/

namespace LumioNode.Library

open List

/-- What is hashed: a leaf or the two children of a node. -/
inductive MerkleInput (κ ν η : Type) where
  | leaf (key : κ) (value : ν)
  | node (left right : η)
deriving DecidableEq

structure SparseScheme (κ ν η : Type) where
  bit : κ → Nat → Bool
  hash : MerkleInput κ ν η → η
  empty : η

namespace SparseScheme

variable {κ ν η : Type} (scheme : SparseScheme κ ν η)

def side (depth : Nat) (right : Bool) (entries : List (κ × ν)) : List (κ × ν) :=
  entries.filter fun entry => scheme.bit entry.1 depth == right

/-- The root of entries whose keys agree on `depth` bits; `height` bits are left. -/
def root : Nat → Nat → List (κ × ν) → η
  | _, _, [] => scheme.empty
  | _, _, [entry] => scheme.hash (.leaf entry.1 entry.2)
  | 0, _, _ => scheme.empty
  | height + 1, depth, entries => scheme.hash (.node
      (root height (depth + 1) (scheme.side depth false entries))
      (root height (depth + 1) (scheme.side depth true entries)))

/-- What is hashed on the way to the root. -/
def inputs : Nat → Nat → List (κ × ν) → List (MerkleInput κ ν η)
  | _, _, [] => []
  | _, _, [entry] => [.leaf entry.1 entry.2]
  | 0, _, _ => []
  | height + 1, depth, entries =>
    .node (scheme.root height (depth + 1) (scheme.side depth false entries))
        (scheme.root height (depth + 1) (scheme.side depth true entries)) ::
      (inputs height (depth + 1) (scheme.side depth false entries) ++
        inputs height (depth + 1) (scheme.side depth true entries))

def Agrees (depth : Nat) (first second : κ) : Prop :=
  ∀ index < depth, scheme.bit first index = scheme.bit second index

instance (depth : Nat) (first second : κ) : Decidable (scheme.Agrees depth first second) :=
  Nat.decidableBallLT depth _

/-- The entries of the subtree at the first `depth` bits of the key. -/
def under (depth : Nat) (key : κ) (entries : List (κ × ν)) : List (κ × ν) :=
  entries.filter fun entry => scheme.Agrees depth key entry.1

/-- `total` bits tell all keys apart. -/
def Separates (total : Nat) : Prop :=
  ∀ first second, scheme.Agrees total first second → first = second

/-- The hash does not collide on the inputs and is never the empty root. -/
structure CollisionFree (used : List (MerkleInput κ ν η)) : Prop where
  injective : ∀ first ∈ used, ∀ second ∈ used,
    scheme.hash first = scheme.hash second → first = second
  notEmpty : ∀ input ∈ used, scheme.hash input ≠ scheme.empty

/-- The bottom of a proof: a leaf or an empty subtree. -/
def bottom : Option (κ × ν) → η
  | some entry => scheme.hash (.leaf entry.1 entry.2)
  | none => scheme.empty

/-- The root above the bottom, with the siblings from the top down. -/
def climb (key : κ) (leaf : Option (κ × ν)) : Nat → List η → η
  | _, [] => scheme.bottom leaf
  | depth, sibling :: rest =>
    if scheme.bit key depth then
      scheme.hash (.node sibling (climb key leaf (depth + 1) rest))
    else scheme.hash (.node (climb key leaf (depth + 1) rest) sibling)

def climbInputs (key : κ) (leaf : Option (κ × ν)) : Nat → List η → List (MerkleInput κ ν η)
  | _, [] => leaf.toList.map fun entry => .leaf entry.1 entry.2
  | depth, sibling :: rest =>
    (if scheme.bit key depth then
      .node sibling (scheme.climb key leaf (depth + 1) rest)
    else .node (scheme.climb key leaf (depth + 1) rest) sibling) ::
      climbInputs key leaf (depth + 1) rest

variable {scheme} {height depth : Nat} {entries : List (κ × ν)} {key : κ}

@[simp]
theorem root_nil : scheme.root height depth [] = scheme.empty := by
  unfold root
  rfl

@[simp]
theorem root_singleton (entry : κ × ν) : scheme.root height depth [entry] =
    scheme.hash (.leaf entry.1 entry.2) := by
  unfold root
  rfl

theorem inputs_singleton (entry : κ × ν) :
    scheme.inputs height depth [entry] = [.leaf entry.1 entry.2] := by
  unfold inputs
  rfl

theorem inputs_node (many : 2 ≤ entries.length) : scheme.inputs (height + 1) depth entries = .node
      (scheme.root height (depth + 1) (scheme.side depth false entries))
      (scheme.root height (depth + 1) (scheme.side depth true entries)) ::
    (scheme.inputs height (depth + 1) (scheme.side depth false entries) ++
      scheme.inputs height (depth + 1) (scheme.side depth true entries)) := by
  match entries, many with
  | _ :: _ :: _, _ => rw [inputs] <;> simp

theorem mem_under {entry : κ × ν} : entry ∈ scheme.under depth key entries ↔
    entry ∈ entries ∧ scheme.Agrees depth key entry.1 := by
  simp [under]

theorem under_zero : scheme.under 0 key entries = entries := by
  simp [under, Agrees]

theorem under_of_agrees (agrees : ∀ entry ∈ entries, scheme.Agrees depth key entry.1) :
    scheme.under depth key entries = entries :=
  filter_eq_self.mpr fun entry member =>
    decide_eq_true (agrees entry member)

theorem agrees_succ {first second : κ} : scheme.Agrees (depth + 1) first second ↔
    scheme.Agrees depth first second ∧ scheme.bit first depth = scheme.bit second depth := by
  constructor
  · intro agrees
    exact ⟨fun index less => agrees index (by omega), agrees depth (by omega)⟩
  · intro ⟨agrees, sameBit⟩ index less
    rcases Nat.lt_succ_iff_lt_or_eq.mp less with earlier | rfl
    · exact agrees index earlier
    · exact sameBit

theorem side_eq_under (agrees : ∀ entry ∈ entries, scheme.Agrees depth key entry.1) :
    scheme.side depth (scheme.bit key depth) entries = scheme.under (depth + 1) key entries := by
  apply filter_congr
  intro entry member
  rw [Bool.eq_iff_iff, beq_iff_eq, decide_eq_true_iff, agrees_succ]
  constructor
  · intro sameBit
    exact ⟨agrees entry member, sameBit.symm⟩
  · intro both
    exact both.2.symm

theorem under_under {deeper : Nat} (atMost : depth ≤ deeper) :
    scheme.under deeper key (scheme.under depth key entries) = scheme.under deeper key entries := by
  rw [under, under, filter_filter]
  apply filter_congr
  intro entry member
  rw [Bool.eq_iff_iff, Bool.and_eq_true, decide_eq_true_iff, decide_eq_true_iff]
  constructor
  · exact And.left
  · intro agrees
    exact ⟨agrees, fun index less => agrees index (by omega)⟩

variable {total : Nat}

/-- Entries that agree on all bits are one entry. -/
theorem length_le_one_of_agrees (separates : scheme.Separates total)
    (levels : height + depth = total) (keysNodup : (entries.map Prod.fst).Nodup)
    (agrees : ∀ entry ∈ entries, scheme.Agrees depth key entry.1) (isZero : height = 0) :
    entries.length ≤ 1 := by
  obtain rfl : depth = total := by omega
  match entries with
  | [] => exact Nat.zero_le 1
  | [_] => exact Nat.le_refl 1
  | first :: second :: rest =>
    have firstKey := separates _ _ (agrees first mem_cons_self)
    have secondKey := separates _ _ (agrees second (mem_cons_of_mem _ mem_cons_self))
    have different := (nodup_cons.mp keysNodup).1
    rw [← firstKey, secondKey] at different
    exact absurd mem_cons_self different

section Sound

variable {used : List (MerkleInput κ ν η)} (collisionFree : scheme.CollisionFree used)
  {leaf : Option (κ × ν)}

include collisionFree in
/-- A root that is empty or a leaf comes from no entry or from that one. -/
theorem entries_of_root_eq_bottom
    (rootUsed : ∀ input ∈ scheme.inputs height depth entries, input ∈ used)
    (leafUsed : ∀ entry ∈ leaf, .leaf entry.1 entry.2 ∈ used)
    (few : height = 0 → entries.length ≤ 1)
    (same : scheme.root height depth entries = scheme.bottom leaf) : entries = leaf.toList := by
  match entries, leaf with
  | [], none => rfl
  | [], some entry =>
    rw [root_nil] at same
    exact absurd same.symm (collisionFree.notEmpty _ (leafUsed entry rfl))
  | [entry], none =>
    rw [root_singleton] at same
    rw [inputs_singleton] at rootUsed
    exact absurd same (collisionFree.notEmpty _ (rootUsed _ mem_cons_self))
  | [entry], some other =>
    rw [root_singleton] at same
    rw [inputs_singleton] at rootUsed
    have inputEq := collisionFree.injective _
      (rootUsed _ mem_cons_self) _ (leafUsed other rfl) same
    injection inputEq with keyEq valueEq
    exact congrArg (fun value => [value]) (Prod.ext keyEq valueEq)
  | first :: second :: rest, leaf =>
    cases height with
    | zero =>
      have short := few rfl
      simp only [length_cons] at short
      omega
    | succ height =>
      have nodeUsed := rootUsed _ mem_cons_self
      cases leaf with
      | none => exact absurd same (collisionFree.notEmpty _ nodeUsed)
      | some entry =>
        have inputEq := collisionFree.injective _ nodeUsed _ (leafUsed entry rfl) same
        cases inputEq

include collisionFree in
/-- A node's root comes from several entries, and its children from their halves. -/
theorem halves_of_root_eq_node {left right : η}
    (rootUsed : ∀ input ∈ scheme.inputs height depth entries, input ∈ used)
    (nodeUsed : .node left right ∈ used) (few : height = 0 → entries.length ≤ 1)
    (same : scheme.root height depth entries = scheme.hash (.node left right)) :
    ∃ lower, height = lower + 1 ∧ 2 ≤ entries.length ∧ left = scheme.root lower (depth + 1)
        (scheme.side depth false entries) ∧
      right = scheme.root lower (depth + 1) (scheme.side depth true entries) := by
  match entries with
  | [] =>
    rw [root_nil] at same
    exact absurd same.symm (collisionFree.notEmpty _ nodeUsed)
  | [entry] =>
    rw [root_singleton] at same
    rw [inputs_singleton] at rootUsed
    have inputEq := collisionFree.injective _ (rootUsed _ mem_cons_self) _ nodeUsed same
    cases inputEq
  | first :: second :: rest =>
    have many : 2 ≤ (first :: second :: rest).length := by simp
    cases height with
    | zero =>
      omega
    | succ lower =>
      have inputEq := collisionFree.injective _ (rootUsed _ mem_cons_self) _ nodeUsed same
      injection inputEq with leftEq rightEq
      exact ⟨lower, rfl, many, leftEq.symm, rightEq.symm⟩

include collisionFree in
/-- A proof that climbs to the root shows what the subtree holds below the key. -/
theorem under_of_climb_eq_root {siblings : List η} (separates : scheme.Separates total)
    (levels : height + depth = total) (keysNodup : (entries.map Prod.fst).Nodup)
    (agrees : ∀ entry ∈ entries, scheme.Agrees depth key entry.1)
    (rootUsed : ∀ input ∈ scheme.inputs height depth entries, input ∈ used)
    (climbUsed : ∀ input ∈ scheme.climbInputs key leaf depth siblings, input ∈ used)
    (same : scheme.climb key leaf depth siblings = scheme.root height depth entries) :
    scheme.under (depth + siblings.length) key entries = leaf.toList := by
  have few := length_le_one_of_agrees separates levels keysNodup agrees
  induction siblings generalizing height depth entries with
  | nil =>
    rw [length_nil, Nat.add_zero, under_of_agrees agrees]
    refine entries_of_root_eq_bottom collisionFree rootUsed ?_ few same.symm
    intro entry isLeaf
    apply climbUsed
    rw [climbInputs, Option.mem_def.mp isLeaf]
    exact mem_cons_self
  | cons sibling rest inductionHypothesis =>
    have topUsed := climbUsed _ mem_cons_self
    have restUsed : ∀ input ∈ scheme.climbInputs key leaf (depth + 1) rest, input ∈ used :=
      (forall_mem_cons.mp climbUsed).2
    have isNode : ∃ lower, height = lower + 1 ∧ 2 ≤ entries.length ∧
        scheme.climb key leaf (depth + 1) rest = scheme.root lower (depth + 1)
            (scheme.side depth (scheme.bit key depth) entries) := by
      rw [climb] at same
      by_cases isRight : scheme.bit key depth = true
      · rw [if_pos isRight] at same topUsed
        obtain ⟨lower, isSucc, many, _, rightEq⟩ :=
          halves_of_root_eq_node collisionFree rootUsed topUsed few same.symm
        exact ⟨lower, isSucc, many, isRight ▸ rightEq⟩
      · rw [if_neg isRight] at same topUsed
        obtain ⟨lower, isSucc, many, leftEq, _⟩ :=
          halves_of_root_eq_node collisionFree rootUsed topUsed few same.symm
        rw [Bool.not_eq_true] at isRight
        exact ⟨lower, isSucc, many, isRight ▸ leftEq⟩
    obtain ⟨lower, rfl, many, restSame⟩ := isNode
    rw [inputs_node many] at rootUsed
    have sideUsed : ∀ input ∈ scheme.inputs lower (depth + 1)
        (scheme.side depth (scheme.bit key depth) entries),
        input ∈ used := by
      intro input member
      apply rootUsed
      apply mem_cons_of_mem
      cases isSide : scheme.bit key depth with
      | false =>
        rw [isSide] at member
        exact mem_append_left _ member
      | true =>
        rw [isSide] at member
        exact mem_append_right _ member
    rw [side_eq_under agrees] at restSame sideUsed
    have underNodup : ((scheme.under (depth + 1) key entries).map Prod.fst).Nodup :=
      keysNodup.sublist (filter_sublist.map Prod.fst)
    have underAgrees : ∀ entry ∈ scheme.under (depth + 1) key entries,
        scheme.Agrees (depth + 1) key entry.1 :=
      fun entry member => (mem_under.mp member).2
    have found := inductionHypothesis (by omega) underNodup underAgrees sideUsed restUsed restSame
      (length_le_one_of_agrees separates (by omega) underNodup underAgrees)
    rw [under_under (by omega)] at found
    rw [length_cons, ← found]
    congr 1
    omega

end Sound

end SparseScheme

end LumioNode.Library
