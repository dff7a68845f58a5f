import LumioNode.Accumulator.InMemory
import LumioNode.Types.LedgerInfo

/-! # The accumulator in storage, and its proofs

`MerkleAccumulatorView` reads frozen nodes through a reader and computes the others.
The proofs are those of `proof/definition.rs`. -/

namespace LumioNode

open Library Position

/-- The interface to the underlying storage. -/
abbrev HashReader := Position → Except Fault HashValue

abbrev AccumulatorNode := Position × HashValue

/-! ## Iterators over frozen subtrees -/

structure FrozenSubTreeIterator where
  bitmap : Nat
  seenLeaves : Nat

namespace FrozenSubTreeIterator

def new (numLeaves : Nat) : FrozenSubTreeIterator := ⟨numLeaves, 0⟩

def next (iterator : FrozenSubTreeIterator) :
    Except Fault (Option (Position × FrozenSubTreeIterator)) := do
  ensure (iterator.seenLeaves < Word64.max - iterator.bitmap) .panic
  if iterator.bitmap = 0 then return none
  let rootOffset := Word64.smearOnes iterator.bitmap >>> 1
  ensure (rootOffset < iterator.bitmap) .panic
  let numLeaves := rootOffset + 1
  let leftmostLeaf := fromLeafIndex iterator.seenLeaves
  let root : Position := ⟨leftmostLeaf.inorder + rootOffset⟩
  return some (root, ⟨iterator.bitmap &&& Word64.not numLeaves, iterator.seenLeaves + numLeaves⟩)

end FrozenSubTreeIterator

structure FrozenSubtreeSiblingIterator where
  currentNumLeaves : Nat
  remainingNewLeaves : Nat

namespace FrozenSubtreeSiblingIterator

def new (currentNumLeaves newNumLeaves : Nat) : Except Fault FrozenSubtreeSiblingIterator := do
  ensure (newNumLeaves ≤ maxAccumulatorLeaves) .panic
  ensure (currentNumLeaves ≤ newNumLeaves) .panic
  return ⟨currentNumLeaves, newNumLeaves - currentNumLeaves⟩

variable (iterator : FrozenSubtreeSiblingIterator)

def nextNewLeafBatch : Nat :=
  1 <<< (maxAccumulatorProofDepth - Word64.leadingZeros iterator.remainingNewLeaves)

def nextSubtreeLeaves : Nat :=
  if 0 < iterator.currentNumLeaves then
    let rightmostFrozenSubtreeLeaves := 1 <<< Word64.trailingZeros iterator.currentNumLeaves
    if rightmostFrozenSubtreeLeaves ≤ iterator.remainingNewLeaves then
      rightmostFrozenSubtreeLeaves
    else iterator.nextNewLeafBatch
  else iterator.nextNewLeafBatch

def next :
    Option (Position × FrozenSubtreeSiblingIterator) :=
  if iterator.remainingNewLeaves = 0 then none
  else
    let firstLeafIndex := iterator.currentNumLeaves
    let lastLeafIndex := firstLeafIndex + iterator.nextSubtreeLeaves - 1
    some (⟨firstLeafIndex + lastLeafIndex⟩, ⟨iterator.currentNumLeaves + iterator.nextSubtreeLeaves,
        iterator.remainingNewLeaves - iterator.nextSubtreeLeaves⟩)

end FrozenSubtreeSiblingIterator

structure MerkleAccumulatorView where
  reader : HashReader
  numLeaves : Nat

namespace MerkleAccumulatorView

variable (hasher : PaddedScheme HashValue) (view : MerkleAccumulatorView)

/-! ## Reading hashes -/

def rightmostLeafIndex : Except Fault Nat := do
  ensure (0 < view.numLeaves) .panic
  return view.numLeaves - 1

/-- `get_hash`; the first argument bounds the levels below the position. -/
def getHashBelow : Nat → Position → Except Fault HashValue
  | levels, position => do
      let index ← view.rightmostLeafIndex
      if position.isPlaceholder index then return hasher.pad
      else if position.isFreezable index then view.reader position
      else match levels with
        | 0 => .error .panic
        | levels + 1 => do
            let left ← position.leftChild
            let leftHash ← getHashBelow levels left
            let right ← position.rightChild
            let rightHash ← getHashBelow levels right
            return hasher.node leftHash rightHash

def getHash (position : Position) : Except Fault HashValue :=
  view.getHashBelow hasher position.level position

def getHashes (positions : List Position) : Except Fault (List HashValue) :=
  positions.mapM (view.getHash hasher)

def getRootHash : Except Fault HashValue := do
  let root ← rootFromLeafCount view.numLeaves
  view.getHash hasher root

/-! ## Appending -/

/-- Combine a right child with its left sibling, made in this call or stored. The last left
sibling comes first. -/
def hashWithLeftSibling (leftSiblings : List AccumulatorNode) (sibling : Position)
    (hash : HashValue) : Except Fault (HashValue × List AccumulatorNode) :=
  match leftSiblings with
  | (x, leftHash) :: rest => do
      ensure (x = sibling) .panic
      return (hasher.node leftHash hash, rest)
  | [] => do
      let leftHash ← view.reader sibling
      return (hasher.node leftHash hash, [])

/-- The loop `while pos.is_right_child()`: the node that remains, the parents frozen and the
left siblings left. -/
def freezeParents : Nat → AccumulatorNode → List AccumulatorNode → Except Fault
      (AccumulatorNode × List AccumulatorNode × List AccumulatorNode)
  | 0, _, _ => .error .panic
  | levels + 1, (position, hash), leftSiblings => do
      let isRight ← position.isRightChild
      if isRight then
        let sibling ← position.sibling
        let (parentHash, rest) ← view.hashWithLeftSibling hasher leftSiblings sibling hash
        let parent ← position.parent
        let (last, frozen, left) ← freezeParents levels (parent, parentHash) rest
        return (last, (parent, parentHash) :: frozen, left)
      else return ((position, hash), [], leftSiblings)

/-- One pass over the new leaves: the nodes to freeze and the left siblings. -/
def freezeLeaves (leafIndex : Nat) : List HashValue → List AccumulatorNode →
      Except Fault (List AccumulatorNode × List AccumulatorNode)
  | [], leftSiblings => .ok ([], leftSiblings)
  | leaf :: rest, leftSiblings => do
      let leafPosition := fromLeafIndex leafIndex
      let (last, frozen, left) ← view.freezeParents hasher 64 (leafPosition, leaf) leftSiblings
      let (toFreeze, leftAfter) ← freezeLeaves (leafIndex + 1) rest (last :: left)
      return ((leafPosition, leaf) :: frozen ++ toFreeze, leftAfter)

def walkToRoot : Nat → AccumulatorNode → List AccumulatorNode →
    Except Fault (HashValue × List AccumulatorNode)
  | 0, (_, hash), leftSiblings => .ok (hash, leftSiblings)
  | levels + 1, (position, hash), leftSiblings => do
      let isLeft ← position.isLeftChild
      let (parentHash, rest) ← if isLeft then pure (hasher.node hash hasher.pad, leftSiblings)
        else do
          let sibling ← position.sibling
          view.hashWithLeftSibling hasher leftSiblings sibling hash
      let parent ← position.parent
      walkToRoot levels (parent, parentHash) rest

/-- The capacity of the vector of frozen nodes, with its assertions. -/
def maxToFreeze (numNewLeaves rootLevel : Nat) : Except Fault Nat := do
  ensure (rootLevel ≤ maxAccumulatorProofDepth) .panic
  ensure (numNewLeaves < Word64.max / 2) .panic
  ensure (numNewLeaves * 2 ≤ Word64.max - rootLevel) .panic
  return numNewLeaves * 2 + rootLevel

/-- `Vec::with_capacity` for nodes of 40 bytes, which panics beyond `isize::MAX` bytes. -/
def withCapacity (capacity : Nat) : Except Fault Unit := ensure (capacity * 40 ≤ 2 ^ 63 - 1) .panic

def append (newLeaves : List HashValue) : Except Fault (HashValue × List AccumulatorNode) := do
  if newLeaves.isEmpty then
    if view.numLeaves = 0 then return (hasher.pad, [])
    else
      let root ← rootFromLeafCount view.numLeaves
      let rootHash ← view.getHash hasher root
      return (rootHash, [])
  else
    let numNewLeaves := newLeaves.length
    let lastNewLeafCount ← expect Fault.panic (checkedAdd view.numLeaves numNewLeaves)
    let rootLevel ← rootLevelFromLeafCount lastNewLeafCount
    let capacity ← maxToFreeze numNewLeaves rootLevel
    withCapacity capacity
    let (toFreeze, leftSiblings) ← view.freezeLeaves hasher view.numLeaves newLeaves []
    match leftSiblings with
    | [] => .error .panic
    | last :: rest => do
        let (hash, unused) ← view.walkToRoot hasher (rootLevel - last.1.level) last rest
        ensure (unused = []) .panic
        return (hash, toFreeze)

/-! ## Proofs -/

def getSiblingPositions (leafIndex : Nat) (filter : Position → Except Fault Bool) :
    Except Fault (List Position) := do
  let root ← rootFromLeafCount view.numLeaves
  let siblings ← (fromLeafIndex leafIndex).ancestorSiblings root.level
  filterEach filter siblings

def getRangeProofPositions (firstLeafIndex : Option Nat) (numLeaves : Nat) :
    Except Fault (List Position × List Position) :=
  match firstLeafIndex with
  | none => do
      ensure (numLeaves = 0) (.error "num_leaves is not zero while first_leaf_index is None.")
      return ([], [])
  | some firstLeafIndex => do
      ensure (0 < numLeaves) (.error "num_leaves is zero while first_leaf_index is not None.")
      let lastLeafIndex ← expect (.error "Requesting too many leaves.")
        (checkedAdd firstLeafIndex (numLeaves - 1))
      ensure (lastLeafIndex < view.numLeaves)
        (.error <| s!"Invalid last_leaf_index: {lastLeafIndex}, " ++
          s!"num_leaves: {view.numLeaves}")
      let leftSiblings ← view.getSiblingPositions firstLeafIndex isLeftChild
      let rightSiblings ← view.getSiblingPositions lastLeafIndex isRightChild
      return (leftSiblings, rightSiblings)

/-- The hashes of the frozen subtrees of an iterator, for at most some steps. -/
def readFrozen : Nat → FrozenSubTreeIterator → Except Fault (List HashValue)
  | 0, _ => .error .panic
  | steps + 1, iterator => do
      match ← iterator.next with
      | none => return []
      | some (position, rest) =>
        let hash ← view.reader position
        let hashes ← readFrozen steps rest
        return hash :: hashes

/-- A bitmap of 64 bits yields at most 64 subtrees. -/
def getFrozenSubtreeHashes : Except Fault (List HashValue) :=
  view.readFrozen 65 (FrozenSubTreeIterator.new view.numLeaves)

/-- The hashes at the positions of a sibling iterator, which takes at most 126 steps. -/
def readSiblings : Nat → FrozenSubtreeSiblingIterator → Except Fault (List HashValue)
  | 0, _ => .error .panic
  | steps + 1, iterator =>
    match iterator.next with
    | none => .ok []
    | some (position, rest) => do
        let hash ← view.reader position
        let hashes ← readSiblings steps rest
        return hash :: hashes

def getConsistencyProof (subAccLeaves : Nat) : Except Fault (List HashValue) := do
  ensure (subAccLeaves ≤ view.numLeaves) (.error <|
    "Can't get accumulator consistency proof for a version newer than the " ++
      s!"local version. Local next version: {view.numLeaves}, " ++
      s!"asked next version: {subAccLeaves}")
  let iterator ← FrozenSubtreeSiblingIterator.new subAccLeaves view.numLeaves
  view.readSiblings 128 iterator

end MerkleAccumulatorView

/-- The type parameter `H` of the proofs, with the name that error messages show. -/
structure AccumulatorHasher where
  name : String
  scheme : PaddedScheme HashValue

/-- The error of a computed root that differs from the expected one. -/
def rootMismatch (typeName : String) (actual expected : HashValue) : Fault :=
  .error (typeName ++ ": Root hashes do not match. Actual root hash: " ++
    actual.toHex ++ ". Expected root hash: " ++ expected.toHex ++ ".")

structure AccumulatorProof where
  /-- From the bottom level to the root level. -/
  siblings : List HashValue
deriving DecidableEq

namespace AccumulatorProof

variable (hasher : AccumulatorHasher) (proof : AccumulatorProof)

/-- One level up: the hash so far and the index of its node. -/
def climb (node : HashValue × Nat) (sibling : HashValue) : HashValue × Nat :=
  (if node.2 % 2 = 0 then hasher.scheme.node node.1 sibling
    else hasher.scheme.node sibling node.1, node.2 / 2)

def verify (expectedRootHash elementHash : HashValue) (elementIndex : Nat) : Except Fault Unit := do
  ensure (proof.siblings.length ≤ maxAccumulatorProofDepth)
    (.error <| s!"Accumulator proof has more than {maxAccumulatorProofDepth} " ++
      s!"({proof.siblings.length}) siblings.")
  let actual := (proof.siblings.foldl (climb hasher) (elementHash, elementIndex)).1
  ensure (actual = expectedRootHash) (rootMismatch
    ("lumio_types::proof::definition::AccumulatorProof<" ++ hasher.name ++ ">")
    actual expectedRootHash)

end AccumulatorProof

structure AccumulatorRangeProof where
  /-- On the left of the path of the first leaf, the bottom level first. -/
  leftSiblings : List HashValue
  /-- On the right of the path of the last leaf, the bottom level first. -/
  rightSiblings : List HashValue
deriving DecidableEq

namespace AccumulatorRangeProof

/-- `chunks_exact(2)` with its remainder. -/
def chunks : List HashValue → List (HashValue × HashValue) × Option HashValue
  | [] => ([], none)
  | [single] => ([], some single)
  | left :: right :: rest =>
    ((left, right) :: (chunks rest).1, (chunks rest).2)

def firstPair (isRight : Bool) (children leftSiblings : List HashValue) : Except Fault
      (List (HashValue × HashValue) × List HashValue × List HashValue) :=
  if isRight then
    match leftSiblings with
    | [] => .error (.error
        "First child is a right child, but missing sibling on the left.")
    | left :: leftRest =>
      match children with
      | [] => .error .panic
      | child :: rest => .ok ([(left, child)], rest, leftRest)
  else .ok ([], children, leftSiblings)

/-- A last child that is a left child is combined with a right sibling. -/
def lastPair (remainder : Option HashValue) (rightSiblings : List HashValue) :
    Except Fault (List (HashValue × HashValue) × List HashValue) :=
  match remainder with
  | none => .ok ([], rightSiblings)
  | some child =>
    match rightSiblings with
    | [] => .error (.error
        "Last child is a left child, but missing sibling on the right.")
    | right :: rest => .ok ([(child, right)], rest)

/-- One round of the loop: the pairs to be hashed and the siblings left. -/
def levelPairs (isRight : Bool) (children leftSiblings rightSiblings : List HashValue) :
    Except Fault (List (HashValue × HashValue) × List HashValue × List HashValue) := do
  let (first, others, leftRest) ← firstPair isRight children leftSiblings
  let (last, rightRest) ← lastPair (chunks others).2 rightSiblings
  return (first ++ (chunks others).1 ++ last, leftRest, rightRest)

variable (hasher : AccumulatorHasher) (proof : AccumulatorRangeProof)

/-- The loop of `verify`; the hashes and siblings get fewer in every round. -/
def reduce : Nat → Position → List HashValue → List HashValue →
    List HashValue → Except Fault (List HashValue)
  | rounds, firstPosition, hashes, leftSiblings, rightSiblings =>
    if hashes.length ≤ 1 ∧ leftSiblings = [] ∧ rightSiblings = [] then
      .ok hashes
    else match rounds with
      | 0 => .error .panic
      | rounds + 1 => do
          let isRight ← firstPosition.isRightChild
          let (pairs, leftRest, rightRest) ← levelPairs isRight hashes leftSiblings rightSiblings
          let parent ← firstPosition.parent
          reduce rounds parent (pairs.map fun pair => hasher.scheme.node pair.1 pair.2)
            leftRest rightRest

def verify (expectedRootHash : HashValue) (firstLeafIndex : Option Nat)
    (leafHashes : List HashValue) : Except Fault Unit :=
  match firstLeafIndex with
  | none => do
      ensure (leafHashes = []) (.error <| "first_leaf_index indicated empty " ++
        "list while leaf_hashes is not empty.")
      ensure (proof.leftSiblings = [] ∧ proof.rightSiblings = []) (.error "No siblings are needed.")
  | some firstLeafIndex => do
      ensure (proof.leftSiblings.length ≤ maxAccumulatorProofDepth)
        (.error <| s!"Proof has more than {maxAccumulatorProofDepth} " ++
          s!"({proof.leftSiblings.length}) left siblings.")
      ensure (proof.rightSiblings.length ≤ maxAccumulatorProofDepth)
        (.error <| s!"Proof has more than {maxAccumulatorProofDepth} " ++
          s!"({proof.rightSiblings.length}) right siblings.")
      ensure (leafHashes ≠ []) (.error <| "leaf_hashes is empty while " ++
        "first_leaf_index indicated non-empty list.")
      let hashes ← reduce hasher (leafHashes.length + proof.leftSiblings.length +
          proof.rightSiblings.length)
        (Position.fromLeafIndex firstLeafIndex) leafHashes
        proof.leftSiblings proof.rightSiblings
      match hashes with
      | [] => .error .panic
      | actual :: _ => ensure (actual = expectedRootHash) (rootMismatch
          ("lumio_types::proof::definition::AccumulatorRangeProof<" ++
            hasher.name ++ ">") actual expectedRootHash)

end AccumulatorRangeProof

namespace MerkleAccumulatorView

variable (hasher : AccumulatorHasher) (view : MerkleAccumulatorView)

def getProof (leafIndex : Nat) : Except Fault AccumulatorProof := do
  ensure (leafIndex < view.numLeaves)
    (.error s!"invalid leaf_index {leafIndex}, num_leaves {view.numLeaves}")
  let positions ← view.getSiblingPositions leafIndex fun _ => .ok true
  let siblings ← view.getHashes hasher.scheme positions
  return ⟨siblings⟩

def getRangeProof (firstLeafIndex : Option Nat) (numLeaves : Nat) :
    Except Fault AccumulatorRangeProof := do
  let (leftSiblings, rightSiblings) ← view.getRangeProofPositions firstLeafIndex numLeaves
  let leftHashes ← view.getHashes hasher.scheme leftSiblings
  let rightHashes ← view.getHashes hasher.scheme rightSiblings
  return ⟨leftHashes, rightHashes⟩

end MerkleAccumulatorView

end LumioNode
