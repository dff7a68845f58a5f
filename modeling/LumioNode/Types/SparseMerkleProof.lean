import LumioNode.Library.Fallible
import LumioNode.Library.SortedMap
import LumioNode.Library.SparseMerkle
import LumioNode.Types.LedgerInfo

/-! # Sparse Merkle proofs

The bits of a `HashValue` are counted from the first byte on, the most significant
first.  A proof against the root of a map, or of the subtree at a prefix, shows the
value at the key. -/

namespace LumioNode

open Library

namespace HashValue

def lengthInBits : Nat := 256

def bit (hash : HashValue) (index : Nat) : Bool := hash.val.testBit (lengthInBits - 1 - index)

def iterBits (hash : HashValue) : List Bool := (List.range lengthInBits).map hash.bit

def commonPrefixBitsLen (hash other : HashValue) : Nat :=
  ((hash.iterBits.zip other.iterBits).takeWhile fun bits => bits.1 == bits.2).length

@[simp]
theorem length_iterBits (hash : HashValue) : hash.iterBits.length = lengthInBits := by
  simp [iterBits]

/-- The bits tell hash values apart. -/
theorem eq_of_bit_eq {first second : HashValue}
    (same : ∀ index < lengthInBits, first.bit index = second.bit index) : first = second := by
  apply Fin.ext
  apply Nat.eq_of_testBit_eq
  intro position
  by_cases inside : position < lengthInBits
  · have sameBit := same (lengthInBits - 1 - position) (by unfold lengthInBits at *; omega)
    have back : lengthInBits - 1 - (lengthInBits - 1 - position) =
        position := by omega
    rw [bit, bit, back] at sameBit
    exact sameBit
  · have large : 2 ^ 256 ≤ 2 ^ position := Nat.pow_le_pow_right (by omega) (Nat.not_lt.mp inside)
    rw [Nat.testBit_lt_two_pow (lt_of_lt_of_le first.isLt large),
      Nat.testBit_lt_two_pow (lt_of_lt_of_le second.isLt large)]

end HashValue

/-- The hashers of `SparseMerkleLeafNode` and `SparseMerkleInternalNode`. -/
abbrev SparseMerkleHash := MerkleInput HashValue HashValue HashValue → HashValue

structure SparseMerkleLeafNode where
  key : HashValue
  valueHash : HashValue
deriving DecidableEq

def SparseMerkleLeafNode.hash (hasher : SparseMerkleHash)
    (leaf : SparseMerkleLeafNode) : HashValue :=
  hasher (.leaf leaf.key leaf.valueHash)

def hashInternalNode (hasher : SparseMerkleHash) (left right : HashValue) : HashValue :=
  hasher (.node left right)

/-- The compressed sparse Merkle tree over the bits of hash values. -/
def sparseMerkle (hasher : SparseMerkleHash) : SparseScheme HashValue HashValue HashValue where
  bit := HashValue.bit
  hash := hasher
  empty := sparseMerklePlaceholderHash

/-- The root of the map's entries below the first `depth` bits of the key. -/
def subtreeRoot (hasher : SparseMerkleHash) (map : SortedMap HashValue HashValue) (depth : Nat)
    (key : HashValue) : HashValue :=
  (sparseMerkle hasher).root (HashValue.lengthInBits - depth) depth
    ((sparseMerkle hasher).under depth key map.entries)

def sparseMerkleRoot (hasher : SparseMerkleHash)
    (map : SortedMap HashValue HashValue) : HashValue :=
  (sparseMerkle hasher).root HashValue.lengthInBits 0 map.entries

structure SparseMerkleProof where
  leaf : Option SparseMerkleLeafNode
  /-- From the root level to the bottom level. -/
  siblings : List HashValue
deriving DecidableEq

namespace SparseMerkleProof

variable (hasher : SparseMerkleHash)

def checkLeaf (proof : SparseMerkleProof) (elementKey : HashValue) (elementHash : Option HashValue)
    (rootDepth : Nat) : Except String Unit :=
  match elementHash, proof.leaf with
  | some hash, some leaf => do
      ensure (elementKey = leaf.key) ("Keys do not match. Key in proof: " ++ leaf.key.toHex ++
          ". Expected key: " ++ elementKey.toHex ++
          ". Element hash: " ++ hash.toHex ++
          ". Value hash in proof " ++ leaf.valueHash.toHex)
      ensure (hash = leaf.valueHash) ("Value hashes do not match for key " ++ elementKey.toHex ++
          ". Value hash in proof: " ++ leaf.valueHash.toHex ++
          ". Expected value hash: " ++ hash.toHex ++ ". ")
  | some hash, none =>
    .error ("Expected inclusion proof, value hash: " ++ hash.toHex ++
      ". Found non-inclusion proof.")
  | none, some leaf => do
      ensure (elementKey ≠ leaf.key)
        ("Expected non-inclusion proof, but key exists in proof. Key: " ++
          elementKey.toHex ++ ". Key in proof: " ++ leaf.key.toHex ++ ".")
      ensure (rootDepth + proof.siblings.length ≤ elementKey.commonPrefixBitsLen leaf.key)
        ("Key would not have ended up in the subtree where the provided " ++
          "key in proof is the only existing key, if it existed. So this " ++
          "is not a valid non-inclusion proof. Key: " ++ elementKey.toHex ++
          ". Key in proof: " ++ leaf.key.toHex ++ ".")
  | none, none => return ()

def actualRootHash (proof : SparseMerkleProof) (elementKey : HashValue)
    (rootDepth : Nat) : HashValue :=
  let currentHash := match proof.leaf with
    | some leaf => leaf.hash hasher
    | none => sparseMerklePlaceholderHash
  (proof.siblings.reverse.zip (elementKey.iterBits.reverse.drop
      (HashValue.lengthInBits - proof.siblings.length - rootDepth))).foldl
    (fun hash step =>
      if step.2 then hashInternalNode hasher step.1 hash
      else hashInternalNode hasher hash step.1)
    currentHash

def verifyByHashPartial (proof : SparseMerkleProof) (expectedRootHash elementKey : HashValue)
    (elementHash : Option HashValue) (rootDepth : Nat) : Except String Unit := do
  ensure (proof.siblings.length + rootDepth ≤ HashValue.lengthInBits)
    ("Sparse Merkle Tree proof has more than " ++
      toString HashValue.lengthInBits ++ " (" ++ toString rootDepth ++
      " + " ++ toString proof.siblings.length ++ ") siblings.")
  proof.checkLeaf elementKey elementHash rootDepth
  let actual := proof.actualRootHash hasher elementKey rootDepth
  ensure (actual = expectedRootHash) ("lumio_types::proof::definition::SparseMerkleProof: " ++
      "Root hashes do not match. Actual root hash: " ++ actual.toHex ++
      ". Expected root hash: " ++ expectedRootHash.toHex ++ ".")

def verifyByHash (proof : SparseMerkleProof) (expectedRootHash elementKey : HashValue)
    (elementHash : Option HashValue) : Except String Unit :=
  proof.verifyByHashPartial hasher expectedRootHash elementKey elementHash 0

end SparseMerkleProof

inductive NodeInProof where
  | leaf (node : SparseMerkleLeafNode)
  | other (hash : HashValue)
deriving DecidableEq

def NodeInProof.hash (hasher : SparseMerkleHash) : NodeInProof → HashValue
  | .leaf node => node.hash hasher
  | .other hash => hash

/-- A proof in which the siblings that are leaves are given as leaves. -/
structure SparseMerkleProofExt where
  leaf : Option SparseMerkleLeafNode
  siblings : List NodeInProof
  /-- The depth of the subtree root; not zero in a partial proof. -/
  rootDepth : Nat
deriving DecidableEq

namespace SparseMerkleProofExt

def toProof (hasher : SparseMerkleHash) (proof : SparseMerkleProofExt) : SparseMerkleProof :=
  ⟨proof.leaf, proof.siblings.map (NodeInProof.hash hasher)⟩

def verifyByHash (hasher : SparseMerkleHash) (proof : SparseMerkleProofExt)
    (expectedRootHash elementKey : HashValue)
    (elementHash : Option HashValue) : Except String Unit :=
  (proof.toProof hasher).verifyByHashPartial hasher expectedRootHash
    elementKey elementHash proof.rootDepth

end SparseMerkleProofExt

open HashValue SparseScheme List

theorem zip_concat {α β : Type} {items : List α} {others : List β}
    {last : α} {other : β} (found : others[items.length]? = some other) :
    (items ++ [last]).zip others = items.zip others ++ [(last, other)] := by
  induction items generalizing others with
  | nil =>
    cases others with
    | nil => cases found
    | cons head tail =>
      injection found with isOther
      simp [isOther]
  | cons item rest inductionHypothesis =>
    cases others with
    | nil => cases found
    | cons head tail =>
      simp only [cons_append, zip_cons_cons]
      rw [inductionHypothesis found]

namespace SparseMerkleProof

variable {hasher : SparseMerkleHash} {proof : SparseMerkleProof}
  {map : SortedMap HashValue HashValue} {key : HashValue}
  {elementHash : Option HashValue} {rootDepth : Nat}

/-- The leaf of the proof as an entry of a map. -/
def entry (proof : SparseMerkleProof) : Option (HashValue × HashValue) :=
  proof.leaf.map fun leaf => (leaf.key, leaf.valueHash)

/-- What is hashed for the root of the subtree and to verify the proof. -/
def inputsInUse (hasher : SparseMerkleHash) (proof : SparseMerkleProof)
    (map : SortedMap HashValue HashValue) (key : HashValue)
    (rootDepth : Nat) : List (MerkleInput HashValue HashValue HashValue) :=
  (sparseMerkle hasher).inputs (lengthInBits - rootDepth) rootDepth
      ((sparseMerkle hasher).under rootDepth key map.entries) ++
    (sparseMerkle hasher).climbInputs key proof.entry rootDepth proof.siblings

/-- From the bottom up, the siblings meet the bits below the root depth. -/
theorem foldl_eq_climb {leaf : Option (HashValue × HashValue)} {siblings : List HashValue}
    (fits : siblings.length + rootDepth ≤ lengthInBits) :
    (siblings.reverse.zip (key.iterBits.take (siblings.length + rootDepth)).reverse).foldl
      (fun hash step =>
        if step.2 then hashInternalNode hasher step.1 hash
        else hashInternalNode hasher hash step.1)
      ((sparseMerkle hasher).bottom leaf) =
    (sparseMerkle hasher).climb key leaf rootDepth siblings := by
  induction siblings generalizing rootDepth with
  | nil => rfl
  | cons sibling rest inductionHypothesis =>
    rw [length_cons] at fits ⊢
    have nextBit : (key.iterBits.take (rest.length + 1 + rootDepth)).reverse[rest.reverse.length]? =
        some (key.bit rootDepth) := by
      have atRoot : rest.length + 1 + rootDepth - 1 - rest.length =
          rootDepth := by omega
      rw [List.getElem?_reverse (by simp; omega), length_take, length_iterBits, length_reverse,
        Nat.min_eq_left fits, atRoot, List.getElem?_take_of_lt (by omega)]
      simp [iterBits, show rootDepth < lengthInBits by omega]
    rw [reverse_cons, zip_concat nextBit, foldl_append]
    have sameTake : rest.length + 1 + rootDepth = rest.length + (rootDepth + 1) := by omega
    rw [sameTake, inductionHypothesis (by omega)]
    rfl

theorem actualRootHash_eq_climb (fits : proof.siblings.length + rootDepth ≤ lengthInBits) :
    proof.actualRootHash hasher key rootDepth =
      (sparseMerkle hasher).climb key proof.entry rootDepth proof.siblings := by
  have dropped : key.iterBits.reverse.drop
      (lengthInBits - proof.siblings.length - rootDepth) =
        (key.iterBits.take (proof.siblings.length + rootDepth)).reverse := by
    rw [drop_reverse, length_iterBits]
    congr 2
    omega
  rw [← foldl_eq_climb fits, actualRootHash, dropped, entry]
  cases proof.leaf with
  | none | some => rfl

theorem checkLeaf_ok (checked : proof.checkLeaf key elementHash rootDepth = .ok ()) :
    (∀ value, (key, value) ∈ proof.entry ↔ elementHash = some value) := by
  intro value
  cases isElement : elementHash with
  | some =>
    cases isLeaf : proof.leaf with
    | none =>
      simp only [isElement, checkLeaf, isLeaf] at checked
      cases checked
    | some =>
      simp only [isElement, checkLeaf, isLeaf, bind_eq_ok, ensure_eq_ok] at checked
      obtain ⟨_, rfl, rfl⟩ := checked
      simp [entry, isLeaf]
  | none =>
    cases isLeaf : proof.leaf with
    | none => simp [entry, isLeaf]
    | some =>
      simp only [isElement, checkLeaf, isLeaf, bind_eq_ok, ensure_eq_ok] at checked
      obtain ⟨_, different, _⟩ := checked
      simp [entry, isLeaf, Ne.symm different]

theorem get?_of_verifyByHashPartial (collisionFree : (sparseMerkle hasher).CollisionFree
      (proof.inputsInUse hasher map key rootDepth))
    (verified : proof.verifyByHashPartial hasher (subtreeRoot hasher map rootDepth key) key
      elementHash rootDepth = .ok ()) : map.get? key = elementHash := by
  simp only [verifyByHashPartial, bind_eq_ok, ensure_eq_ok] at verified
  obtain ⟨_, fits, _, checked, sameRoot⟩ := verified
  rw [actualRootHash_eq_climb fits] at sameRoot
  have underNodup : (((sparseMerkle hasher).under rootDepth key map.entries).map Prod.fst).Nodup :=
    map.keys_nodup.sublist (filter_sublist.map Prod.fst)
  have below := under_of_climb_eq_root collisionFree
    (fun _ _ agrees => eq_of_bit_eq agrees) (by omega) underNodup
    (fun entry member => (mem_under.mp member).2)
    (fun input member => mem_append_left _ member)
    (fun input member => mem_append_right _ member) sameRoot
  rw [under_under (by omega)] at below
  apply Option.ext
  intro value
  rw [SortedMap.get?_eq_some_iff, ← checkLeaf_ok checked value]
  have inside : (key, value) ∈ (sparseMerkle hasher).under
      (rootDepth + proof.siblings.length) key map.entries ↔ (key, value) ∈ map.entries := by
    rw [mem_under]
    exact and_iff_left fun _ _ => rfl
  rw [← inside, below, Option.mem_toList]
  exact Iff.rfl

/-- A proof of either form against the root of the map, or of its subtree at the key, shows the
value. -/
theorem sparse_merkle_proof_sound (hasher : SparseMerkleHash) (map : SortedMap HashValue HashValue)
    (proof : SparseMerkleProof) (key : HashValue) (elementHash : Option HashValue) (rootDepth : Nat)
    (collisionFree : (sparseMerkle hasher).CollisionFree
      (proof.inputsInUse hasher map key rootDepth)) :
    (proof.verifyByHashPartial hasher (subtreeRoot hasher map rootDepth key)
        key elementHash rootDepth = .ok () →
      map.get? key = elementHash) ∧
    (∀ ext : SparseMerkleProofExt, ext.toProof hasher = proof → ext.rootDepth = rootDepth →
      ext.verifyByHash hasher (subtreeRoot hasher map rootDepth key) key elementHash = .ok () →
      map.get? key = elementHash) ∧
    (rootDepth = 0 → proof.verifyByHash hasher (sparseMerkleRoot hasher map) key
          elementHash = .ok () →
        map.get? key = elementHash) := by
  refine ⟨get?_of_verifyByHashPartial collisionFree, ?_, ?_⟩
  · rintro ext rfl rfl verified
    exact get?_of_verifyByHashPartial collisionFree verified
  intro isZero verified
  subst isZero
  have wholeMap : subtreeRoot hasher map 0 key = sparseMerkleRoot hasher map := by
    rw [subtreeRoot, under_zero]
    rfl
  rw [verifyByHash, ← wholeMap] at verified
  exact get?_of_verifyByHashPartial collisionFree verified

end SparseMerkleProof

namespace TwoLeaves

def hasher : SparseMerkleHash
  | .leaf key value => Fin.ofNat _ (key.val / 2 ^ 250 + value.val)
  | .node left right => Fin.ofNat _ (1000 + 100 * left.val + right.val)

def map : SortedMap HashValue HashValue :=
  (SortedMap.empty.insert 0 5).insert (Fin.ofNat _ (2 ^ 255)) 7

def proof : SparseMerkleProof := ⟨some ⟨0, 5⟩, [39]⟩

end TwoLeaves

theorem SparseMerkleProof.proof_of_one_of_two_leaves : TwoLeaves.map.get? 0 = some 5 :=
  (sparse_merkle_proof_sound TwoLeaves.hasher TwoLeaves.map TwoLeaves.proof
    0 (some 5) 0 ⟨by decide, by decide⟩).2.2 rfl (by decide)

end LumioNode
