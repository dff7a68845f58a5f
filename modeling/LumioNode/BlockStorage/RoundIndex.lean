import LumioNode.BlockStorage.NoLeak

/-! # The index of blocks by round

A removed block takes the entry of its round with it, whichever block that names; the
index is exact while rounds are not shared. -/

namespace LumioNode

open Library Option

namespace BlockTree

inductive IndexCall where
  | insertBlock (block : Block)
  | processPrunedBlocks (newlyPrunedBlocks : List HashValue)
  | commitCallback (windowSize : Option Nat) (commit : Commit)

section Definitions

variable (hash : ConsensusHash)

def performIndexed (tree : BlockTree) : IndexCall → Except Panic BlockTree
  | .insertBlock block => (tree.insertBlock hash block).map Prod.snd
  | .processPrunedBlocks newlyPrunedBlocks => .ok (tree.processPrunedBlocks newlyPrunedBlocks)
  | .commitCallback windowSize commit => tree.commitCallback hash windowSize commit

/-- A block is inserted if no other block of its round is in the tree. -/
def AloneInRound (tree : BlockTree) : IndexCall → Prop
  | .insertBlock block => ∀ id other, tree.getBlock id = some other →
      other.round = block.round → id = block.id hash
  | _ => True

/-- The entries of the index are the blocks of the tree. -/
def RoundsIndexed (tree : BlockTree) : Prop := ∀ round id, tree.roundToIds.get? round = some id ↔
    ∃ block, tree.getBlock id = some block ∧ block.round = round

end Definitions

section Invariant

variable {hash : ConsensusHash} {tree after : BlockTree}

namespace RoundsIndexed

variable (indexed : RoundsIndexed tree)

include indexed

theorem of_same (sameBlocks : after.idToBlock = tree.idToBlock)
    (sameRounds : after.roundToIds = tree.roundToIds) : RoundsIndexed after := by
  intro round id
  rw [sameRounds, getBlock, getLinkableBlock, sameBlocks]
  exact indexed round id

theorem removeBlock (blockId : HashValue) : RoundsIndexed (tree.removeBlock blockId) := by
  intro round id
  have found : (tree.removeBlock blockId).getBlock id =
      if id = blockId then none else tree.getBlock id := by
    simp only [getBlock, getLinkableBlock, BlockTree.removeBlock, SortedMap.get?_erase]
    split <;> rfl
  rw [found, BlockTree.removeBlock]
  cases isBlock : tree.getBlock blockId with
  | none =>
    rw [indexed]
    by_cases same : id = blockId
    · simp [same, isBlock]
    · rw [if_neg same]
  | some block =>
    have isEntry := (indexed block.round blockId).mpr ⟨block, isBlock, rfl⟩
    dsimp only
    rw [SortedMap.get?_erase]
    by_cases sameRound : round = block.round
    · subst sameRound
      rw [if_pos rfl]
      refine ⟨by simp, ?_⟩
      rintro ⟨other, isOther, isRound⟩
      split at isOther
      · cases isOther
      · rename_i different
        have same := (indexed _ _).mpr ⟨other, isOther, isRound⟩
        rw [isEntry] at same
        exact absurd (Option.some.inj same).symm different
    · rw [if_neg sameRound, indexed]
      by_cases same : id = blockId
      · subst same
        simp [isBlock, Ne.symm sameRound]
      · rw [if_neg same]

theorem inserts {block : Block}
    (alone : tree.AloneInRound hash (.insertBlock block))
    (inserts : Inserts hash tree block after) :
    RoundsIndexed after := by
  cases inserts with
  | unchanged => exact indexed
  | @added parentBlock fresh parentFound =>
    have notThere : tree.getBlock (block.id hash) = none := map_eq_none_iff.mpr fresh
    have noEntry : tree.roundToIds.get? block.round = none := by
      refine eq_none_iff_forall_ne_some.mpr fun id isEntry => ?_
      obtain ⟨other, isOther, sameRound⟩ := (indexed _ _).mp isEntry
      rw [alone id other isOther sameRound, notThere] at isOther
      cases isOther
    intro round id
    have found : (tree.linkBlock hash block (parentBlock.withChild (block.id hash))).getBlock id =
        if id = block.id hash then some block else tree.getBlock id := by
      rw [getBlock, linkBlock_found]
      by_cases isNew : id = block.id hash
      · rw [if_pos isNew, if_pos isNew]
        rfl
      · rw [if_neg isNew, if_neg isNew, getBlock]
        split
        · rename_i isParent
          rw [isParent, parentFound]
          rfl
        · rfl
    rw [found, linkBlock, SortedMap.get?_orInsert, noEntry, getD_none]
    by_cases isNew : id = block.id hash
    · subst isNew
      simp only [if_true, Option.some.injEq, exists_eq_left', eq_comm (a := block.round)]
      split
      · rename_i sameRound
        simp [sameRound]
      · rename_i otherRound
        simp [indexed round, notThere, otherRound]
    · rw [if_neg isNew, ← indexed]
      split
      · rename_i sameRound
        simp [sameRound, noEntry, Ne.symm isNew]
      · rfl

theorem processPrunedBlocks (ids : List HashValue) :
    RoundsIndexed (tree.processPrunedBlocks ids) := by
  refine List.foldlRecOn _ _ (indexed.of_same rfl rfl) ?_
  intro pruned keeps id _
  exact keeps.removeBlock id

theorem commitCallback {windowSize : Option Nat} {commit : Commit}
    (isAfter : tree.commitCallback hash windowSize commit = .ok after) : RoundsIndexed after := by
  simp only [BlockTree.commitCallback, updateWindowRoot, updateHighestCommitCert, updateCommitRoot,
    bind_eq_ok, ensure_eq_ok, pure_eq_ok] at isAfter
  obtain ⟨_, _, _, _, _, _, ids, _, _, ⟨_, _, rfl⟩, isAfter⟩ := isAfter
  split at isAfter
  · simp only [bind_eq_ok, ensure_eq_ok, pure_eq_ok] at isAfter
    obtain ⟨_, _, rfl⟩ := isAfter
    exact (indexed.processPrunedBlocks ids).of_same rfl rfl
  · cases isAfter
    exact (indexed.processPrunedBlocks ids).of_same rfl rfl

theorem performs {call : IndexCall} (alone : tree.AloneInRound hash call)
    (performed : tree.performIndexed hash call = .ok after) : RoundsIndexed after := by
  cases call with
  | insertBlock =>
    obtain ⟨⟨result, added⟩, inserted, rfl⟩ := map_eq_ok.mp performed
    exact indexed.inserts alone (insertBlock_eq_ok inserted).1
  | processPrunedBlocks ids =>
    cases performed
    exact indexed.processPrunedBlocks ids
  | commitCallback => exact indexed.commitCallback performed

end RoundsIndexed

section Run

variable {commitRootId : HashValue} {windowRoot : Block} {rootQuorumCert : QuorumCert}
  {rootOrderedCert rootCommitCert : WrappedLedgerInfo} {maxPrunedBlocksInMem : Nat}

theorem roundsIndexed_new (isNew : BlockTree.new hash commitRootId windowRoot rootQuorumCert
    rootOrderedCert rootCommitCert maxPrunedBlocksInMem = .ok tree) : RoundsIndexed tree := by
  intro round id
  simp only [BlockTree.new, bind_eq_ok, ensure_eq_ok, pure_eq_ok, exists_const] at isNew
  obtain ⟨_, _, rfl⟩ := isNew
  simp only [getBlock, getLinkableBlock, SortedMap.get?_insert, SortedMap.get?_empty]
  by_cases isRoot : id = windowRoot.id hash
  · simp [isRoot, LinkableBlock.new, eq_comm]
  · simp [isRoot, Ne.symm isRoot]

/-- In every run in which blocks are alone in their rounds, the index names a block for the
rounds of the blocks. -/
theorem round_index_agrees {calls : List IndexCall} {start reached : BlockTree}
    (isNew : BlockTree.new hash commitRootId windowRoot rootQuorumCert
      rootOrderedCert rootCommitCert maxPrunedBlocksInMem = .ok start)
    (alone : RunMeets (performIndexed hash) (AloneInRound hash) start calls)
    (ran : runAll (performIndexed hash) start calls = .ok reached) (round : Nat) :
    ((reached.roundToIds.get? round).isSome ↔
        ∃ id block, reached.getBlock id = some block ∧ block.round = round) ∧
      ∀ id, reached.roundToIds.get? round = some id →
        ∃ block, reached.getBlock id = some block ∧ block.round = round := by
  have indexed : RoundsIndexed reached := by
    refine alone.invariant_of_ok (roundsIndexed_new isNew) ?_ ran
    intro before call _ indexed alone after performed
    exact indexed.performs alone performed
  refine ⟨?_, fun id => (indexed round id).mp⟩
  rw [isSome_iff_exists]
  exact exists_congr (indexed round)

end Run

end Invariant

namespace TwoOfRound

open LateChild (certificate info wrapped signed genesis)

/-- The id of a block tells its round and its time. -/
def hash : ConsensusHash where
  voteData _ := 0
  blockData
    | .whole data => Fin.ofNat _ (data.round + 10 * data.timestampUsecs + 1)
    | .optBlockDataForHash .. => 0
  waypoint _ := 0

def block (timestampUsecs : Nat) : Block :=
  ⟨⟨1, 1, timestampUsecs, certificate (info 0), .nilBlock []⟩, none⟩

def start : Except Panic BlockTree :=
  BlockTree.new hash 1 genesis (certificate (info 0)) (wrapped 0) (wrapped 0) 0

def commit : IndexCall := .commitCallback none ⟨2, wrapped 1, signed 1⟩

/-- The first of two blocks of round 1 is committed; the other takes the entry with it. -/
theorem committed_block_not_indexed : ∃ tree reached, start = .ok tree ∧
    runAll (performIndexed hash) tree [.insertBlock (block 0), .insertBlock (block 1), commit] =
        .ok reached ∧ reached.getBlock 2 = some (block 0) ∧ reached.roundToIds.get? 1 = none :=
  ⟨_, _, rfl, rfl, rfl, rfl⟩

theorem committed_block_indexed : ∃ tree reached, start = .ok tree ∧
    runAll (performIndexed hash) tree [.insertBlock (block 0), commit] = .ok reached ∧
      (reached.roundToIds.get? 1).isSome := by
  obtain ⟨tree, isNew, reached, ran, isThere⟩ : ∃ tree, start = .ok tree ∧ ∃ reached,
    runAll (performIndexed hash) tree [.insertBlock (block 0), commit] = .ok reached ∧
      reached.getBlock 2 = some (block 0) := ⟨_, rfl, _, rfl, rfl⟩
  have alone : RunMeets (performIndexed hash) (AloneInRound hash) tree
      [.insertBlock (block 0), commit] := by
    refine ⟨?_, fun _ _ => ⟨trivial, fun _ _ => trivial⟩⟩
    intro id other found sameRound
    obtain ⟨linkable, isFound, rfl⟩ := getBlock_eq_some.mp found
    obtain ⟨_, rfl⟩ := (new_found isNew).mp isFound
    exact absurd sameRound (by decide)
  exact ⟨tree, reached, isNew, ran, (round_index_agrees isNew alone ran 1).1.mpr
    ⟨2, block 0, isThere, rfl⟩⟩

end TwoOfRound

end BlockTree

end LumioNode
