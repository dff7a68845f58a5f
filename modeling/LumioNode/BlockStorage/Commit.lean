import LumioNode.BlockStorage.BlockWindow
import LumioNode.BlockStorage.Pruning

/-! # Committing a block

The window of a block below the commit root starts at or below the window root, so that
a commit moves that root down. -/

namespace LumioNode

open Library Relation List

namespace BlockTree

variable {hash : ConsensusHash} {known : List Block} {tree : BlockTree}
  {id root : HashValue} {linkable : LinkableBlock}

/-! ## Windows -/

/-- The root is a genesis block, or its parent comes before the start round. -/
def StartsAt (tree : BlockTree) (root : HashValue) (start : Nat) : Prop :=
  ∀ linkable, tree.getLinkableBlock root = some linkable →
    linkable.executedBlock.isGenesisBlock = true ∨ linkable.executedBlock.certifiedRound < start

variable {start fuel : Nat} {windowSize : Option Nat} {commitRoot : Block} {block : Block}

theorem Linked.parent_in_window (linked : Linked hash known tree)
    (starts : tree.StartsAt tree.windowRootId start) (found : tree.getBlock id = some block)
    (below : tree.Below tree.windowRootId id) (notGenesis : block.isGenesisBlock = false)
    (inWindow : start ≤ block.certifiedRound) :
    tree.Below tree.windowRootId block.parentId ∧ tree.Link block.parentId id := by
  obtain ⟨linkable, isFound, rfl⟩ := getBlock_eq_some.mp found
  refine linked.parent_below isFound below ?_
  rintro rfl
  rcases starts linkable isFound with isGenesis | before
  · simp [isGenesis] at notGenesis
  · omega

section

variable (linked : Linked hash known tree) (authentic : Authentic hash known)

include linked authentic

theorem Linked.followsParent (isKnown : block ∈ known) (increases : block.Increases) :
    tree.FollowsParent block := by
  intro notGenesis
  refine ⟨increases.resolve_left (by simp [notGenesis]), ?_⟩
  intro parent found
  obtain ⟨linkable, isFound, rfl⟩ := getBlock_eq_some.mp found
  obtain ⟨isParent, parentKnown⟩ := linked.keyed _ _ isFound
  exact (authentic block isKnown _ parentKnown isParent.symm).symm

theorem Linked.roundsIncrease : tree.RoundsIncrease hash := by
  constructor
  · intro id block found
    obtain ⟨linkable, isFound, rfl⟩ := getBlock_eq_some.mp found
    exact (linked.keyed id linkable isFound).1
  · intro id block found
    obtain ⟨linkable, isFound, rfl⟩ := getBlock_eq_some.mp found
    exact linked.followsParent authentic (linked.keyed id linkable isFound).2
      (linked.increasing id linkable isFound)

theorem Linked.ancestor_between {ancestor : Block} (starts : tree.StartsAt tree.windowRootId start)
    (found : tree.getLinkableBlock id = some linkable) (below : tree.Below tree.windowRootId id)
    (isAncestor : ReflTransGen tree.Parent linkable.executedBlock ancestor)
    (atLeast : start ≤ ancestor.round) : tree.getBlock (ancestor.id hash) = some ancestor ∧
      tree.Below tree.windowRootId (ancestor.id hash) ∧ tree.Below (ancestor.id hash) id := by
  have increase := linked.roundsIncrease authentic
  induction isAncestor with
  | refl =>
    rw [(linked.keyed id linkable found).1]
    exact ⟨getBlock_eq_some.mpr ⟨linkable, found, rfl⟩, below, .refl⟩
  | tail reaches isParent inductionHypothesis =>
    have follows := increase.follows id _ (getBlock_eq_some.mpr ⟨linkable, found, rfl⟩)
    obtain ⟨less, sameRound⟩ := increase.follows_of_reaches follows reaches isParent.1
    have isRound := sameRound _ isParent.2
    obtain ⟨isThere, fromRoot, toBlock⟩ := inductionHypothesis (by omega)
    obtain ⟨parentBelow, isLink⟩ :=
      linked.parent_in_window starts isThere fromRoot isParent.1 (by omega)
    rw [increase.keyed _ _ isParent.2]
    exact ⟨isParent.2, parentBelow, .head isLink toBlock⟩

theorem Linked.getOrderedBlockWindow_total (positive : windowSize ≠ some 0)
    (isCommitRoot : tree.commitRoot = .ok commitRoot) (isKnown : block ∈ known)
    (increases : block.Increases) :
    tree.getOrderedBlockWindow hash block windowSize = .error .attemptToAddWithOverflow ∨
      ∃ outcome, tree.getOrderedBlockWindow hash block windowSize = .ok outcome := by
  by_cases earlier : block.round < commitRoot.round
  · right
    simp only [getOrderedBlockWindow, isCommitRoot, ok_bind, if_pos earlier]
    exact ⟨_, rfl⟩
  · cases windowSize with
    | none =>
      right
      simp only [getOrderedBlockWindow, isCommitRoot, ok_bind, if_neg earlier]
      exact ⟨_, rfl⟩
    | some size =>
      have sizePositive : 0 < size := Nat.pos_of_ne_zero fun isZero =>
        positive (congrArg some isZero)
      have follows := linked.followsParent authentic isKnown increases
      by_cases notLast : block.round < u64Max
      · right
        rcases (linked.roundsIncrease authentic).window_ok follows isCommitRoot
          (Nat.not_lt.mp earlier) notLast sizePositive with ⟨_, _, isOk⟩ | ⟨_, _, isOk⟩
        · exact ⟨_, isOk⟩
        · exact ⟨_, isOk⟩
      · exact .inl (window_overflows isCommitRoot (Nat.not_lt.mp earlier) notLast sizePositive)

/-! ## Paths from a root -/

/-- One block extends another: it names it as its parent and comes later. -/
def Extends (hash : ConsensusHash) (parent child : Block) : Prop :=
  child.parentId = parent.id hash ∧ parent.round < child.round

structure PathUp (hash : ConsensusHash) (known : List Block) (tree : BlockTree) (rootId : HashValue)
    (root : Block) (id : HashValue) (block : Block) (blocks : List Block) : Prop where
  chain : (blocks ++ [root]).IsChain fun child parent => Extends hash parent child
  head : (blocks ++ [root]).head? = some block
  between : ∀ member ∈ blocks, member ∈ known ∧
    tree.Below rootId (member.id hash) ∧ tree.Below (member.id hash) id

theorem Linked.pathLoop_ok {rootId : HashValue} {rootBlock : LinkableBlock}
    (rootFound : tree.getLinkableBlock rootId = some rootBlock)
    (found : tree.getLinkableBlock id = some linkable) (below : tree.Below rootId id)
    (enough : tree.countBelow linkable.executedBlock.round < fuel) :
    ∃ blocks, tree.pathLoop rootBlock.executedBlock.round fuel id = .ok (some (blocks, rootId)) ∧
        PathUp hash known tree rootId rootBlock.executedBlock id linkable.executedBlock blocks := by
  induction fuel generalizing id linkable with
  | zero => omega
  | succ fuel inductionHypothesis =>
    have blockFound : tree.getBlock id = some linkable.executedBlock :=
      getBlock_eq_some.mpr ⟨linkable, found, rfl⟩
    have ranked := linked.ranked authentic
    by_cases isRoot : id = rootId
    · subst isRoot
      rw [found] at rootFound
      cases rootFound
      refine ⟨[], ?_, isChain_singleton _, rfl, ?_⟩
      · simp only [pathLoop, blockFound, if_pos (le_refl _)]
      · intro member isMember
        cases isMember
    · have grows := ranked.lt below (Ne.symm isRoot)
      rw [roundOf_eq rootFound, roundOf_eq found] at grows
      obtain ⟨parentBelow, isLink⟩ := linked.parent_below found below isRoot
      have parentGrows := ranked _ _ isLink
      obtain ⟨parentBlock, parentFound, isChild⟩ := isLink
      rw [roundOf_eq parentFound, roundOf_eq found] at parentGrows
      have fewer := countBelow_lt parentFound parentGrows
      obtain ⟨blocks, walked, pathUp⟩ := inductionHypothesis parentFound parentBelow (by omega)
      have isLink : tree.Link linkable.executedBlock.parentId id :=
        ⟨parentBlock, parentFound, isChild⟩
      refine ⟨linkable.executedBlock :: blocks, ?_, ?_, rfl, ?_⟩
      · simp only [pathLoop, blockFound, if_neg (Nat.not_le.mpr grows), walked]
        rfl
      · rw [cons_append]
        refine isChain_cons.mpr ⟨?_, pathUp.chain⟩
        intro next isNext
        rw [pathUp.head] at isNext
        cases isNext
        exact ⟨(linked.keyed _ _ parentFound).1.symm, parentGrows⟩
      · intro member isMember
        rcases mem_cons.mp isMember with rfl | inRest
        · obtain ⟨isId, isKnown⟩ := linked.keyed id linkable found
          rw [isId]
          exact ⟨isKnown, below, .refl⟩
        · obtain ⟨isKnown, fromRoot, toParent⟩ := pathUp.between member inRest
          exact ⟨isKnown, fromRoot, toParent.tail isLink⟩

/-! ## The window root -/

/-- The window of a round does not reach beyond the window root. -/
def Windowed (windowSize : Option Nat) (round : Nat) (tree : BlockTree) : Prop :=
  ∀ size, windowSize = some size → tree.StartsAt tree.windowRootId (round + 1 - size)

/-- The new window root lies between the old one and the block, or the round is the last. -/
theorem Linked.findWindowRoot_ok (positive : windowSize ≠ some 0)
    (isCommitRoot : tree.commitRoot = .ok commitRoot)
    (windowed : Windowed windowSize commitRoot.round tree)
    (found : tree.getLinkableBlock id = some linkable) (below : tree.Below tree.windowRootId id)
    (later : commitRoot.round ≤ linkable.executedBlock.round) :
    tree.findWindowRoot hash id windowSize = .error .attemptToAddWithOverflow ∨
      ∃ next, tree.findWindowRoot hash id windowSize = .ok next ∧
        tree.Below tree.windowRootId next ∧ tree.Below next id ∧
        ∀ size, windowSize = some size →
          tree.StartsAt next (linkable.executedBlock.round + 1 - size) := by
  have blockFound : tree.getBlock id = some linkable.executedBlock :=
    getBlock_eq_some.mpr ⟨linkable, found, rfl⟩
  have increase := linked.roundsIncrease authentic
  have follows := increase.follows _ _ blockFound
  cases windowSize with
  | none =>
    refine .inr ⟨id, ?_, below, .refl, nofun⟩
    have isWindow : tree.getOrderedBlockWindow hash linkable.executedBlock none = .ok (.ok []) := by
      simp only [getOrderedBlockWindow, isCommitRoot, ok_bind, if_neg (Nat.not_lt.mpr later)]
      rfl
    rw [findWindowRoot_of_window blockFound positive isWindow]
    exact congrArg _ (increase.keyed _ _ blockFound)
  | some size =>
    have sizePositive : 0 < size := Nat.pos_of_ne_zero fun isZero =>
      positive (congrArg some isZero)
    have starts : tree.StartsAt tree.windowRootId (linkable.executedBlock.round + 1 - size) :=
      fun _ found => (windowed size rfl _ found).imp_right fun before => by omega
    by_cases notLast : linkable.executedBlock.round < u64Max
    · rcases increase.window_ok follows isCommitRoot later notLast sizePositive with
        ⟨child, lacks, _⟩ | ⟨walked, collects, isWindow⟩
      · have childFollows := increase.follows_of_reaches follows lacks.isAncestor lacks.notGenesis
        obtain ⟨isThere, fromRoot, _⟩ := linked.ancestor_between authentic starts found below
          lacks.isAncestor (lacks.inWindow.trans childFollows.1.le)
        obtain ⟨_, parent, parentFound, _⟩ :=
          linked.parent_in_window starts isThere fromRoot lacks.notGenesis lacks.inWindow
        have missing := lacks.missing
        rw [getBlock, parentFound] at missing
        cases missing
      · obtain ⟨reaches, atLeast, before⟩ := Collects.first increase follows collects (by omega)
        obtain ⟨isThere, fromRoot, toBlock⟩ :=
          linked.ancestor_between authentic starts found below reaches atLeast
        refine .inr ⟨_, findWindowRoot_of_window blockFound positive isWindow, fromRoot, toBlock,
          ?_⟩
        rintro _ ⟨⟩ root rootFound
        rw [getBlock, rootFound] at isThere
        rw [← Option.some.inj isThere] at reaches before
        by_cases isGenesis : root.executedBlock.isGenesisBlock = true
        · exact .inl isGenesis
        · refine .inr (Nat.not_le.mp fun least => ?_)
          have notGenesis := Bool.eq_false_iff.mpr isGenesis
          cases parentFound : tree.getBlock root.executedBlock.parentId with
          | none => exact collects.noneLacks _ ⟨reaches, notGenesis, least, parentFound⟩
          | some parent =>
            have earlier := before parent (.single ⟨notGenesis, parentFound⟩)
            have sameRound :=
              (increase.follows_of_reaches follows reaches notGenesis).2 _ parentFound
            omega
    · left
      simp only [findWindowRoot, ensure_of positive, blockFound, expect, ok_bind,
        window_overflows isCommitRoot later notLast sizePositive, error_bind]

end

/-! ## The commit -/

/-- The proofs of the commit are for the block of this id and round. -/
structure Commit.Proves (commit : Commit) (round : Nat) : Prop where
  matched : commit.finalityProof.commitInfo.matchOrderedOnly
    commit.commitDecision.ledgerInfo.commitInfo = true
  id : commit.commitDecision.ledgerInfo.commitInfo.id = commit.blockId
  round : commit.commitDecision.ledgerInfo.commitInfo.round = round

/-- Between two calls the commit root is below the window root, has the highest commit
certificate, and its window starts at the window root. -/
structure Rooted (windowSize : Option Nat) (tree : BlockTree) (commitRoot : Block) : Prop where
  isCommitRoot : tree.getBlock tree.commitRootId = some commitRoot
  below : tree.Below tree.windowRootId tree.commitRootId
  certified : tree.highestCommitCert.commitInfo.round = commitRoot.round
  windowed : Windowed windowSize commitRoot.round tree

structure Commits (tree : BlockTree) (blockId : HashValue) (after : BlockTree) : Prop where
  cutOff : ∃ next ids removed, tree.Below tree.windowRootId next ∧
    tree.Below next blockId ∧ tree.Cuts next ids ∧
    tree.Moved next ids removed after
  commitRoot : after.commitRootId = blockId
  orderedRoot : after.orderedRootId = tree.orderedRootId

theorem processPrunedBlocks_moved (tree : BlockTree) (next : HashValue) (ids : List HashValue) :
    ∃ removed, tree.Moved next ids removed
      { tree.processPrunedBlocks ids with windowRootId := next } := by
  refine ⟨(tree.prunedBlockIds ++ ids).take
    ((tree.prunedBlockIds ++ ids).length - tree.maxPrunedBlocksInMem),
    ?_, ?_, rfl⟩
  · simp only [processPrunedBlocks]
    rw [(foldl_removeBlock_frame _).1]
    exact (take_append_drop _ _).symm
  · intro id
    exact foldl_removeBlock_found _

theorem updateWindowRoot_ok (isThere : tree.blockExists root = true) :
    tree.updateWindowRoot root = .ok { tree with windowRootId := root } := by
  simp only [updateWindowRoot, ensure, if_pos isThere]
  rfl

theorem updateCommitRoot_ok (isThere : tree.blockExists root = true) :
    tree.updateCommitRoot root = .ok { tree with commitRootId := root } := by
  simp only [updateCommitRoot, ensure, if_pos isThere]
  rfl

/-- Committing a block below the commit root succeeds and keeps links and roots. -/
theorem Linked.commitCallback_ok (linked : Linked hash known tree)
    (authentic : Authentic hash known) (positive : windowSize ≠ some 0)
    (rooted : Rooted windowSize tree commitRoot) {commit : Commit}
    (found : tree.getLinkableBlock commit.blockId = some linkable)
    (below : tree.Below tree.commitRootId commit.blockId)
    (later : commitRoot.round < linkable.executedBlock.round)
    (proves : commit.Proves linkable.executedBlock.round) :
    tree.commitCallback hash windowSize commit = .error .attemptToAddWithOverflow ∨
      ∃ after, tree.commitCallback hash windowSize commit = .ok after ∧
        tree.Commits commit.blockId after ∧ Linked hash known after ∧
        Rooted windowSize after linkable.executedBlock := by
  have isCommitRoot : tree.commitRoot = .ok commitRoot := by
    rw [BlockTree.commitRoot, rooted.isCommitRoot]
    rfl
  have belowRoot := rooted.below.trans below
  have merged : (commit.finalityProof.createMergedWithExecutedState commit.commitDecision).mapError
        (fun _ => Panic.inconsistentCommitProof) =
      .ok ⟨commit.finalityProof.voteData, commit.commitDecision⟩ := by
    simp only [WrappedLedgerInfo.createMergedWithExecutedState, ensure, if_pos proves.matched]
    rfl
  rcases linked.findWindowRoot_ok authentic positive isCommitRoot
      rooted.windowed found belowRoot (le_of_lt later) with
    overflows | ⟨next, isNext, fromRoot, toBlock, starts⟩
  · left
    simp only [commitCallback, isCommitRoot, merged, overflows, ok_bind, error_bind]
  · obtain ⟨ids, isCut, cuts⟩ := linked.findBlocksToPrune_cuts authentic fromRoot
    obtain ⟨removed, moved⟩ := processPrunedBlocks_moved tree next ids
    have movedLinked := linked.moves cuts moved authentic fromRoot
    have toBlockAfter := moved.below_kept linked cuts fromRoot .refl toBlock
    have rootExists : (tree.processPrunedBlocks ids).blockExists next = true :=
      movedLinked.windowRoot
    have blockExists : (tree.processPrunedBlocks ids).blockExists commit.blockId = true :=
      movedLinked.exists_below movedLinked.windowRoot toBlockAfter
    have grows : (tree.processPrunedBlocks ids).highestCommitCert.commitInfo.round <
        commit.commitDecision.ledgerInfo.commitInfo.round := by
      rw [processPrunedBlocks, (foldl_removeBlock_frame _).2.2.2.2, proves.round]
      exact rooted.certified ▸ later
    have stays : ∀ id linkable, (tree.processPrunedBlocks ids).getLinkableBlock id = some linkable →
        tree.getLinkableBlock id = some linkable := by
      intro id linkable isFound
      have isFoundEq := moved.found id
      change (tree.processPrunedBlocks ids).getLinkableBlock id = _ at isFoundEq
      rw [isFound] at isFoundEq
      split at isFoundEq
      · cases isFoundEq
      · exact isFoundEq.symm
    refine .inr ⟨{ tree.processPrunedBlocks ids with
      windowRootId := next
      highestCommitCert := ⟨commit.finalityProof.voteData, commit.commitDecision⟩
      commitRootId := commit.blockId }, ?_, ?_, ?_, ?_⟩
    · simp only [commitCallback, isCommitRoot, merged, isNext, isCut,
        ok_bind, updateWindowRoot_ok rootExists]
      rw [← proves.id] at blockExists
      rw [updateHighestCommitCert, if_pos (by exact grows)]
      rw [updateCommitRoot_ok (by exact blockExists)]
      simp only [WrappedLedgerInfo.commitInfo, proves.id]
    · refine ⟨⟨next, ids, removed, fromRoot, toBlock, cuts, ?_⟩, rfl, ?_⟩
      · exact ⟨moved.queue, moved.found, rfl⟩
      · exact (foldl_removeBlock_frame _).2.2.2.1
    · exact movedLinked.of_same rfl rfl rfl
    · refine ⟨?_, toBlockAfter, proves.round, ?_⟩
      · obtain ⟨after, afterFound⟩ := blockExists_iff.mp blockExists
        have sameBlock := stays _ _ afterFound
        rw [found] at sameBlock
        cases sameBlock
        exact getBlock_eq_some.mpr ⟨linkable, afterFound, rfl⟩
      · intro size isSome rootBlock rootFound
        exact starts size isSome rootBlock (stays _ _ rootFound)

end BlockTree

end LumioNode
