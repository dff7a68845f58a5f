import LumioNode.BlockStorage.Recovery

/-! # The chain of ordered blocks

The executed blocks form one chain that goes on along the finality proofs, and the three
roots stay in the tree, one above the other. -/

namespace LumioNode

open Library Relation List BlockData

namespace BlockStore

open BlockTree

/-- The blocks handed to execution, after the first ordered root. -/
def log (first : Block) (store : BlockStore) : List Block := first :: store.finalized.flatten

/-- `first` is the ordered root at the start, and `chain` that of the finality proofs. -/
structure Ordered (hash : ConsensusHash) (known chain : List Block)
    (first : Block) (store : BlockStore) : Prop where
  positive : store.windowSize ≠ some 0
  linked : Linked hash known store.inner
  rooted : ∃ commitRoot, Rooted store.windowSize store.inner commitRoot
  below : store.inner.Below store.inner.commitRootId store.inner.orderedRootId
  logChain : (store.log first).IsChain (Extends hash)
  logKnown : ∀ block ∈ store.log first, block ∈ known
  logEnds : ∃ orderedRoot, store.inner.getBlock store.inner.orderedRootId = some orderedRoot ∧
      (store.log first).getLast? = some orderedRoot
  logBetween : ∀ block ∈ store.log first,
    store.inner.roundOf store.inner.commitRootId ≤ block.round →
      store.inner.Below store.inner.commitRootId (block.id hash) ∧
        store.inner.Below (block.id hash) store.inner.orderedRootId
  onChain : ∃ block ∈ chain, block.id hash = store.inner.orderedRootId
  chainLinked : ∀ before parent child after, chain = before ++ parent :: child :: after →
      store.inner.roundOf store.inner.orderedRootId ≤ parent.round →
      store.inner.blockExists (child.id hash) → store.inner.Link (parent.id hash) (child.id hash)

section Steps

variable {hash : ConsensusHash} {known chain : List Block} {first : Block}
  {store : BlockStore} {tree : BlockTree}

variable {block : Block}

section

variable (collisionFree : IdsCollisionFree hash (known ++ chain))
  (linked : Linked hash known tree) (isKnown : block ∈ known ++ chain)

include collisionFree linked isKnown

theorem same_of_found {linkable : LinkableBlock}
    (found : tree.getLinkableBlock (block.id hash) = some linkable) :
    linkable.executedBlock.round = block.round ∧
      linkable.executedBlock.parentId = block.parentId := by
  obtain ⟨isId, inTreeKnown⟩ := linked.keyed _ _ found
  have sameInput := collisionFree _ (mem_append_left _ inTreeKnown)
    _ isKnown isId
  exact ⟨(eq_of_hashInput_eq sameInput).1,
    parentId_eq_of_hashInput_eq sameInput⟩

theorem roundOf_known (isThere : tree.blockExists (block.id hash)) :
    tree.roundOf (block.id hash) = block.round := by
  obtain ⟨linkable, found⟩ := blockExists_iff.mp isThere
  rw [roundOf_eq found]
  exact (same_of_found collisionFree linked isKnown found).1

end

variable {blocks : List Block}

theorem rounds_pairwise (isChain : blocks.IsChain (Extends hash)) :
    blocks.Pairwise fun earlier later => earlier.round < later.round := by
  have increasing : (blocks.map Block.round).IsChain (· < ·) :=
    (isChain_map _).mpr (isChain.imp fun _ _ extending => extending.2)
  exact pairwise_map.mp increasing.pairwise

theorem mem_before_or_eq {before after : List Block} {other : Block}
    (isChain : (before ++ block :: after).IsChain (Extends hash))
    (isOther : other ∈ before ++ block :: after) (notLater : other.round ≤ block.round) :
    other ∈ before ∨ other = block := by
  have increasing := pairwise_append.mp (rounds_pairwise isChain)
  rcases mem_append.mp isOther with inBefore | fromBlock
  · exact .inl inBefore
  · rcases mem_cons.mp fromBlock with same | inAfter
    · exact .inr same
    · have later := (pairwise_cons.mp increasing.2.1).1 other inAfter
      omega

section

variable (ordered : Ordered hash known chain first store)

include ordered

/-- Blocks of the chain that do not come before the ordered root are below it. -/
theorem Ordered.chain_below (collisionFree : IdsCollisionFree hash (known ++ chain))
    (isChain : chain.IsChain (Extends hash)) {before after : List Block}
    (split : chain = before ++ block :: after) (isThere : store.inner.blockExists (block.id hash))
    (notEarlier : store.inner.roundOf store.inner.orderedRootId ≤ block.round) :
    store.inner.Below store.inner.orderedRootId (block.id hash) := by
  obtain ⟨root, rootOnChain, isRoot⟩ := ordered.onChain
  obtain ⟨orderedRoot, rootFound, _⟩ := ordered.logEnds
  have rootExists : store.inner.blockExists (root.id hash) :=
    isRoot ▸ blockExists_of_getBlock rootFound
  have rootRound := roundOf_known collisionFree ordered.linked
    (mem_append_right _ rootOnChain) rootExists
  rw [isRoot] at rootRound
  have ordering := mem_before_or_eq (split ▸ isChain) (split ▸ rootOnChain) (rootRound ▸ notEarlier)
  induction before using List.reverseRecOn generalizing block after with
  | nil =>
    rcases ordering with inNil | same
    · cases inNil
    · rw [← same, isRoot]
  | append_singleton earlier parent inductionHypothesis =>
    rcases ordering with inBefore | same
    · have parentSplit : chain = earlier ++ parent :: block :: after := by
        rw [split, append_assoc]
        rfl
      have parentOrdering : root ∈ earlier ∨ root = parent := by
        rw [mem_append, mem_singleton] at inBefore
        exact inBefore
      have parentNotEarlier : root.round ≤ parent.round := by
        rcases parentOrdering with inEarlier | same
        · have increasing := rounds_pairwise (parentSplit ▸ isChain)
          exact ((pairwise_append.mp increasing).2.2 root inEarlier
            parent mem_cons_self).le
        · rw [same]
      have isLink := ordered.chainLinked earlier parent block after
        parentSplit (rootRound ▸ parentNotEarlier) isThere
      have parentThere := parentExists_of_link isLink
      exact (inductionHypothesis parentSplit parentThere (rootRound ▸ parentNotEarlier)
        parentOrdering).tail isLink
    · rw [← same, isRoot]

/-! ## Calls on the certificates -/

theorem Ordered.keepsBlocks {after : BlockTree} (keeps : store.inner.KeepsBlocks after) :
    Ordered hash known chain first { store with inner := after } := by
  cases store with | mk inner windowSize finalized =>
  cases inner
  cases after
  obtain ⟨⟨⟩, ⟨⟩, ⟨⟩, ⟨⟩, ⟨⟩, ⟨⟩⟩ := keeps
  obtain ⟨commitRoot, rooted⟩ := ordered.rooted
  exact { ordered with
    linked := ordered.linked.of_same rfl rfl rfl
    rooted := ⟨commitRoot, { rooted with }⟩ }

/-- Certificates panic only at the highest certified block, which may be missing. -/
theorem Ordered.insertSingleQuorumCert_ok (qc : QuorumCert) (saved : Except String Unit) :
    store.insertSingleQuorumCert hash qc saved = .error .highestCertifiedBlockMustExist ∨
      ∃ result after, store.insertSingleQuorumCert hash qc saved = .ok (result, after) ∧
          Ordered hash known chain first after := by
  cases outcome : store.insertSingleQuorumCert hash qc saved with
  | error =>
    refine .inl (congrArg Except.error ?_)
    unfold insertSingleQuorumCert at outcome
    split at outcome
    · cases outcome
    · next found =>
      split at outcome
      · cases outcome
      · split at outcome
        · cases outcome
        · simp only [BlockTree.insertQuorumCert, found, highestCertifiedBlock, expect] at outcome
          split at outcome <;> cases outcome
          rfl
  | ok pair =>
    obtain ⟨tree, keeps, same⟩ := insertSingleQuorumCert_keepsBlocks outcome
    exact .inr ⟨pair.1, pair.2, rfl, same ▸ ordered.keepsBlocks keeps⟩

end

/-! ## Inserting a block -/

section

variable (ordered : Ordered hash known chain first store)
  (collisionFree : IdsCollisionFree hash (known ++ chain)) (isChain : chain.IsChain (Extends hash))
  (isKnown : block ∈ known) (increases : block.certifiedRound < block.round)

include ordered collisionFree isChain isKnown increases

theorem Ordered.inserts {added : BlockTree} (inserts : Inserts hash store.inner block added) :
    Ordered hash known chain first { store with inner := added } := by
  have linked := ordered.linked.inserts isKnown increases inserts
  cases inserts with
  | unchanged => exact ordered
  | @added parentBlock fresh parentFound =>
    have getBlock_kept : ∀ id existing, store.inner.getBlock id = some existing →
        (store.inner.linkBlock hash block (parentBlock.withChild (block.id hash))).getBlock id =
            some existing := by
      intro id existing isExisting
      obtain ⟨linkable, found, rfl⟩ := getBlock_eq_some.mp isExisting
      obtain ⟨after, afterFound, same, _⟩ := found_added fresh parentFound found
      exact getBlock_eq_some.mpr ⟨after, afterFound, same⟩
    have below_kept : ∀ root id, store.inner.Below root id → (store.inner.linkBlock hash block
        (parentBlock.withChild (block.id hash))).Below root id :=
      fun root id => below_added fresh parentFound
    obtain ⟨commitRoot, rooted⟩ := ordered.rooted
    obtain ⟨orderedRoot, rootFound, logEnds⟩ := ordered.logEnds
    refine ⟨ordered.positive, linked, ⟨commitRoot, ?_⟩,
      below_kept _ _ ordered.below, ordered.logChain, ordered.logKnown,
      ⟨orderedRoot, getBlock_kept _ _ rootFound, logEnds⟩, ?_,
      ordered.onChain, ?_⟩
    · refine ⟨getBlock_kept _ _ rooted.isCommitRoot,
        below_kept _ _ rooted.below, rooted.certified, ?_⟩
      intro size isSome linkable found
      obtain ⟨windowRoot, windowFound⟩ := blockExists_iff.mp ordered.linked.windowRoot
      have kept := getBlock_kept _ _ (getBlock_eq_some.mpr ⟨windowRoot, windowFound, rfl⟩)
      have isBlock := getBlock_eq_some.mpr ⟨linkable, found, rfl⟩
      injection isBlock.symm.trans kept with same
      rw [same]
      exact rooted.windowed size isSome windowRoot windowFound
    · intro logged inLog notEarlier
      have sameRound := roundOf_of_getBlock (getBlock_kept _ _ rooted.isCommitRoot)
      have wasRound := roundOf_of_getBlock rooted.isCommitRoot
      have between := ordered.logBetween logged inLog (wasRound ▸ sameRound ▸ notEarlier)
      exact ⟨below_kept _ _ between.1, below_kept _ _ between.2⟩
    · intro before parent child after split notEarlier isThere
      obtain ⟨linkable, found⟩ := blockExists_iff.mp isThere
      refine (added_link fresh parentFound).mpr ?_
      rcases added_found parentFound found with
        ⟨isNew, _⟩ | ⟨previous, wasFound, _⟩
      · refine .inr ⟨?_, isNew⟩
        have childOnChain : child ∈ chain := by
          rw [split]
          simp
        have sameInput := collisionFree child (mem_append_right _ childOnChain) block
          (mem_append_left _ isKnown) isNew
        have extending : Extends hash parent child := by
          rw [split] at isChain
          exact (isChain_cons_cons.mp (isChain_append.mp isChain).2.1).1
        rw [← extending.1]
        exact parentId_eq_of_hashInput_eq sameInput
      · refine .inl (ordered.chainLinked before parent child after split
          ?_ (blockExists_iff.mpr ⟨previous, wasFound⟩))
        have sameRound := roundOf_of_getBlock (getBlock_kept _ _ rootFound)
        have wasRound := roundOf_of_getBlock rootFound
        exact wasRound ▸ sameRound ▸ notEarlier

theorem Ordered.insertBlockInner_ok (pipelineBuilt saved : Except String Unit) :
    ∃ result after, store.insertBlockInner hash block pipelineBuilt saved =
        .ok (result, after) ∧ Ordered hash known chain first after := by
  cases pipelineBuilt with
  | error => exact ⟨_, _, rfl, ordered⟩
  | ok =>
    cases saved with
    | error => exact ⟨_, _, rfl, ordered⟩
    | ok =>
      obtain ⟨result, added, inserted⟩ := ordered.linked.insertBlock_ok block
      simp only [insertBlockInner, inserted, ok_bind]
      exact ⟨_, _, rfl, ordered.inserts collisionFree isChain isKnown
        increases (insertBlock_eq_ok inserted).1⟩

end

section

variable (ordered : Ordered hash known chain first store)

include ordered

theorem Ordered.insertBlock_ok
    (authentic : Authentic hash known) (collisionFree : IdsCollisionFree hash (known ++ chain))
    (isChain : chain.IsChain (Extends hash)) (isKnown : block ∈ known)
    (increases : block.certifiedRound < block.round) (pipelineBuilt saved : Except String Unit) :
    store.insertBlock hash block pipelineBuilt saved = .error .attemptToAddWithOverflow ∨
      ∃ result after, store.insertBlock hash block pipelineBuilt saved =
          .ok (result, after) ∧ Ordered hash known chain first after := by
  cases present : store.inner.getBlock (block.id hash) with
  | some =>
    simp only [insertBlock, present]
    exact .inr ⟨_, _, rfl, ordered⟩
  | none =>
    obtain ⟨orderedRoot, rootFound, _⟩ := ordered.logEnds
    obtain ⟨commitRoot, rooted⟩ := ordered.rooted
    have isOrderedRoot : store.inner.orderedRoot = .ok orderedRoot := by
      rw [BlockTree.orderedRoot, rootFound]
      rfl
    have isCommitRoot : store.inner.commitRoot = .ok commitRoot := by
      rw [BlockTree.commitRoot, rooted.isCommitRoot]
      rfl
    by_cases old : block.round ≤ orderedRoot.round
    · simp only [insertBlock, present, isOrderedRoot, ok_bind, if_pos old]
      exact .inr ⟨_, _, rfl, ordered⟩
    · rcases ordered.linked.getOrderedBlockWindow_total authentic
          ordered.positive isCommitRoot isKnown (.inr increases) with
        overflows | ⟨window, isWindow⟩
      · left
        simp only [insertBlock, present, isOrderedRoot, ok_bind, if_neg old, overflows, error_bind]
      · right
        simp only [insertBlock, present, isOrderedRoot, ok_bind, if_neg old, isWindow]
        cases window with
        | error => exact ⟨_, _, rfl, ordered⟩
        | ok =>
          exact ordered.insertBlockInner_ok collisionFree isChain isKnown
            increases pipelineBuilt saved

/-! ## Sending blocks for execution -/

theorem Ordered.extendsLog {rootBlock : LinkableBlock} {id : HashValue}
    (rootFound : store.inner.getLinkableBlock store.inner.orderedRootId = some rootBlock)
    (pathUp : PathUp hash known store.inner store.inner.orderedRootId rootBlock.executedBlock id
      block blocks) (different : blocks ≠ []) :
    (store.log first ++ blocks.reverse).IsChain (Extends hash) ∧
      (store.log first ++ blocks.reverse).getLast? = some block := by
  obtain ⟨orderedRoot, isRoot, logEnds⟩ := ordered.logEnds
  have sameRoot : rootBlock.executedBlock = orderedRoot := by
    have found := getBlock_eq_some.mpr ⟨rootBlock, rootFound, rfl⟩
    exact Option.some.inj (found.symm.trans isRoot)
  have downward : (orderedRoot :: blocks.reverse).IsChain (Extends hash) := by
    have upward := isChain_reverse.mpr pathUp.chain
    rw [reverse_append, reverse_singleton, sameRoot] at upward
    exact upward
  obtain ⟨fromRoot, pathChain⟩ := isChain_cons.mp downward
  constructor
  · refine isChain_append.mpr ⟨ordered.logChain, pathChain, ?_⟩
    intro last isLast next isNext
    rw [logEnds] at isLast
    cases isLast
    exact fromRoot next isNext
  · have head := pathUp.head
    rw [List.head?_append_of_ne_nil _ different] at head
    rw [List.getLast?_append_of_ne_nil _ (by simpa using different), List.getLast?_reverse]
    exact head

theorem Ordered.sends {rootBlock linkable : LinkableBlock} {id : HashValue}
    (rootFound : store.inner.getLinkableBlock store.inner.orderedRootId = some rootBlock)
    (found : store.inner.getLinkableBlock id = some linkable)
    (later : rootBlock.executedBlock.round < linkable.executedBlock.round)
    (below : store.inner.Below store.inner.orderedRootId id)
    (onChain : ∃ block ∈ chain, block.id hash = id)
    (pathUp : PathUp hash known store.inner store.inner.orderedRootId rootBlock.executedBlock id
      linkable.executedBlock blocks) (different : blocks ≠ []) :
    Ordered hash known chain first { store with
      inner := { store.inner with orderedRootId := id }
      finalized := store.finalized ++ [blocks.reverse] } := by
  obtain ⟨commitRoot, rooted⟩ := ordered.rooted
  obtain ⟨logChain, logEnds⟩ := ordered.extendsLog rootFound pathUp different
  have logEq : log first { store with
      inner := { store.inner with orderedRootId := id }
      finalized := store.finalized ++ [blocks.reverse] } = store.log first ++ blocks.reverse := by
    simp [log]
  refine ⟨ordered.positive, ordered.linked.of_same rfl rfl rfl,
    ⟨commitRoot, ⟨rooted.isCommitRoot, rooted.below, rooted.certified,
      rooted.windowed⟩⟩, ordered.below.trans below, ?_, ?_, ?_, ?_, onChain,
    ?_⟩
  · rw [logEq]
    exact logChain
  · intro block inLog
    rw [logEq, mem_append, mem_reverse] at inLog
    rcases inLog with before | onPath
    · exact ordered.logKnown block before
    · exact (pathUp.between block onPath).1
  · rw [logEq]
    exact ⟨_, getBlock_eq_some.mpr ⟨linkable, found, rfl⟩, logEnds⟩
  · intro block inLog notEarlier
    rw [logEq, mem_append, mem_reverse] at inLog
    rcases inLog with before | onPath
    · obtain ⟨fromCommit, toOrdered⟩ := ordered.logBetween block before notEarlier
      exact ⟨fromCommit, toOrdered.trans below⟩
    · obtain ⟨_, fromOrdered, toBlock⟩ := pathUp.between block onPath
      exact ⟨ordered.below.trans fromOrdered, toBlock⟩
  · intro before parent child after split notEarlier isThere
    apply ordered.chainLinked before parent child after split ?_ isThere
    have newRound := roundOf_eq found
    have oldRound := roundOf_eq rootFound
    change store.inner.roundOf id ≤ parent.round at notEarlier
    omega

theorem Ordered.sendForExecution_ok
    (authentic : Authentic hash known) (collisionFree : IdsCollisionFree hash (known ++ chain))
    (isChain : chain.IsChain (Extends hash)) {finalityProof : WrappedLedgerInfo}
    (onChain : ∃ block ∈ chain, block.id hash = finalityProof.commitInfo.id) :
    ∃ result after, store.sendForExecution hash finalityProof = .ok (result, after) ∧
        Ordered hash known chain first after := by
  cases found : store.inner.getBlock finalityProof.commitInfo.id with
  | none =>
    simp only [sendForExecution, found]
    exact ⟨_, _, rfl, ordered⟩
  | some =>
    obtain ⟨orderedRoot, isRoot, _⟩ := ordered.logEnds
    obtain ⟨rootBlock, rootFound, rfl⟩ := getBlock_eq_some.mp isRoot
    obtain ⟨linkable, linkableFound, rfl⟩ := getBlock_eq_some.mp found
    have isOrderedRoot : store.inner.orderedRoot = .ok rootBlock.executedBlock := by
      rw [BlockTree.orderedRoot, isRoot]
      rfl
    by_cases old : linkable.executedBlock.round ≤ rootBlock.executedBlock.round
    · simp only [sendForExecution, found, isOrderedRoot, ok_bind, if_pos old]
      exact ⟨_, _, rfl, ordered⟩
    · have below : store.inner.Below store.inner.orderedRootId
          finalityProof.commitInfo.id := by
        obtain ⟨block, isOnChain, isId⟩ := onChain
        obtain ⟨before, after, split⟩ := append_of_mem isOnChain
        rw [← isId] at linkableFound ⊢
        apply ordered.chain_below collisionFree isChain split
        · exact blockExists_iff.mpr ⟨linkable, linkableFound⟩
        · have sameRound := same_of_found collisionFree ordered.linked
            (mem_append_right _ isOnChain) linkableFound
          rw [roundOf_eq rootFound]
          omega
      obtain ⟨blocks, walked, pathUp⟩ := ordered.linked.pathLoop_ok
        authentic rootFound linkableFound below
        (countBelow_lt_loopBound _)
      have different : blocks ≠ [] := by
        intro isEmpty
        have head := pathUp.head
        rw [isEmpty] at head
        injection head with same
        rw [same] at old
        exact old (le_refl _)
      have isId := (ordered.linked.keyed _ _ linkableFound).1
      have isThere := blockExists_of_getBlock found
      have isPath : store.inner.pathFromOrderedRoot
          finalityProof.commitInfo.id = .ok (some blocks.reverse) := by
        simp only [pathFromOrderedRoot, pathFromRootToBlock, isOrderedRoot,
          walked, ok_bind, ne_eq, not_true_eq_false, if_false]
        rfl
      have isUpdated : store.inner.updateOrderedRoot (linkable.executedBlock.id hash) =
          .ok { store.inner with
            orderedRootId := finalityProof.commitInfo.id } := by
        simp only [updateOrderedRoot, isId, ensure, if_pos isThere]
        rfl
      have notEmpty : blocks.reverse ≠ [] := by simpa using different
      refine ⟨.ok (), _, ?_, (ordered.sends rootFound linkableFound
        (Nat.not_le.mp old) below onChain pathUp different).keepsBlocks
        (insertOrderedCert_keepsBlocks finalityProof)⟩
      simp only [sendForExecution, found, isOrderedRoot, ok_bind,
        if_neg old, isPath, Option.getD_some, ensure, if_pos notEmpty,
        isUpdated]
      rfl

end

/-! ## Committing a block -/

/-- The block was handed to execution, comes after the commit root, and has its own proofs. -/
def CommitsInOrder (hash : ConsensusHash) (store : BlockStore) (commit : BlockTree.Commit) : Prop :=
  ∃ block ∈ store.finalized.flatten, commit.blockId = block.id hash ∧
    store.inner.roundOf store.inner.commitRootId < block.round ∧
    commit.Proves block.round

section

variable (ordered : Ordered hash known chain first store) (authentic : Authentic hash known)
  (collisionFree : IdsCollisionFree hash (known ++ chain))

include ordered authentic collisionFree

theorem Ordered.log_below {committed : Block} (committedLogged : committed ∈ store.log first)
    (blockLogged : block ∈ store.log first)
    (later : store.inner.roundOf store.inner.commitRootId ≤ committed.round)
    (notEarlier : committed.round ≤ block.round) :
    store.inner.Below (committed.id hash) (block.id hash) := by
  obtain ⟨fromCommit, committedAbove⟩ := ordered.logBetween committed committedLogged later
  obtain ⟨blockBelow, blockAbove⟩ := ordered.logBetween block blockLogged (later.trans notEarlier)
  have ranked := ordered.linked.ranked authentic
  rcases ordered.linked.uniqueParent.total committedAbove blockAbove with
    below | above
  · exact below
  · by_cases same : block.id hash = committed.id hash
    · rw [same]
    · obtain ⟨commitRoot, rooted⟩ := ordered.rooted
      have rootExists := blockExists_of_getBlock rooted.isCommitRoot
      have grows := ranked.lt above same
      rw [roundOf_known collisionFree ordered.linked
          (mem_append_left _ (ordered.logKnown block blockLogged))
          (ordered.linked.exists_below rootExists blockBelow),
        roundOf_known collisionFree ordered.linked (mem_append_left _
            (ordered.logKnown committed committedLogged))
          (ordered.linked.exists_below rootExists fromCommit)] at grows
      omega

theorem Ordered.commits (isChain : chain.IsChain (Extends hash)) {committed : Block}
    (committedLogged : committed ∈ store.log first)
    (later : store.inner.roundOf store.inner.commitRootId ≤ committed.round) {after : BlockTree}
    (commits : store.inner.Commits (committed.id hash) after)
    (linkedAfter : Linked hash known after) {commitRoot : Block}
    (rootedAfter : Rooted store.windowSize after commitRoot)
    (sameRound : commitRoot.round = committed.round) :
    Ordered hash known chain first { store with inner := after } := by
  obtain ⟨next, ids, removed, fromRoot, toBlock, cuts, moved⟩ := commits.cutOff
  obtain ⟨_, committedAbove⟩ := ordered.logBetween committed committedLogged later
  have below_kept : ∀ id, store.inner.Below (committed.id hash) id →
      after.Below (committed.id hash) id :=
    fun id => moved.below_kept ordered.linked cuts fromRoot toBlock
  have kept : ∀ id, store.inner.Below next id → id ∉ removed := by
    intro id isBelow isRemoved
    exact ordered.linked.not_queued cuts fromRoot isBelow (moved.mem_queue.mpr (.inl isRemoved))
  have rootBelow := toBlock.trans committedAbove
  obtain ⟨orderedRoot, rootFound, logEnds⟩ := ordered.logEnds
  have rootFoundAfter : after.getBlock store.inner.orderedRootId = some orderedRoot := by
    rw [getBlock, moved.found, if_neg (kept _ rootBelow)]
    exact rootFound
  refine ⟨ordered.positive, linkedAfter, ⟨commitRoot, rootedAfter⟩, ?_,
    ordered.logChain, ordered.logKnown, ?_, ?_, ?_, ?_⟩
  · rw [commits.commitRoot, commits.orderedRoot]
    exact below_kept _ committedAbove
  · rw [commits.orderedRoot]
    exact ⟨orderedRoot, rootFoundAfter, logEnds⟩
  · intro block inLog notEarlier
    rw [roundOf_of_getBlock rootedAfter.isCommitRoot, sameRound] at notEarlier
    have below := ordered.log_below authentic collisionFree committedLogged inLog later notEarlier
    obtain ⟨_, blockAbove⟩ := ordered.logBetween block inLog (later.trans notEarlier)
    rw [commits.commitRoot, commits.orderedRoot]
    exact ⟨below_kept _ below, moved.below_kept ordered.linked cuts fromRoot
      (toBlock.trans below) blockAbove⟩
  · rw [commits.orderedRoot]
    exact ordered.onChain
  · intro before parent child rest split notEarlier isThere
    rw [commits.orderedRoot, roundOf_of_getBlock rootFoundAfter,
      ← roundOf_of_getBlock rootFound] at notEarlier
    have isLink := ordered.chainLinked before parent child rest split
      notEarlier (moved.exists_iff.mp isThere).1
    have parentThere := parentExists_of_link isLink
    have parentBelow := ordered.chain_below collisionFree isChain split parentThere notEarlier
    exact moved.link_iff.mpr ⟨isLink, kept _ (rootBelow.trans parentBelow)⟩

theorem Ordered.commitCallback_ok (isChain : chain.IsChain (Extends hash))
    {commit : BlockTree.Commit} (inOrder : CommitsInOrder hash store commit) :
    store.commitCallback hash commit = .error .attemptToAddWithOverflow ∨
      ∃ after, store.commitCallback hash commit = .ok after ∧
        Ordered hash known chain first after := by
  obtain ⟨committed, isFinalized, isId, later, proves⟩ := inOrder
  have committedLogged : committed ∈ store.log first := mem_cons_of_mem _ isFinalized
  obtain ⟨below, _⟩ := ordered.logBetween committed committedLogged later.le
  obtain ⟨commitRoot, rooted⟩ := ordered.rooted
  have rootExists := blockExists_of_getBlock rooted.isCommitRoot
  obtain ⟨linkable, found⟩ := blockExists_iff.mp (ordered.linked.exists_below rootExists below)
  have sameRound := (same_of_found collisionFree ordered.linked
    (mem_append_left _ (ordered.logKnown _ committedLogged)) found).1
  have laterThanRoot : commitRoot.round < linkable.executedBlock.round := by
    rw [roundOf_of_getBlock rooted.isCommitRoot] at later
    omega
  rw [← isId] at found below
  rcases ordered.linked.commitCallback_ok authentic ordered.positive rooted
      found below laterThanRoot (sameRound ▸ proves) with
    overflows | ⟨after, isAfter, commits, linkedAfter, rootedAfter⟩
  · left
    simp only [commitCallback, overflows, error_bind]
  · refine .inr ⟨{ store with inner := after }, ?_, ?_⟩
    · simp only [commitCallback, isAfter, ok_bind]
      rfl
    · exact ordered.commits authentic collisionFree isChain committedLogged
        later.le (isId ▸ commits) linkedAfter rootedAfter sameRound

end

end Steps

end BlockStore

end LumioNode
