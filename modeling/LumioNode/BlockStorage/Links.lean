import LumioNode.BlockStorage.BlockTree

/-! # Links of the block tree

Child links follow parent ids and lead upwards in rounds; the queue of pruned blocks
holds parents first and nothing below the window root. -/

namespace LumioNode

open Library Relation List

namespace BlockTree

variable (tree : BlockTree)

def Link (parent child : HashValue) : Prop :=
  ∃ linkable, tree.getLinkableBlock parent = some linkable ∧ child ∈ linkable.children

abbrev Below (root node : HashValue) : Prop := ReflTransGen tree.Link root node

def ParentLink (child parent : HashValue) : Prop :=
  ∃ block, tree.getBlock child = some block ∧ block.parentId = parent ∧
    tree.blockExists parent = true

abbrev Descends (node root : HashValue) : Prop :=
  ReflTransGen tree.ParentLink node root

def roundOf (id : HashValue) : Nat := match tree.getBlock id with
  | some block => block.round
  | none => 0

/-- The certificates of the blocks state the rounds of their parents. -/
def Authentic (hash : ConsensusHash) (known : List Block) : Prop :=
  ∀ child ∈ known, ∀ parent ∈ known,
    child.parentId = parent.id hash → child.certifiedRound = parent.round

structure Linked (hash : ConsensusHash) (known : List Block) (tree : BlockTree) : Prop where
  keyed : ∀ id linkable, tree.getLinkableBlock id = some linkable →
    linkable.executedBlock.id hash = id ∧ linkable.executedBlock ∈ known
  increasing : ∀ id linkable, tree.getLinkableBlock id = some linkable →
    linkable.executedBlock.Increases
  childrenNodup : ∀ id linkable, tree.getLinkableBlock id = some linkable → linkable.children.Nodup
  children : ∀ parent child, tree.Link parent child →
    ∃ linkable, tree.getLinkableBlock child = some linkable ∧
      linkable.executedBlock.parentId = parent ∧
      linkable.executedBlock.certifiedRound < linkable.executedBlock.round
  prunedNodup : tree.prunedBlockIds.Nodup
  prunedExist : ∀ id ∈ tree.prunedBlockIds, tree.blockExists id
  prunedFirst : ∀ parent child, tree.Link parent child →
    ∀ before after, tree.prunedBlockIds = before ++ child :: after → parent ∈ before
  windowRoot : tree.blockExists tree.windowRootId
  above : ∀ parent, tree.Link parent tree.windowRootId → parent ∈ tree.prunedBlockIds
  live : ∀ id, tree.Below tree.windowRootId id → id ∉ tree.prunedBlockIds

section

variable {hash : ConsensusHash} {known : List Block} {tree : BlockTree}
  {root parent child id : HashValue}

theorem blockExists_iff : tree.blockExists id = true ↔
    ∃ linkable, tree.getLinkableBlock id = some linkable := by
  rw [blockExists, Option.isSome_iff_exists]

variable {block : Block}

theorem getBlock_eq_some : tree.getBlock id = some block ↔
    ∃ linkable, tree.getLinkableBlock id = some linkable ∧ linkable.executedBlock = block :=
  Option.map_eq_some_iff

theorem blockExists_of_getBlock (found : tree.getBlock id = some block) :
    tree.blockExists id = true := by
  obtain ⟨linkable, isFound, _⟩ := getBlock_eq_some.mp found
  exact blockExists_iff.mpr ⟨linkable, isFound⟩

theorem parentExists_of_link {parent child : HashValue}
    (isLink : tree.Link parent child) : tree.blockExists parent = true := by
  obtain ⟨linkable, found, _⟩ := isLink
  exact blockExists_iff.mpr ⟨linkable, found⟩

theorem roundOf_eq {linkable : LinkableBlock} (found : tree.getLinkableBlock id = some linkable) :
    tree.roundOf id = linkable.executedBlock.round := by
  simp [roundOf, getBlock, found]

theorem roundOf_of_getBlock
    (found : tree.getBlock id = some block) : tree.roundOf id = block.round := by
  simp [roundOf, found]

section

variable (linked : Linked hash known tree)

include linked

theorem Linked.uniqueParent : UniqueParent tree.Link := by
  intro first second child firstLink secondLink
  obtain ⟨linkable, found, isFirst, _⟩ := linked.children _ _ firstLink
  obtain ⟨other, otherFound, isSecond, _⟩ := linked.children _ _ secondLink
  rw [found] at otherFound
  cases otherFound
  exact isFirst.symm.trans isSecond

theorem Linked.ranked (authentic : Authentic hash known) : Ranked tree.roundOf tree.Link := by
  intro parent child isLink
  obtain ⟨linkable, found, isParent, increases⟩ := linked.children _ _ isLink
  obtain ⟨above, parentFound, _⟩ := isLink
  subst isParent
  obtain ⟨isParent, parentKnown⟩ := linked.keyed _ _ parentFound
  have sameRound := authentic _ (linked.keyed _ _ found).2 _ parentKnown isParent.symm
  rw [roundOf_eq found, roundOf_eq parentFound]
  omega

/-- Child links are parent links. -/
theorem Linked.descends_of_below (below : tree.Below root id) : tree.Descends id root := by
  induction below with
  | refl => exact .refl
  | tail _ isLink inductionHypothesis =>
    obtain ⟨linkable, found, isParent, _⟩ := linked.children _ _ isLink
    obtain ⟨above, parentFound, _⟩ := isLink
    exact .head ⟨linkable.executedBlock, getBlock_eq_some.mpr ⟨linkable, found, rfl⟩, isParent,
      blockExists_iff.mpr ⟨above, parentFound⟩⟩ inductionHypothesis

theorem Linked.exists_below (rootExists : tree.blockExists root) (below : tree.Below root id) :
    tree.blockExists id := by
  rcases ReflTransGen.cases_tail below with same | ⟨last, _, isLink⟩
  · exact same ▸ rootExists
  · obtain ⟨linkable, found, _⟩ := linked.children _ _ isLink
    exact blockExists_iff.mpr ⟨linkable, found⟩

theorem Linked.parent_below {linkable : LinkableBlock}
    (found : tree.getLinkableBlock id = some linkable) (below : tree.Below root id)
    (different : id ≠ root) :
    tree.Below root linkable.executedBlock.parentId ∧
      tree.Link linkable.executedBlock.parentId id := by
  rcases ReflTransGen.cases_tail below with same | ⟨last, before, isLink⟩
  · exact absurd same different
  · obtain ⟨other, otherFound, isParent, _⟩ := linked.children _ _ isLink
    rw [found] at otherFound
    cases otherFound
    subst isParent
    exact ⟨before, isLink⟩

end

section New

variable {commitRootId : HashValue} {windowRoot : Block} {rootQuorumCert : QuorumCert}
  {rootOrderedCert rootCommitCert : WrappedLedgerInfo} {maxPrunedBlocksInMem : Nat}

section

variable (isNew : BlockTree.new hash commitRootId windowRoot rootQuorumCert rootOrderedCert
    rootCommitCert maxPrunedBlocksInMem = .ok tree)

include isNew

theorem new_eq_ok :
    tree.idToBlock = SortedMap.empty.insert (windowRoot.id hash) (LinkableBlock.new windowRoot) ∧
      tree.windowRootId = windowRoot.id hash ∧
      tree.commitRootId = commitRootId ∧
      tree.orderedRootId = commitRootId ∧
      tree.highestCommitCert = rootCommitCert ∧
      tree.prunedBlockIds = [] := by
  unfold BlockTree.new at isNew
  simp only [bind_eq_ok, ensure_eq_ok, pure_eq_ok, exists_const] at isNew
  obtain ⟨_, _, rfl⟩ := isNew
  exact ⟨rfl, rfl, rfl, rfl, rfl, rfl⟩

theorem new_found {linkable : LinkableBlock} : tree.getLinkableBlock id = some linkable ↔
    id = windowRoot.id hash ∧ linkable = LinkableBlock.new windowRoot := by
  rw [getLinkableBlock, (new_eq_ok isNew).1, SortedMap.get?_insert]
  by_cases same : id = windowRoot.id hash
  · simp [same, eq_comm]
  · simp [same]

theorem new_linked (isKnown : windowRoot ∈ known) (increases : windowRoot.Increases) :
    Linked hash known tree := by
  obtain ⟨_, rootEq, _, _, _, prunedEq⟩ := new_eq_ok isNew
  have noLink : ∀ parent child, ¬ tree.Link parent child := by
    intro parent child ⟨linkable, found, isChild⟩
    obtain ⟨_, rfl⟩ := (new_found isNew).mp found
    cases isChild
  constructor
  · intro id linkable found
    obtain ⟨rfl, rfl⟩ := (new_found isNew).mp found
    exact ⟨rfl, isKnown⟩
  · intro id linkable found
    obtain ⟨rfl, rfl⟩ := (new_found isNew).mp found
    exact increases
  · intro id linkable found
    obtain ⟨rfl, rfl⟩ := (new_found isNew).mp found
    exact nodup_nil
  · intro parent child isLink
    exact absurd isLink (noLink parent child)
  · rw [prunedEq]
    exact nodup_nil
  · rw [prunedEq]
    intro id member
    cases member
  · intro parent child isLink
    exact absurd isLink (noLink parent child)
  · exact blockExists_iff.mpr ⟨_, (new_found isNew).mpr ⟨rootEq, rfl⟩⟩
  · intro parent isLink
    exact absurd isLink (noLink parent _)
  · rw [prunedEq]
    intro id _ member
    cases member

end

end New

section Insert

variable {block : Block}

inductive Inserts (hash : ConsensusHash) (tree : BlockTree) (block : Block) : BlockTree → Prop where
  | unchanged : Inserts hash tree block tree
  | added {parentBlock : LinkableBlock}
      (fresh : tree.getLinkableBlock (block.id hash) = none)
      (parentFound : tree.getLinkableBlock block.parentId = some parentBlock) :
      Inserts hash tree block (tree.linkBlock hash block (parentBlock.withChild (block.id hash)))

variable {added : BlockTree}

/-- A block that is not in the tree is nobody's child, so inserting it does not panic. -/
theorem Linked.insertBlock_ok (linked : Linked hash known tree) (block : Block) :
    ∃ result added, tree.insertBlock hash block = .ok (result, added) := by
  cases present : tree.getBlock (block.id hash) with
  | some =>
    simp only [insertBlock, present]
    exact ⟨_, _, rfl⟩
  | none =>
    cases parentFound : tree.getLinkableBlock block.parentId with
    | none =>
      simp only [insertBlock, present, parentFound]
      exact ⟨_, _, rfl⟩
    | some parentBlock =>
      have noChild : block.id hash ∉ parentBlock.children := by
        intro isChild
        obtain ⟨linkable, found, _⟩ := linked.children _ _ ⟨parentBlock, parentFound, isChild⟩
        rw [getBlock, found] at present
        cases present
      simp only [insertBlock, present, parentFound, LinkableBlock.addChild, ensure, if_pos noChild]
      exact ⟨_, _, rfl⟩

variable {parentBlock linkable : LinkableBlock}

theorem linkBlock_found (linked : LinkableBlock) :
    (tree.linkBlock hash block linked).getLinkableBlock id =
      if id = block.id hash then some (LinkableBlock.new block)
      else if id = block.parentId then some linked
      else tree.getLinkableBlock id := by
  simp only [getLinkableBlock, linkBlock, SortedMap.get?_insert]

theorem insertBlock_eq_ok {result : Except String Block}
    (inserted : tree.insertBlock hash block = .ok (result, added)) :
    Inserts hash tree block added ∧
      (result.isOk = true → added.blockExists (block.id hash) = true) := by
  cases present : tree.getBlock (block.id hash) with
  | some =>
    simp only [insertBlock, present] at inserted
    cases inserted
    exact ⟨.unchanged, fun _ => blockExists_of_getBlock present⟩
  | none =>
    cases parentFound : tree.getLinkableBlock block.parentId with
    | none =>
      simp only [insertBlock, present, parentFound] at inserted
      cases inserted
      exact ⟨.unchanged, nofun⟩
    | some =>
      simp only [insertBlock, present, parentFound,
        LinkableBlock.addChild, bind_eq_ok, ensure_eq_ok, pure_eq_ok]
        at inserted
      obtain ⟨_, ⟨_, _, rfl⟩, isAdded⟩ := inserted
      cases isAdded
      refine ⟨.added (Option.map_eq_none_iff.mp present) parentFound, fun _ => ?_⟩
      apply blockExists_iff.mpr
      rw [linkBlock_found, if_pos rfl]
      exact ⟨_, rfl⟩

theorem ne_of_fresh (fresh : tree.getLinkableBlock (block.id hash) = none)
    (isThere : tree.blockExists id = true) : id ≠ block.id hash := by
  rintro rfl
  simp [blockExists, fresh] at isThere

theorem added_found (parentFound : tree.getLinkableBlock block.parentId = some parentBlock)
    (found : (tree.linkBlock hash block
      (parentBlock.withChild (block.id hash))).getLinkableBlock id = some linkable) :
    (id = block.id hash ∧ linkable = LinkableBlock.new block) ∨
      ∃ before, tree.getLinkableBlock id = some before ∧
        linkable.executedBlock = before.executedBlock ∧
        (linkable.children = before.children ∨ id = block.parentId ∧
            linkable.children = before.children ++ [block.id hash]) := by
  rw [linkBlock_found] at found
  split at found
  · rename_i same
    exact .inl ⟨same, (Option.some.inj found).symm⟩
  · split at found
    · rename_i same
      subst same
      cases found
      exact .inr ⟨parentBlock, parentFound, rfl, .inr ⟨rfl, rfl⟩⟩
    · exact .inr ⟨linkable, found, rfl, .inl rfl⟩

section Added

variable (fresh : tree.getLinkableBlock (block.id hash) = none)
  (parentFound : tree.getLinkableBlock block.parentId = some parentBlock)

include fresh parentFound

theorem found_added (found : tree.getLinkableBlock id = some linkable) :
    ∃ after, (tree.linkBlock hash block
        (parentBlock.withChild (block.id hash))).getLinkableBlock id = some after ∧
      after.executedBlock = linkable.executedBlock ∧
      ∀ child ∈ linkable.children, child ∈ after.children := by
  rw [linkBlock_found]
  by_cases isNew : id = block.id hash
  · subst isNew
    rw [fresh] at found
    cases found
  · rw [if_neg isNew]
    by_cases isParent : id = block.parentId
    · subst isParent
      rw [parentFound] at found
      cases found
      rw [if_pos rfl]
      exact ⟨_, rfl, rfl, fun child member =>
        mem_append_left _ member⟩
    · rw [if_neg isParent]
      exact ⟨linkable, found, rfl, fun child member => member⟩

theorem added_link : (tree.linkBlock hash block
    (parentBlock.withChild (block.id hash))).Link parent child ↔
    tree.Link parent child ∨ parent = block.parentId ∧ child = block.id hash := by
  constructor
  · intro ⟨linkable, found, isChild⟩
    rcases added_found parentFound found with
      ⟨_, rfl⟩ | ⟨before, beforeFound, _, same | ⟨isParent, grown⟩⟩
    · cases isChild
    · exact .inl ⟨before, beforeFound, same ▸ isChild⟩
    · rw [grown, mem_append, mem_singleton] at isChild
      rcases isChild with wasChild | isNew
      · exact .inl ⟨before, beforeFound, wasChild⟩
      · exact .inr ⟨isParent, isNew⟩
  · rintro (⟨linkable, found, isChild⟩ | ⟨rfl, rfl⟩)
    · obtain ⟨after, afterFound, _, kept⟩ := found_added fresh parentFound found
      exact ⟨after, afterFound, kept child isChild⟩
    · have notSelf : block.parentId ≠ block.id hash :=
        ne_of_fresh fresh (blockExists_iff.mpr ⟨parentBlock, parentFound⟩)
      refine ⟨parentBlock.withChild (block.id hash), ?_,
        mem_append_right _ (mem_singleton_self _)⟩
      rw [linkBlock_found, if_neg notSelf, if_pos rfl]

theorem added_below
    (below : (tree.linkBlock hash block (parentBlock.withChild (block.id hash))).Below root id) :
    tree.Below root id ∨ id = block.id hash ∧ tree.Below root block.parentId := by
  induction below with
  | refl => exact .inl .refl
  | tail _ isLink inductionHypothesis =>
    rcases (added_link fresh parentFound).mp isLink with
      wasLink | ⟨rfl, rfl⟩
    · rcases inductionHypothesis with wasBelow | ⟨rfl, _⟩
      · exact .inl (wasBelow.tail wasLink)
      · exact absurd rfl (ne_of_fresh fresh (parentExists_of_link wasLink))
    · rcases inductionHypothesis with wasBelow | ⟨isNew, _⟩
      · exact .inr ⟨rfl, wasBelow⟩
      · exact absurd isNew (ne_of_fresh fresh (blockExists_iff.mpr ⟨parentBlock, parentFound⟩))

theorem below_added (below : tree.Below root id) : (tree.linkBlock hash block
    (parentBlock.withChild (block.id hash))).Below root id :=
  ReflTransGen.mono (fun _ _ isLink =>
    (added_link fresh parentFound).mpr (.inl isLink)) _ _ below

end Added

theorem Inserts.blockExists (inserts : Inserts hash tree block added)
    (isThere : tree.blockExists id = true) : added.blockExists id = true := by
  cases inserts with
  | unchanged => exact isThere
  | added fresh parentFound =>
    obtain ⟨linkable, found⟩ := blockExists_iff.mp isThere
    obtain ⟨after, afterFound, _⟩ := found_added fresh parentFound found
    exact blockExists_iff.mpr ⟨after, afterFound⟩

theorem Linked.inserts (linked : Linked hash known tree) (isKnown : block ∈ known)
    (increases : block.certifiedRound < block.round)
    (inserts : Inserts hash tree block added) : Linked hash known added := by
  cases inserts with
  | unchanged => exact linked
  | @added parentBlock fresh parentFound =>
    have newNotPruned : block.id hash ∉ tree.prunedBlockIds :=
      fun member => ne_of_fresh fresh (linked.prunedExist _ member) rfl
    constructor
    · intro id linkable found
      rcases added_found parentFound found with
        ⟨rfl, rfl⟩ | ⟨before, beforeFound, same, _⟩
      · exact ⟨rfl, isKnown⟩
      · rw [same]
        exact linked.keyed id before beforeFound
    · intro id linkable found
      rcases added_found parentFound found with
        ⟨rfl, rfl⟩ | ⟨before, beforeFound, same, _⟩
      · exact .inr increases
      · rw [same]
        exact linked.increasing id before beforeFound
    · intro id linkable found
      rcases added_found parentFound found with
        ⟨rfl, rfl⟩ | ⟨before, beforeFound, _, same | ⟨isParent, grown⟩⟩
      · exact nodup_nil
      · rw [same]
        exact linked.childrenNodup id before beforeFound
      · rw [grown]
        refine nodup_append.mpr ⟨linked.childrenNodup id before beforeFound,
          nodup_singleton _, ?_⟩
        intro child isChild other isNew same
        obtain ⟨linkable, childFound, _⟩ := linked.children id child ⟨before, beforeFound, isChild⟩
        exact ne_of_fresh fresh (blockExists_iff.mpr ⟨linkable, childFound⟩)
          (same.trans (mem_singleton.mp isNew))
    · intro parent child isLink
      rcases (added_link fresh parentFound).mp isLink with
        wasLink | ⟨rfl, rfl⟩
      · obtain ⟨linkable, found, isParent, grows⟩ := linked.children parent child wasLink
        obtain ⟨after, afterFound, same, _⟩ := found_added fresh parentFound found
        rw [← same] at isParent grows
        exact ⟨after, afterFound, isParent, grows⟩
      · refine ⟨LinkableBlock.new block, ?_, rfl, increases⟩
        rw [linkBlock_found, if_pos rfl]
    · exact linked.prunedNodup
    · intro id member
      exact (Inserts.added fresh parentFound).blockExists (linked.prunedExist id member)
    · intro parent child isLink before after split
      rcases (added_link fresh parentFound).mp isLink with
        wasLink | ⟨rfl, rfl⟩
      · exact linked.prunedFirst parent child wasLink before after split
      · have member : block.id hash ∈ tree.prunedBlockIds := by
          change tree.prunedBlockIds = _ at split
          rw [split]
          exact mem_append_right _ mem_cons_self
        exact absurd member newNotPruned
    · exact (Inserts.added fresh parentFound).blockExists linked.windowRoot
    · intro parent isLink
      rcases (added_link fresh parentFound).mp isLink with
        wasLink | ⟨_, isNew⟩
      · exact linked.above parent wasLink
      · exact absurd isNew (ne_of_fresh fresh linked.windowRoot)
    · intro id below
      rcases added_below fresh parentFound below with
        wasBelow | ⟨rfl, _⟩
      · exact linked.live id wasBelow
      · exact newNotPruned

end Insert

variable {other : BlockTree}

theorem Linked.of_same (linked : Linked hash known tree)
    (sameBlocks : other.idToBlock = tree.idToBlock)
    (samePruned : other.prunedBlockIds = tree.prunedBlockIds)
    (sameRoot : other.windowRootId = tree.windowRootId) : Linked hash known other := by
  cases tree
  cases other
  cases sameBlocks
  cases samePruned
  cases sameRoot
  exact { linked with }

end

end BlockTree

end LumioNode
