import LumioNode.BlockStorage.Links

/-! # Pruning the block tree

Blocks not below the new window root are queued for removal, and the oldest of the queue
are removed. -/

namespace LumioNode

open Library Relation List

namespace BlockTree

variable {hash : ConsensusHash} {known : List Block} {tree : BlockTree}
  {parent child id next : HashValue}

theorem Linked.childrenToPrune_eq (linked : Linked hash known tree) {linkable : LinkableBlock}
    (found : tree.getLinkableBlock id = some linkable) :
    tree.childrenToPrune next id = .ok (linkable.children.filter (· ≠ next)) := by
  simp only [childrenToPrune, bind_eq_ok, expect_eq_ok, ensure_eq_ok, pure_eq_ok]
  refine ⟨linkable, found, (), all_eq_true.mpr ?_, rfl⟩
  intro other member
  obtain ⟨below, belowFound, _⟩ := linked.children id other
    ⟨linkable, found, (mem_filter.mp member).1⟩
  exact blockExists_iff.mpr ⟨below, belowFound⟩

theorem childrenToPrune_eq_ok {pushed : List HashValue}
    (expanded : tree.childrenToPrune next id = .ok pushed) :
    ∃ linkable, tree.getLinkableBlock id = some linkable ∧
      pushed = linkable.children.filter (· ≠ next) := by
  simp only [childrenToPrune, bind_eq_ok, expect_eq_ok, ensure_eq_ok, pure_eq_ok] at expanded
  obtain ⟨linkable, found, _, _, isPushed⟩ := expanded
  exact ⟨linkable, found, isPushed.symm⟩

section

variable (linked : Linked hash known tree)

include linked

/-- The walk follows the links that do not lead to the new root. -/
theorem Linked.expandsTo_iff :
    ExpandsTo (tree.childrenToPrune next) parent child ↔ Avoiding tree.Link next parent child := by
  constructor
  · intro ⟨pushed, expanded, isPushed⟩
    obtain ⟨linkable, found, rfl⟩ := childrenToPrune_eq_ok expanded
    obtain ⟨isChild, notNext⟩ := mem_filter.mp isPushed
    exact ⟨⟨linkable, found, isChild⟩, of_decide_eq_true notNext⟩
  · intro ⟨⟨linkable, found, isChild⟩, notNext⟩
    exact ⟨_, linked.childrenToPrune_eq found,
      mem_filter.mpr ⟨isChild, decide_eq_true notNext⟩⟩

/-- What the walk over the blocks to prune returns when the root moves. -/
structure Prunes (tree : BlockTree) (next : HashValue) (ids : List HashValue) : Prop where
  members : ∀ id, id ∈ ids ↔ ReflTransGen (Avoiding tree.Link next) tree.windowRootId id
  nodup : ids.Nodup
  parentFirst : ∀ before id after, ids = before ++ id :: after →
    id = tree.windowRootId ∨ ∃ parent ∈ before, tree.Link parent id

theorem Linked.findBlocksToPrune_ok
    (authentic : Authentic hash known) (moved : next ≠ tree.windowRootId) :
    ∃ ids, tree.findBlocksToPrune next = .ok ids ∧ tree.Prunes next ids := by
  have sameLink : ExpandsTo (tree.childrenToPrune next) = Avoiding tree.Link next := by
    funext parent child
    exact propext linked.expandsTo_iff
  have unique : UniqueParent (ExpandsTo (tree.childrenToPrune next)) := by
    intro first second child firstLink secondLink
    rw [sameLink] at firstLink secondLink
    exact linked.uniqueParent _ _ _ firstLink.1 secondLink.1
  have ranked : Ranked tree.roundOf (ExpandsTo (tree.childrenToPrune next)) := by
    intro parent child isLink
    rw [sameLink] at isLink
    exact linked.ranked authentic _ _ isLink.1
  have pushedNodup : ∀ id pushed, tree.childrenToPrune next id = .ok pushed → pushed.Nodup := by
    intro id pushed expanded
    obtain ⟨linkable, found, rfl⟩ := childrenToPrune_eq_ok expanded
    exact (linked.childrenNodup id linkable found).filter _
  have apart : Apart (ExpandsTo (tree.childrenToPrune next)) [tree.windowRootId] := by
    refine ⟨nodup_singleton _, ?_⟩
    intro first firstMember second secondMember _
    rw [mem_singleton.mp firstMember, mem_singleton.mp secondMember]
  have reached : ∀ start ∈ [tree.windowRootId], ∀ id,
      ReflTransGen (ExpandsTo (tree.childrenToPrune next)) start id → tree.blockExists id := by
    intro start member id reaches
    rw [mem_singleton.mp member, sameLink] at reaches
    have below : tree.Below tree.windowRootId id :=
      ReflTransGen.mono (fun _ _ => And.left) _ _ reaches
    exact linked.exists_below linked.windowRoot below
  have isKey : ∀ id, tree.blockExists id → id ∈ tree.idToBlock.keys := by
    intro id isThere
    obtain ⟨linkable, found⟩ := blockExists_iff.mp isThere
    exact mem_map.mpr ⟨(id, linkable), SortedMap.get?_eq_some_iff.mp found, rfl⟩
  obtain ⟨rootBlock, rootFound⟩ := blockExists_iff.mp linked.windowRoot
  have enough : tree.idToBlock.keys.toFinset.card ≤ tree.loopBound := by
    have atMost := toFinset_card_le tree.idToBlock.keys
    rw [SortedMap.keys, length_map] at atMost
    exact le_trans atMost (Nat.le_succ _)
  have traversal : ∃ ids, traverse Panic.endless
      (tree.childrenToPrune next) tree.loopBound [tree.windowRootId] = .ok ids :=
    traverse_ok unique ranked pushedNodup apart tree.idToBlock.keys.toFinset
      (fun start member id reaches => mem_toFinset.mpr
        (isKey id (reached start member id reaches)))
      (fun start member id reaches => by
        obtain ⟨linkable, found⟩ := blockExists_iff.mp (reached start member id reaches)
        exact ⟨_, linked.childrenToPrune_eq found⟩) enough
  obtain ⟨ids, traversed⟩ := traversal
  refine ⟨ids, ?_, ?_, ?_, ?_⟩
  · rw [findBlocksToPrune, if_neg moved, linkableWindowRoot, rootFound]
    exact traversed
  · intro id
    rw [mem_traverse traversed, sameLink]
    simp
  · exact traverse_nodup unique ranked pushedNodup apart traversed
  · intro before id after split
    rcases parent_before_of_traverse traversed split with
      onStack | ⟨parent, isBefore, expands⟩
    · exact .inl (mem_singleton.mp onStack)
    · rw [sameLink] at expands
      exact .inr ⟨parent, isBefore, expands.1⟩

/-- The blocks that are cut off when the window root becomes `next`. -/
structure Cuts (tree : BlockTree) (next : HashValue) (ids : List HashValue) : Prop where
  below : ∀ id ∈ ids, tree.Below tree.windowRootId id
  apart : ∀ id ∈ ids, ¬ tree.Below next id
  complete : ∀ id, tree.Below tree.windowRootId id → id ∈ ids ∨ tree.Below next id
  nodup : ids.Nodup
  parentFirst : ∀ before id after, ids = before ++ id :: after →
    id = tree.windowRootId ∨ ∃ parent ∈ before, tree.Link parent id

theorem Linked.findBlocksToPrune_cuts
    (authentic : Authentic hash known) (isBelow : tree.Below tree.windowRootId next) :
    ∃ ids, tree.findBlocksToPrune next = .ok ids ∧ tree.Cuts next ids := by
  by_cases same : next = tree.windowRootId
  · subst same
    refine ⟨[], if_pos rfl, ?_, ?_, ?_, nodup_nil, ?_⟩
    · nofun
    · intro id member
      cases member
    · exact fun id below => .inr below
    · intro before id after split
      simp at split
  · obtain ⟨ids, isOk, prunes⟩ := linked.findBlocksToPrune_ok authentic same
    refine ⟨ids, isOk, ?_, ?_, ?_, prunes.nodup, prunes.parentFirst⟩
    · intro id member
      exact ReflTransGen.mono (fun _ _ => And.left) _ _ ((prunes.members id).mp member)
    · intro id member
      exact not_below_of_avoiding linked.uniqueParent
        (linked.ranked authentic) isBelow (Ne.symm same)
        ((prunes.members id).mp member)
    · intro id below
      exact (avoiding_or_below next below).imp_left (prunes.members id).mpr

end

theorem foldl_removeBlock_found (removed : List HashValue) :
    (removed.foldl removeBlock tree).getLinkableBlock id =
      if id ∈ removed then none else tree.getLinkableBlock id := by
  induction removed generalizing tree with
  | nil => simp
  | cons head rest inductionHypothesis =>
    rw [foldl_cons, inductionHypothesis]
    by_cases inRest : id ∈ rest
    · simp [inRest]
    · by_cases isHead : id = head
      · simp [isHead, getLinkableBlock, removeBlock, SortedMap.get?_erase]
      · simp [inRest, isHead, getLinkableBlock, removeBlock, SortedMap.get?_erase]

theorem foldl_removeBlock_frame (removed : List HashValue) :
    let after := removed.foldl removeBlock tree
    after.prunedBlockIds = tree.prunedBlockIds ∧ after.windowRootId = tree.windowRootId ∧
      after.commitRootId = tree.commitRootId ∧
      after.orderedRootId = tree.orderedRootId ∧
      after.highestCommitCert = tree.highestCommitCert := by
  induction removed generalizing tree with
  | nil => exact ⟨rfl, rfl, rfl, rfl, rfl⟩
  | cons head rest inductionHypothesis =>
    rw [foldl_cons]
    exact inductionHypothesis

/-- The window root has moved to `next`, and blocks queued before and no more are gone. -/
structure Moved (tree : BlockTree) (next : HashValue)
    (ids removed : List HashValue) (after : BlockTree) : Prop where
  queue : tree.prunedBlockIds ++ ids = removed ++ after.prunedBlockIds
  found : ∀ id, after.getLinkableBlock id = if id ∈ removed then none else tree.getLinkableBlock id
  windowRoot : after.windowRootId = next

section Moved

variable {ids removed : List HashValue} {after : BlockTree}

section

variable (moved : tree.Moved next ids removed after)

include moved

theorem Moved.link_iff : after.Link parent child ↔ tree.Link parent child ∧ parent ∉ removed := by
  constructor
  · intro ⟨linkable, found, isChild⟩
    rw [moved.found] at found
    split at found
    · cases found
    · rename_i kept
      exact ⟨⟨linkable, found, isChild⟩, kept⟩
  · intro ⟨⟨linkable, found, isChild⟩, kept⟩
    refine ⟨linkable, ?_, isChild⟩
    rw [moved.found, if_neg kept]
    exact found

theorem Moved.exists_iff : after.blockExists id = true ↔
    tree.blockExists id = true ∧ id ∉ removed := by
  rw [blockExists, moved.found]
  split
  · rename_i isRemoved
    simp [isRemoved]
  · rename_i kept
    simp [kept, blockExists]

theorem Moved.below {root : HashValue} (below : after.Below root id) : tree.Below root id :=
  ReflTransGen.mono (fun _ _ isLink => (moved.link_iff.mp isLink).1) _ _ below

end

variable (linked : Linked hash known tree) (cuts : tree.Cuts next ids)
  (moved : tree.Moved next ids removed after)

include linked cuts in
theorem Linked.queue_parentFirst (isLink : tree.Link parent child) {before rest : List HashValue}
    (split : tree.prunedBlockIds ++ ids = before ++ child :: rest) : parent ∈ before := by
  rcases append_eq_append_iff.mp split with
    ⟨more, beforeEq, idsEq⟩ | ⟨more, prunedEq, restEq⟩
  · rcases cuts.parentFirst more child rest idsEq with
      isRoot | ⟨other, isBefore, otherLink⟩
    · rw [beforeEq]
      exact mem_append_left _ (linked.above parent (isRoot ▸ isLink))
    · rw [linked.uniqueParent parent other child isLink otherLink, beforeEq]
      exact mem_append_right _ isBefore
  · cases more with
    | nil =>
      rw [append_nil] at prunedEq
      rcases cuts.parentFirst [] child rest restEq.symm with
        isRoot | ⟨other, isBefore, _⟩
      · rw [← prunedEq]
        exact linked.above parent (isRoot ▸ isLink)
      · cases isBefore
    | cons head more =>
      injection restEq with isChild _
      subst isChild
      exact linked.prunedFirst parent child isLink before more prunedEq

include linked cuts in
theorem Linked.queue_nodup : (tree.prunedBlockIds ++ ids).Nodup := by
  refine nodup_append.mpr ⟨linked.prunedNodup, cuts.nodup, ?_⟩
  intro id isPruned other isCut same
  subst same
  exact linked.live id (cuts.below id isCut) isPruned

include linked cuts in
theorem Linked.not_queued (isBelow : tree.Below tree.windowRootId next)
    (below : tree.Below next id) : id ∉ tree.prunedBlockIds ++ ids := by
  intro member
  rcases mem_append.mp member with isPruned | isCut
  · exact linked.live id (isBelow.trans below) isPruned
  · exact cuts.apart id isCut below

include moved in
theorem Moved.mem_queue : id ∈ tree.prunedBlockIds ++ ids ↔
    id ∈ removed ∨ id ∈ after.prunedBlockIds := by
  rw [moved.queue, mem_append]

include linked cuts moved in
theorem Moved.below_kept (isBelow : tree.Below tree.windowRootId next) {root : HashValue}
    (rootBelow : tree.Below next root) (below : tree.Below root id) : after.Below root id := by
  induction below with
  | refl => exact .refl
  | tail before isLink inductionHypothesis =>
    refine inductionHypothesis.tail (moved.link_iff.mpr ⟨isLink, ?_⟩)
    intro isRemoved
    exact linked.not_queued cuts isBelow (rootBelow.trans before)
      (moved.mem_queue.mpr (.inl isRemoved))

include linked cuts moved in
theorem Linked.moves (authentic : Authentic hash known)
    (isBelow : tree.Below tree.windowRootId next) : Linked hash known after := by
  have queueNodup := linked.queue_nodup cuts
  rw [moved.queue] at queueNodup
  have queuedExists : ∀ id ∈ tree.prunedBlockIds ++ ids, tree.blockExists id := by
    intro id member
    rcases mem_append.mp member with isPruned | isCut
    · exact linked.prunedExist id isPruned
    · exact linked.exists_below linked.windowRoot (cuts.below id isCut)
  have found : ∀ id linkable, after.getLinkableBlock id = some linkable →
      tree.getLinkableBlock id = some linkable := by
    intro id linkable isFound
    rw [moved.found] at isFound
    split at isFound
    · cases isFound
    · exact isFound
  constructor
  · exact fun id linkable isFound => linked.keyed id _ (found id _ isFound)
  · exact fun id linkable isFound =>
      linked.increasing id _ (found id _ isFound)
  · exact fun id linkable isFound =>
      linked.childrenNodup id _ (found id _ isFound)
  · intro parent child isLink
    obtain ⟨wasLink, parentKept⟩ := moved.link_iff.mp isLink
    obtain ⟨linkable, isFound, isParent, grows⟩ := linked.children parent child wasLink
    refine ⟨linkable, ?_, isParent, grows⟩
    rw [moved.found, if_neg]
    · exact isFound
    · intro isRemoved
      obtain ⟨before, rest, removedEq⟩ := append_of_mem isRemoved
      have parentBefore : parent ∈ before := by
        apply linked.queue_parentFirst cuts wasLink
        rw [moved.queue, removedEq, append_assoc, cons_append]
      apply parentKept
      rw [removedEq]
      exact mem_append_left _ parentBefore
  · exact (nodup_append.mp queueNodup).2.1
  · intro id member
    refine moved.exists_iff.mpr ⟨queuedExists id (moved.mem_queue.mpr (.inr member)), ?_⟩
    intro isRemoved
    exact (nodup_append.mp queueNodup).2.2 id isRemoved id member rfl
  · intro parent child isLink before rest split
    obtain ⟨wasLink, parentKept⟩ := moved.link_iff.mp isLink
    have parentBefore : parent ∈ removed ++ before := by
      apply linked.queue_parentFirst cuts wasLink
      rw [moved.queue, split, append_assoc]
    rcases mem_append.mp parentBefore with isRemoved | isBefore
    · exact absurd isRemoved parentKept
    · exact isBefore
  · rw [moved.windowRoot]
    refine moved.exists_iff.mpr ⟨linked.exists_below linked.windowRoot isBelow, ?_⟩
    intro isRemoved
    exact linked.not_queued cuts isBelow .refl (moved.mem_queue.mpr (.inl isRemoved))
  · intro parent isLink
    rw [moved.windowRoot] at isLink
    obtain ⟨wasLink, parentKept⟩ := moved.link_iff.mp isLink
    have isQueued : parent ∈ tree.prunedBlockIds ++ ids := by
      by_cases same : next = tree.windowRootId
      · exact mem_append_left _ (linked.above parent (same ▸ wasLink))
      · have parentBelow := linked.uniqueParent.reaches_parent isBelow same wasLink
        rcases cuts.complete parent parentBelow with isCut | below
        · exact mem_append_right _ isCut
        · have ranked := linked.ranked authentic
          have atMost := ranked.le below
          have grows := ranked parent next wasLink
          omega
    rcases moved.mem_queue.mp isQueued with isRemoved | queued
    · exact absurd isRemoved parentKept
    · exact queued
  · intro id below isPruned
    rw [moved.windowRoot] at below
    exact linked.not_queued cuts isBelow (moved.below below) (moved.mem_queue.mpr (.inr isPruned))

end Moved

end BlockTree

end LumioNode
