import LumioNode.BlockStorage.OrderedChain

/-! # Ordered execution is one chain

The blocks handed to execution form one chain, as long as commits come in the order of
execution. -/

namespace LumioNode

open Library Relation List

namespace BlockStore

open BlockTree

/-- What holds after a run that started at the ordered root `first`. -/
structure OneChain (hash : ConsensusHash) (first : Block) (store : BlockStore) : Prop where
  chain : (first :: store.finalized.flatten).IsChain (Extends hash)
  nodup : ((first :: store.finalized.flatten).map (Block.id hash)).Nodup
  ends : ∃ orderedRoot, store.inner.getBlock store.inner.orderedRootId = some orderedRoot ∧
      (first :: store.finalized.flatten).getLast? = some orderedRoot
  windowRoot : store.inner.blockExists store.inner.windowRootId = true
  commitRoot : store.inner.blockExists store.inner.commitRootId = true
  commitBelow : store.inner.Descends store.inner.commitRootId store.inner.windowRootId
  orderedBelow : store.inner.Descends store.inner.orderedRootId store.inner.commitRootId

/-- Blocks come after their parents, finality proofs name blocks of the chain, and `commits`
holds of the commits. -/
def Promised (hash : ConsensusHash) (chain : List Block)
    (commits : BlockStore → BlockTree.Commit → Prop) (store : BlockStore) :
    Call → Prop
  | .insertBlock block _ _ => block.certifiedRound < block.round
  | .insertSingleQuorumCert _ _ => True
  | .sendForExecution finalityProof =>
    ∃ block ∈ chain, block.id hash = finalityProof.commitInfo.id
  | .commitCallback commit => commits store commit

/-- The panics that are not about a root. -/
inductive NotOnRoots : Panic → Prop where
  | highestCertified : NotOnRoots .highestCertifiedBlockMustExist
  | overflow : NotOnRoots .attemptToAddWithOverflow

section Runs

variable {hash : ConsensusHash} {windowSize : Option Nat} {known chain inserted : List Block}
  {root : RootInfo} {first : Block} {store : BlockStore}

theorem Recovered.ordered (recovered : Recovered hash windowSize known root inserted store)
    (positive : windowSize ≠ some 0) (authentic : Authentic hash known)
    (collisionFree : IdsCollisionFree hash (known ++ chain))
    (isChain : chain.IsChain (Extends hash))
    (passes : ∃ block ∈ chain, block.id hash = root.commitRootBlock.id hash)
    (rootInserted : root.commitRootBlock ∈ inserted) :
    ∃ first, store.inner.getBlock store.inner.orderedRootId = some first ∧
      Ordered hash known chain first store := by
  have sameRoot : store.inner.commitRootId = store.inner.orderedRootId :=
    recovered.commitRoot.trans recovered.orderedRoot.symm
  have commitExists : store.inner.blockExists store.inner.commitRootId = true := by
    rw [recovered.commitRoot]
    exact recovered.present _ rootInserted
  obtain ⟨linkable, found⟩ := blockExists_iff.mp commitExists
  have isCommitRoot := getBlock_eq_some.mpr ⟨linkable, found, rfl⟩
  have linked := recovered.noLeak.linked
  have certified := recovered.noLeak.certified _ isCommitRoot
  have commitBelow := recovered.noLeak.commitBelow commitExists
  obtain ⟨isId, isKnown⟩ := linked.keyed _ _ found
  have logEq : store.log linkable.executedBlock = [linkable.executedBlock] := by
    simp [log, recovered.nothingSent]
  refine ⟨linkable.executedBlock, sameRoot ▸ isCommitRoot,
    recovered.windowSize ▸ positive, linked, ⟨linkable.executedBlock, ?_⟩,
    ?_, ?_, ?_, ?_, ?_, ?_, ?_⟩
  · refine ⟨isCommitRoot, commitBelow, certified.symm, ?_⟩
    rw [certified, recovered.windowSize]
    exact recovered.noLeak.windowed
  · rw [sameRoot]
  · rw [logEq]
    exact isChain_singleton _
  · intro block inLog
    rw [logEq, mem_singleton] at inLog
    rw [inLog]
    exact isKnown
  · rw [logEq]
    exact ⟨linkable.executedBlock, sameRoot ▸ isCommitRoot, rfl⟩
  · intro block inLog _
    rw [logEq, mem_singleton] at inLog
    rw [inLog, isId, sameRoot]
    exact ⟨.refl, .refl⟩
  · rw [recovered.orderedRoot]
    exact passes
  · intro before parent child after split notEarlier isThere
    have extending : Extends hash parent child := by
      rw [split] at isChain
      exact (isChain_cons_cons.mp (isChain_append.mp isChain).2.1).1
    have childOnChain : child ∈ known ++ chain := by
      rw [split]
      simp
    obtain ⟨childBlock, childFound⟩ := blockExists_iff.mp isThere
    obtain ⟨childRound, childParent⟩ := same_of_found collisionFree linked childOnChain childFound
    have childBelow : store.inner.Below store.inner.windowRootId (child.id hash) := by
      rcases recovered.noLeak.liveOrPruned _ isThere with below | isPruned
      · exact below
      · rw [recovered.nothingPruned] at isPruned
        cases isPruned
    have notRoot : child.id hash ≠ store.inner.windowRootId := by
      intro isRoot
      have rootRound := (linked.ranked authentic).le commitBelow
      rw [← isRoot, roundOf_eq childFound, sameRoot] at rootRound
      have grows := extending.2
      omega
    have isLink := (linked.parent_below childFound childBelow notRoot).2
    rw [childParent, extending.1] at isLink
    exact isLink

theorem Ordered.perform_ok (ordered : Ordered hash known chain first store)
    (authentic : Authentic hash known) (collisionFree : IdsCollisionFree hash (known ++ chain))
    (isChain : chain.IsChain (Extends hash)) {call : Call}
    (isKnown : ∀ block ∈ call.blocks, block ∈ known)
    (promised : store.Promised hash chain (CommitsInOrder hash) call) :
    (∃ panic, store.perform hash call = .error panic ∧ NotOnRoots panic) ∨
      ∃ after, store.perform hash call = .ok after ∧ Ordered hash known chain first after := by
  cases call with
  | insertBlock block pipelineBuilt saved =>
    rcases ordered.insertBlock_ok authentic collisionFree isChain
        (isKnown block mem_cons_self) promised pipelineBuilt saved with
      overflows | ⟨result, after, isAfter, keeps⟩
    · exact .inl ⟨_, by rw [perform, overflows]; rfl, .overflow⟩
    · exact .inr ⟨after, by rw [perform, isAfter]; rfl, keeps⟩
  | insertSingleQuorumCert qc saved =>
    rcases ordered.insertSingleQuorumCert_ok qc saved with
      missing | ⟨result, after, isAfter, keeps⟩
    · exact .inl ⟨_, by rw [perform, missing]; rfl, .highestCertified⟩
    · exact .inr ⟨after, by rw [perform, isAfter]; rfl, keeps⟩
  | sendForExecution =>
    obtain ⟨result, after, isAfter, keeps⟩ :=
      ordered.sendForExecution_ok authentic collisionFree isChain promised
    exact .inr ⟨after, by rw [perform, isAfter]; rfl, keeps⟩
  | commitCallback =>
    rcases ordered.commitCallback_ok authentic collisionFree isChain
      promised with overflows | ⟨after, isAfter, keeps⟩
    · exact .inl ⟨_, overflows, .overflow⟩
    · exact .inr ⟨after, isAfter, keeps⟩

theorem Ordered.oneChain (ordered : Ordered hash known chain first store)
    (collisionFree : IdsCollisionFree hash (known ++ chain)) : OneChain hash first store := by
  obtain ⟨commitRoot, rooted⟩ := ordered.rooted
  refine ⟨ordered.logChain, ?_, ordered.logEnds, ordered.linked.windowRoot,
    blockExists_of_getBlock rooted.isCommitRoot,
    ordered.linked.descends_of_below rooted.below,
    ordered.linked.descends_of_below ordered.below⟩
  apply pairwise_map.mpr
  apply (rounds_pairwise ordered.logChain).imp_of_mem
  intro earlier later isEarlier isLater grows sameId
  have sameInput := collisionFree earlier
    (mem_append_left _ (ordered.logKnown _ isEarlier)) later
    (mem_append_left _ (ordered.logKnown _ isLater)) sameId
  have sameRound : earlier.round = later.round := (BlockData.eq_of_hashInput_eq sameInput).1
  omega

/-- If commits are for blocks handed to execution, in the order of rounds, execution gets one
chain and the roots stay in the tree. -/
theorem ordered_execution_is_one_chain {blocks : List Block} {quorumCerts : List QuorumCert}
    {maxPrunedBlocksInMem : Nat}
    (isBuilt : build hash root blocks quorumCerts windowSize maxPrunedBlocksInMem = .ok store)
    (positive : windowSize ≠ some 0) (promise : RecoveryPromise hash windowSize root blocks)
    (calls : List Call)
    (authentic : Authentic hash (root.windowRoot :: blocks ++ calls.flatMap Call.blocks))
    (collisionFree : IdsCollisionFree hash (root.windowRoot :: blocks ++ calls.flatMap Call.blocks
      ++ chain)) (isChain : chain.IsChain (Extends hash))
    (passes : ∃ block ∈ chain, block.id hash = root.commitRootBlock.id hash)
    (meets : RunMeets (perform hash) (Promised hash chain (CommitsInOrder hash)) store calls) :
    ∃ first, store.inner.getBlock store.inner.orderedRootId = some first ∧
      ((∃ panic, store.run hash calls = .error panic ∧ NotOnRoots panic) ∨
        ∃ reached, store.run hash calls = .ok reached ∧ OneChain hash first reached) := by
  have recovered := build_recovered promise (fun block isBlock => mem_append_left _ isBlock)
    (fun first isFirst second isSecond => collisionFree first
      (mem_append_left _ isFirst) second
      (mem_append_left _ isSecond)) isBuilt
  have rootInserted : root.commitRootBlock ∈ blocks.reverse ++ [root.windowRoot] := by
    rw [mem_append, mem_reverse, mem_singleton]
    exact promise.commitRoot.symm
  obtain ⟨first, isFirst, ordered⟩ := recovered.ordered positive authentic
    collisionFree isChain passes rootInserted
  refine ⟨first, isFirst, ?_⟩
  have outcome : (∃ panic, store.run hash calls = .error panic ∧
      NotOnRoots panic) ∨ ∃ reached, store.run hash calls = .ok reached ∧
        Ordered hash (root.windowRoot :: blocks ++
          calls.flatMap Call.blocks) chain first reached := by
    apply meets.invariant ordered
    intro before call isCall keeps promised
    apply keeps.perform_ok authentic collisionFree isChain _ promised
    intro block isBlock
    exact mem_append_right _ (mem_flatMap.mpr ⟨call, isCall, isBlock⟩)
  rcases outcome with panics | ⟨reached, ran, keeps⟩
  · exact .inl panics
  · exact .inr ⟨reached, ran, keeps.oneChain collisionFree⟩

end Runs

namespace TwoBlocks

open LateChild

def root : RootInfo := ⟨genesis, none, certificate (info 0), wrapped 0, wrapped 0⟩

def built : BlockStore := ⟨start, none, []⟩

theorem isBuilt : build hash root [] [] none 10 = .ok built := rfl

theorem recoveryPromise : RecoveryPromise hash none root [] where
  windowRoot := windowRootPromise
  commitRoot := .inl rfl
  certified := rfl
  increasing := by
    intro block isBlock
    cases isBlock

def chain : List Block := [genesis, block 1 0, block 2 1]

theorem isChain : chain.IsChain (Extends hash) := by
  refine .cons_cons ?_ (.cons_cons ?_ (.singleton _))
  · exact ⟨rfl, by decide⟩
  · exact ⟨rfl, by decide⟩

def insertFirst : Call := .insertBlock (block 1 0) (.ok ()) (.ok ())

def insertSecond : Call := .insertBlock (block 2 1) (.ok ()) (.ok ())

def withFirst : BlockStore := { built with inner := LateChild.first }

def withSecond : BlockStore := { built with
  inner := LateChild.first.linkBlock hash (block 2 1) ⟨block 1 0, [3]⟩ }

/-- Both blocks are handed to execution. -/
def sent : BlockStore := { withSecond with
  inner := { withSecond.inner with
    orderedRootId := 3
    highestOrderedCert := wrapped 2 }
  finalized := [[block 1 0, block 2 1]] }

def committed : BlockStore := { sent with
  inner := { sent.inner with
    commitRootId := 2
    windowRootId := 2
    highestCommitCert := wrapped 1
    prunedBlockIds := [1] } }

def calls : List Call := [insertFirst, insertSecond, .sendForExecution (wrapped 2),
    .commitCallback commit]

theorem firstInserted : built.perform hash insertFirst = .ok withFirst := rfl

theorem secondInserted : withFirst.perform hash insertSecond = .ok withSecond := rfl

theorem bothSent : withSecond.perform hash (.sendForExecution (wrapped 2)) = .ok sent := rfl

theorem firstCommitted : sent.perform hash (.commitCallback commit) = .ok committed := rfl

theorem meets : RunMeets (perform hash)
    (Promised hash chain (CommitsInOrder hash)) built calls := by
  refine .cons firstInserted ?_ (.cons secondInserted ?_
    (.cons bothSent ?_ (.cons firstCommitted ?_ trivial)))
  · show (block 1 0).certifiedRound < (block 1 0).round
    decide
  · show (block 2 1).certifiedRound < (block 2 1).round
    decide
  · exact ⟨block 2 1, by simp [chain], rfl⟩
  · exact ⟨block 1 0, by simp [sent], rfl, by decide, rfl, rfl, rfl⟩

theorem authentic : Authentic hash (root.windowRoot :: [] ++ calls.flatMap Call.blocks) := by
  intro child childMember parent parentMember
  simp only [calls, insertFirst, insertSecond, flatMap_cons, flatMap_nil, Call.blocks, cons_append,
    nil_append, mem_cons, not_mem_nil, or_false] at childMember parentMember
  rcases childMember with rfl | rfl | rfl <;> rcases parentMember with rfl | rfl | rfl <;> decide

theorem collisionFree : IdsCollisionFree hash
    (root.windowRoot :: [] ++ calls.flatMap Call.blocks ++ chain) := by
  intro left isLeft right isRight
  simp only [calls, insertFirst, insertSecond, chain, flatMap_cons, flatMap_nil, Call.blocks,
    cons_append, nil_append, mem_cons, not_mem_nil, or_false] at isLeft isRight
  rcases isLeft with rfl | rfl | rfl | rfl | rfl | rfl <;>
    rcases isRight with rfl | rfl | rfl | rfl | rfl | rfl <;>
    first | exact fun _ => rfl | exact fun same => absurd same (by decide)

end TwoBlocks

open TwoBlocks

theorem two_blocks_execute_as_one_chain : ∃ first, TwoBlocks.built.inner.getBlock
      TwoBlocks.built.inner.orderedRootId = some first ∧
    ((∃ panic, TwoBlocks.built.run LateChild.hash TwoBlocks.calls =
        .error panic ∧ NotOnRoots panic) ∨
      ∃ reached, TwoBlocks.built.run LateChild.hash TwoBlocks.calls =
        .ok reached ∧ OneChain LateChild.hash first reached) :=
  ordered_execution_is_one_chain isBuilt (by decide) recoveryPromise TwoBlocks.calls authentic
    collisionFree isChain
    ⟨LateChild.genesis, mem_cons_self, rfl⟩ meets

/-- A commit of a block below the commit root, handed to execution or not. -/
def CommitsInAnyOrder (hash : ConsensusHash) (store : BlockStore)
    (commit : BlockTree.Commit) : Prop :=
  store.inner.Promised hash (.commitCallback commit)

namespace CommitFirst

open LateChild

def callsEarly : List Call := [TwoBlocks.insertFirst, .commitCallback commit]

/-- The first block is committed before it is ordered. -/
def early : BlockStore := { withFirst with
  inner := { LateChild.first with
    commitRootId := 2
    windowRootId := 2
    highestCommitCert := wrapped 1
    prunedBlockIds := [1] } }

theorem earlyCommitted : withFirst.perform hash (.commitCallback commit) = .ok early := rfl

theorem ran : TwoBlocks.built.run hash callsEarly = .ok early := by
  simp only [run, callsEarly, runAll, TwoBlocks.firstInserted, earlyCommitted, ok_bind]

theorem meets : RunMeets (perform hash) (Promised hash chain (CommitsInAnyOrder hash))
    TwoBlocks.built callsEarly := by
  refine .cons TwoBlocks.firstInserted ?_ (.cons earlyCommitted ?_ trivial)
  · show (block 1 0).certifiedRound < (block 1 0).round
    decide
  · refine ⟨.single ⟨⟨genesis, [2]⟩, rfl, by decide⟩, ?_⟩
    intro block found
    cases found
    exact ⟨by decide, rfl, rfl, rfl⟩

theorem known_mem {block : Block}
    (isKnown : block ∈ root.windowRoot :: [] ++ callsEarly.flatMap Call.blocks) :
    block ∈ root.windowRoot :: [] ++ TwoBlocks.calls.flatMap Call.blocks := by
  simp only [callsEarly, TwoBlocks.calls, TwoBlocks.insertFirst, TwoBlocks.insertSecond,
    flatMap_cons, flatMap_nil, Call.blocks, cons_append, nil_append, mem_cons, not_mem_nil,
    or_false] at isKnown ⊢
  exact isKnown.imp_right .inl

/-- The ordered root is the genesis block, which has no parent. -/
theorem not_descends : ¬ early.inner.Descends early.inner.orderedRootId
    early.inner.commitRootId := by
  intro descends
  rcases ReflTransGen.cases_head descends with same | ⟨parent, isLink, _⟩
  · exact absurd same (by decide)
  · obtain ⟨child, found, rfl, parentExists⟩ := isLink
    cases found
    exact absurd parentExists (by decide)

end CommitFirst

open CommitFirst

/-- A commit before execution takes the commit root past the ordered root. -/
theorem commit_root_past_ordered_root :
    ¬ ∀ (hash : ConsensusHash) (root : RootInfo) (blocks : List Block)
        (quorumCerts : List QuorumCert) (windowSize : Option Nat)
        (maxPrunedBlocksInMem : Nat) (store : BlockStore)
        (calls : List Call) (chain : List Block) (reached : BlockStore),
      build hash root blocks quorumCerts windowSize maxPrunedBlocksInMem = .ok store →
        windowSize ≠ some 0 →
        RecoveryPromise hash windowSize root blocks →
        Authentic hash (root.windowRoot :: blocks ++ calls.flatMap Call.blocks) →
        IdsCollisionFree hash (root.windowRoot :: blocks ++ calls.flatMap Call.blocks ++ chain) →
        chain.IsChain (Extends hash) →
        (∃ block ∈ chain, block.id hash = root.commitRootBlock.id hash) →
        RunMeets (perform hash) (Promised hash chain (CommitsInAnyOrder hash)) store calls →
        store.run hash calls = .ok reached →
        reached.inner.Descends reached.inner.orderedRootId
          reached.inner.commitRootId := by
  intro claimed
  apply not_descends
  apply claimed LateChild.hash root [] [] none 10 TwoBlocks.built callsEarly chain early
    isBuilt (by decide) recoveryPromise
  · intro child isChild parent isParent
    exact authentic child (known_mem isChild) parent (known_mem isParent)
  · have inAll : ∀ block ∈ root.windowRoot :: [] ++ callsEarly.flatMap Call.blocks ++ chain,
        block ∈ root.windowRoot :: [] ++ TwoBlocks.calls.flatMap Call.blocks ++ chain := by
      intro block isBlock
      rw [mem_append] at isBlock ⊢
      exact isBlock.imp_left known_mem
    intro left isLeft right isRight
    exact collisionFree left (inAll left isLeft) right (inAll right isRight)
  · exact isChain
  · exact ⟨LateChild.genesis, mem_cons_self, rfl⟩
  · exact meets
  · exact ran

end BlockStore

end LumioNode
