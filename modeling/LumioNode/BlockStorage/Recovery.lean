import LumioNode.BlockStorage.NoLeak

/-! # Building the block store

In a store built from storage the commit root is the ordered root, and every block is
below the window root. -/

namespace LumioNode

open Library List

namespace BlockStore

open BlockTree

/-- Equal ids come from equal hash inputs. -/
def IdsCollisionFree (hash : ConsensusHash) (blocks : List Block) : Prop :=
  ∀ first ∈ blocks, ∀ second ∈ blocks, first.id hash = second.id hash →
    first.blockData.hashInput = second.blockData.hashInput

structure RecoveryPromise (hash : ConsensusHash) (windowSize : Option Nat)
    (root : RootInfo) (blocks : List Block) : Prop where
  windowRoot : WindowRootPromise hash windowSize
    (root.commitRootBlock.id hash) root.windowRoot root.commitCert
  commitRoot : root.commitRootBlock = root.windowRoot ∨ root.commitRootBlock ∈ blocks
  certified : root.commitRootBlock.round = root.commitCert.commitInfo.round
  increasing : ∀ block ∈ blocks, block.certifiedRound < block.round

/-- While the store is built nothing is pruned or sent; `inserted` are in the tree. -/
structure Recovered (hash : ConsensusHash) (windowSize : Option Nat) (known : List Block)
    (root : RootInfo) (inserted : List Block) (store : BlockStore) : Prop where
  noLeak : NoLeak hash windowSize known store.inner
  nothingPruned : store.inner.prunedBlockIds = []
  commitRoot : store.inner.commitRootId = root.commitRootBlock.id hash
  orderedRoot : store.inner.orderedRootId = root.commitRootBlock.id hash
  commitCert : store.inner.highestCommitCert = root.commitCert
  windowSize : store.windowSize = windowSize
  nothingSent : store.finalized = []
  present : ∀ block ∈ inserted, store.inner.blockExists (block.id hash) = true

def Adds (hash : ConsensusHash) (store : BlockStore) (block : Block)
    (result : Except String Block) (after : BlockStore) : Prop :=
  ∃ added, Inserts hash store.inner block added ∧ after = { store with inner := added } ∧
    (result.isOk = true → added.blockExists (block.id hash) = true)

section Building

variable {hash : ConsensusHash} {windowSize : Option Nat} {known blocks inserted : List Block}
  {root : RootInfo} {store after : BlockStore} {block : Block}
  {pipelineBuilt saved : Except String Unit}

variable {result : Except String Block}

theorem adds_nothing
    (present : result.isOk = true → store.inner.blockExists (block.id hash) = true) :
    Adds hash store block result store :=
  ⟨store.inner, .unchanged, rfl, present⟩

theorem insertBlockInner_adds (isAfter : store.insertBlockInner hash block pipelineBuilt saved =
    .ok (result, after)) : Adds hash store block result after := by
  cases pipelineBuilt with
  | error =>
    cases isAfter
    exact adds_nothing nofun
  | ok =>
    cases saved with
    | error =>
      cases isAfter
      exact adds_nothing nofun
    | ok =>
      simp only [insertBlockInner, bind_eq_ok, pure_eq_ok] at isAfter
      obtain ⟨⟨outcome, added⟩, isInserted, same⟩ := isAfter
      cases same
      obtain ⟨inserts, isStored⟩ := insertBlock_eq_ok isInserted
      exact ⟨added, inserts, rfl, isStored⟩

theorem insertCommittedBlock_adds
    (isAfter : store.insertCommittedBlock hash block pipelineBuilt saved = .ok (result, after)) :
    Adds hash store block result after := by
  unfold insertCommittedBlock at isAfter
  split at isAfter
  · cases isAfter
    exact adds_nothing nofun
  · exact insertBlockInner_adds isAfter

theorem insertBlock_adds (isAfter : store.insertBlock hash block pipelineBuilt saved =
    .ok (result, after)) : Adds hash store block result after := by
  cases present : store.inner.getBlock (block.id hash) with
  | some =>
    simp only [insertBlock, present] at isAfter
    cases isAfter
    exact adds_nothing fun _ => blockExists_of_getBlock present
  | none =>
    simp only [insertBlock, present, bind_eq_ok] at isAfter
    obtain ⟨orderedRoot, _, isAfter⟩ := isAfter
    split at isAfter
    · cases isAfter
      exact adds_nothing (by simp [Except.isOk, Except.toBool])
    · obtain ⟨window, _, isAfter⟩ := of_bind isAfter
      cases window with
      | error =>
        cases isAfter
        exact adds_nothing (by simp [Except.isOk, Except.toBool])
      | ok => exact insertBlockInner_adds isAfter

theorem Recovered.adds (recovered : Recovered hash windowSize known root inserted store)
    (isKnown : block ∈ known) (increases : block.certifiedRound < block.round)
    (certified : block.id hash = root.commitRootBlock.id hash → block.round =
      root.commitCert.commitInfo.round) (adds : Adds hash store block result after)
    (isOk : result.isOk = true) :
    Recovered hash windowSize known root (block :: inserted) after := by
  obtain ⟨added, inserts, rfl, isStored⟩ := adds
  have promised : store.inner.Promised hash (.insertBlock block) := by
    refine ⟨increases, fun isCommitRoot => ?_⟩
    rw [recovered.commitRoot] at isCommitRoot
    rw [recovered.commitCert]
    exact certified isCommitRoot
  have parentKept : store.inner.ParentKept hash (.insertBlock block) := by
    intro _
    rw [recovered.nothingPruned]
    exact not_mem_nil
  have noLeak := recovered.noLeak.inserts isKnown promised parentKept inserts
  have present : ∀ other ∈ block :: inserted, added.blockExists (other.id hash) = true :=
    forall_mem_cons.mpr ⟨isStored isOk, fun other wasInserted =>
      inserts.blockExists (recovered.present other wasInserted)⟩
  cases inserts with
  | unchanged | added =>
    exact { recovered with noLeak := noLeak, present := present }

theorem unwrapBuilt_eq_ok {α : Type} {outcome : Except Panic (Except String α × BlockStore)} :
    unwrapBuilt outcome = .ok after ↔
      ∃ result, outcome = .ok (result, after) ∧ result.isOk = true := by
  simp only [unwrapBuilt, bind_eq_ok, ensure_eq_ok, pure_eq_ok]
  constructor
  · rintro ⟨⟨result, store⟩, isOutcome, _, isOk, rfl⟩
    exact ⟨result, isOutcome, isOk⟩
  · rintro ⟨result, isOutcome, isOk⟩
    exact ⟨⟨result, after⟩, isOutcome, (), isOk, rfl⟩

theorem Recovered.buildBlocks {rootRound : Nat}
    (recovered : Recovered hash windowSize known root inserted store)
    (isKnown : ∀ block ∈ blocks, block ∈ known)
    (increases : ∀ block ∈ blocks, block.certifiedRound < block.round)
    (certified : ∀ block ∈ blocks, block.id hash = root.commitRootBlock.id hash → block.round =
      root.commitCert.commitInfo.round)
    (isBuilt : store.buildBlocks hash rootRound blocks = .ok after) :
    Recovered hash windowSize known root (blocks.reverse ++ inserted) after := by
  induction blocks generalizing store inserted with
  | nil =>
    cases isBuilt
    exact recovered
  | cons block rest inductionHypothesis =>
    obtain ⟨added, isAdded, isBuilt⟩ := of_bind isBuilt
    obtain ⟨result, isResult, isOk⟩ := unwrapBuilt_eq_ok.mp isAdded
    have adds : Adds hash store block result added := by
      split at isResult
      · exact insertCommittedBlock_adds isResult
      · exact insertBlock_adds isResult
    have next := recovered.adds (isKnown block mem_cons_self)
      (increases block mem_cons_self)
      (certified block mem_cons_self) adds isOk
    rw [reverse_cons, append_assoc, singleton_append]
    apply inductionHypothesis next _ _ _ isBuilt
    · exact fun other isOther => isKnown other (.tail _ isOther)
    · exact fun other isOther => increases other (.tail _ isOther)
    · exact fun other isOther => certified other (.tail _ isOther)

theorem insertSingleQuorumCert_keepsBlocks {qc : QuorumCert} {result : Except String Unit}
    (isAfter : store.insertSingleQuorumCert hash qc saved = .ok (result, after)) :
    ∃ tree, store.inner.KeepsBlocks tree ∧ after = { store with inner := tree } := by
  unfold insertSingleQuorumCert at isAfter
  split at isAfter
  · cases isAfter
    exact ⟨_, ⟨rfl, rfl, rfl, rfl, rfl, rfl⟩, rfl⟩
  · split at isAfter
    · cases isAfter
      exact ⟨_, ⟨rfl, rfl, rfl, rfl, rfl, rfl⟩, rfl⟩
    · split at isAfter
      · cases isAfter
        exact ⟨_, ⟨rfl, rfl, rfl, rfl, rfl, rfl⟩, rfl⟩
      · obtain ⟨⟨outcome, tree⟩, isInserted, same⟩ := of_bind isAfter
        cases same
        exact ⟨tree, insertQuorumCert_keepsBlocks isInserted, rfl⟩

section

variable (recovered : Recovered hash windowSize known root inserted store)

include recovered

theorem Recovered.keepsBlocks {tree : BlockTree} (keeps : store.inner.KeepsBlocks tree) :
    Recovered hash windowSize known root inserted { store with inner := tree } := by
  cases store with | mk inner windowSize finalized =>
  cases inner
  cases tree
  obtain ⟨⟨⟩, ⟨⟩, ⟨⟩, ⟨⟩, ⟨⟩, ⟨⟩⟩ := keeps
  exact { recovered with noLeak := recovered.noLeak.of_same rfl rfl rfl rfl rfl }

theorem Recovered.buildQuorumCerts {quorumCerts : List QuorumCert}
    (isBuilt : store.buildQuorumCerts hash quorumCerts = .ok after) :
    Recovered hash windowSize known root inserted after := by
  induction quorumCerts generalizing store with
  | nil =>
    cases isBuilt
    exact recovered
  | cons qc rest inductionHypothesis =>
    obtain ⟨added, isAdded, isBuilt⟩ := of_bind isBuilt
    obtain ⟨result, isResult, _⟩ := unwrapBuilt_eq_ok.mp isAdded
    obtain ⟨tree, keeps, rfl⟩ := insertSingleQuorumCert_keepsBlocks isResult
    exact inductionHypothesis (recovered.keepsBlocks keeps) isBuilt

end

theorem build_recovered {quorumCerts : List QuorumCert} {maxPrunedBlocksInMem : Nat}
    (promise : RecoveryPromise hash windowSize root blocks)
    (isKnown : ∀ block ∈ root.windowRoot :: blocks, block ∈ known)
    (collisionFree : IdsCollisionFree hash known)
    (isBuilt : build hash root blocks quorumCerts windowSize maxPrunedBlocksInMem = .ok store) :
    Recovered hash windowSize known root (blocks.reverse ++ [root.windowRoot]) store := by
  obtain ⟨tree, isNew, isBuilt⟩ := of_bind isBuilt
  obtain ⟨withBlocks, blocksBuilt, certsBuilt⟩ := of_bind isBuilt
  obtain ⟨_, _, commitEq, orderedEq, certEq, prunedEq⟩ := new_eq_ok isNew
  have commitRootKnown : root.commitRootBlock ∈ known := by
    rcases promise.commitRoot with isRoot | isBlock
    · rw [isRoot]
      exact isKnown _ mem_cons_self
    · exact isKnown _ (mem_cons_of_mem _ isBlock)
  have start : Recovered hash windowSize known root [root.windowRoot] ⟨tree, windowSize, []⟩ := by
    refine ⟨noLeak_new isNew (isKnown _ mem_cons_self)
      promise.windowRoot, prunedEq, commitEq, orderedEq, certEq, rfl, rfl,
      ?_⟩
    intro block isBlock
    rw [mem_singleton.mp isBlock]
    exact blockExists_iff.mpr ⟨_, (new_found isNew).mpr ⟨rfl, rfl⟩⟩
  have afterBlocks := start.buildBlocks (forall_mem_cons.mp isKnown).2 promise.increasing (by
      intro block isBlock isCommitRoot
      have sameInput := collisionFree _
        (isKnown _ (mem_cons_of_mem _ isBlock)) _ commitRootKnown
        isCommitRoot
      rw [← promise.certified]
      exact (BlockData.eq_of_hashInput_eq sameInput).1) blocksBuilt
  exact afterBlocks.buildQuorumCerts certsBuilt

end Building

end BlockStore

end LumioNode
