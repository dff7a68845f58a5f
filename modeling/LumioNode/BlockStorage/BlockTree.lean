import LumioNode.ConsensusTypes.Block
import LumioNode.Library.Forest

/-! # The block tree and the block store

A failed `assert!` or `expect` ends a call with a `Panic`, an `anyhow` error is a value.
A loop that takes more rounds than there are blocks visits one twice and does not end. -/

namespace LumioNode

open Library

/-- The asserts and expects of the block storage. -/
inductive Panic where
  | windowRootEpoch
  | windowRootRound
  | rootMustExist
  | commitRootMustExist
  | windowRootMustExist
  | highestCertifiedBlockMustExist
  | childAlreadyExisted
  | childMustExist
  | orderedRootNotInTree
  | commitRootNotInTree
  | windowRootNotInTree
  | windowSizeZero
  | attemptToAddWithOverflow
  | blockNotFound
  | orderedBlockWindowNotFound
  | inconsistentCommitProof
  | noBlocksToCommit
  | failedToBuild
  | endless
deriving DecidableEq

namespace Block

def isGenesisBlock (block : Block) : Bool := block.blockData.isGenesisBlock

/-- The round of the parent as the block's certificate states it. -/
def certifiedRound (block : Block) : Nat := block.quorumCert.certifiedBlock.round

/-- A block other than a genesis block comes after its parent. -/
def Increases (block : Block) : Prop :=
  block.isGenesisBlock = true ∨ block.certifiedRound < block.round

end Block

/-- `calculate_window_start_round`; the addition is checked. -/
def calculateWindowStartRound (currentRound windowSize : Nat) : Except Panic Nat := do
  ensure (0 < windowSize) Panic.windowSizeZero
  let next ← expect .attemptToAddWithOverflow (checkedAdd currentRound 1)
  return next - windowSize

/-- The children are in the order of insertion; the source has a hash set. -/
structure LinkableBlock where
  executedBlock : Block
  children : List HashValue
deriving DecidableEq

def LinkableBlock.new (block : Block) : LinkableBlock := ⟨block, []⟩

def LinkableBlock.withChild (linkable : LinkableBlock) (childId : HashValue) : LinkableBlock :=
  { linkable with children := linkable.children ++ [childId] }

def LinkableBlock.addChild (linkable : LinkableBlock)
    (childId : HashValue) : Except Panic LinkableBlock := do
  ensure (childId ∉ linkable.children) Panic.childAlreadyExisted
  return linkable.withChild childId

structure BlockTree where
  idToBlock : SortedMap HashValue LinkableBlock
  orderedRootId : HashValue
  commitRootId : HashValue
  windowRootId : HashValue
  highestCertifiedBlockId : HashValue
  highestQuorumCert : QuorumCert
  highestOrderedCert : WrappedLedgerInfo
  highestCommitCert : WrappedLedgerInfo
  idToQuorumCert : SortedMap HashValue QuorumCert
  /-- Pruned from the tree but not cleaned up yet, oldest first. -/
  prunedBlockIds : List HashValue
  maxPrunedBlocksInMem : Nat
  roundToIds : SortedMap Nat HashValue

namespace BlockTree

section Functions

variable (hash : ConsensusHash)

def new (commitRootId : HashValue) (windowRoot : Block) (rootQuorumCert : QuorumCert)
    (rootOrderedCert rootCommitCert : WrappedLedgerInfo)
    (maxPrunedBlocksInMem : Nat) : Except Panic BlockTree := do
  ensure (windowRoot.epoch = rootOrderedCert.commitInfo.epoch) Panic.windowRootEpoch
  ensure (windowRoot.round ≤ rootOrderedCert.commitInfo.round) Panic.windowRootRound
  let windowRootId := windowRoot.id hash
  return {
    idToBlock := SortedMap.empty.insert windowRootId (LinkableBlock.new windowRoot)
    orderedRootId := commitRootId
    commitRootId
    windowRootId
    highestCertifiedBlockId := commitRootId
    highestQuorumCert := rootQuorumCert
    highestOrderedCert := rootOrderedCert
    highestCommitCert := rootCommitCert
    idToQuorumCert := SortedMap.empty.insert rootQuorumCert.certifiedBlock.id rootQuorumCert
    prunedBlockIds := []
    maxPrunedBlocksInMem
    roundToIds := SortedMap.empty.insert windowRoot.round windowRootId }

variable (tree : BlockTree)

variable (blockId : HashValue)

def getLinkableBlock : Option LinkableBlock :=
  tree.idToBlock.get? blockId

def getBlock : Option Block :=
  (tree.getLinkableBlock blockId).map LinkableBlock.executedBlock

def blockExists : Bool :=
  (tree.getLinkableBlock blockId).isSome

def removeBlock : BlockTree :=
  { tree with
    idToBlock := tree.idToBlock.erase blockId
    roundToIds := match tree.getBlock blockId with
      | some block => tree.roundToIds.erase block.round
      | none => tree.roundToIds
    idToQuorumCert := tree.idToQuorumCert.erase blockId }

def orderedRoot : Except Panic Block :=
  expect .rootMustExist (tree.getBlock tree.orderedRootId)

def commitRoot : Except Panic Block :=
  expect .commitRootMustExist (tree.getBlock tree.commitRootId)

def linkableWindowRoot : Except Panic LinkableBlock :=
  expect .windowRootMustExist (tree.getLinkableBlock tree.windowRootId)

def highestCertifiedBlock : Except Panic Block :=
  expect .highestCertifiedBlockMustExist (tree.getBlock tree.highestCertifiedBlockId)

def loopBound : Nat := tree.idToBlock.entries.length + 1

/-- The loop of `get_ordered_block_window`, from child to parent. -/
def windowLoop (tree : BlockTree) (windowStartRound : Nat) :
    Nat → Block → Except Panic (Except String (List Block))
  | 0, _ => .error .endless
  | fuel + 1, currentBlock =>
    if currentBlock.isGenesisBlock = false ∧ windowStartRound ≤ currentBlock.certifiedRound then
      match tree.getBlock currentBlock.parentId with
      | some parent => do
          let rest ← windowLoop tree windowStartRound fuel parent
          return rest.map (parent :: ·)
      | none => .ok (.error ("Parent block not found for block " ++
          (currentBlock.id hash).display))
    else .ok (.ok [])

/-- The recent blocks before `block`, oldest first. -/
def getOrderedBlockWindow (block : Block) (windowSize : Option Nat) :
    Except Panic (Except String (List Block)) := do
  let commitRoot ← tree.commitRoot
  if block.round < commitRoot.round then
    return .error ("Block round " ++ toString block.round ++
      " is less than the commit root round " ++
      toString commitRoot.round ++ ", cannot get_ordered_block_window")
  match windowSize with
  | none => return .ok []
  | some windowSize =>
    let windowStartRound ← calculateWindowStartRound block.round windowSize
    let windowSize := block.round - windowStartRound + 1
    let walked ← tree.windowLoop hash windowStartRound tree.loopBound block
    return do
      ensure (0 < windowSize) "window_size must be greater than 0"
      let window ← walked
      ensure (window.length < windowSize) "Condition failed: `window.len() < window_size as usize`"
      return window.reverse

/-- Put the block into the tree under its parent, which is `linked`. -/
def linkBlock (block : Block) (linked : LinkableBlock) : BlockTree :=
  { tree with
    idToBlock := (tree.idToBlock.insert block.parentId linked).insert
      (block.id hash) (LinkableBlock.new block)
    roundToIds := tree.roundToIds.orInsert block.round (block.id hash) }

def insertBlock (block : Block) :
    Except Panic (Except String Block × BlockTree) :=
  let blockId := block.id hash
  match tree.getBlock blockId with
  | some existingBlock => return (.ok existingBlock, tree)
  | none =>
    match tree.getLinkableBlock block.parentId with
    | none => return (.error ("Parent block " ++ block.parentId.display ++
        " not found"), tree)
    | some parentBlock => do
        let linked ← parentBlock.addChild blockId
        return (.ok block, tree.linkBlock hash block linked)

def updateOrderedRoot (rootId : HashValue) : Except Panic BlockTree := do
  ensure (tree.blockExists rootId) Panic.orderedRootNotInTree
  return { tree with orderedRootId := rootId }

def updateCommitRoot (rootId : HashValue) : Except Panic BlockTree := do
  ensure (tree.blockExists rootId) Panic.commitRootNotInTree
  return { tree with commitRootId := rootId }

def updateWindowRoot (rootId : HashValue) : Except Panic BlockTree := do
  ensure (tree.blockExists rootId) Panic.windowRootNotInTree
  return { tree with windowRootId := rootId }

def updateHighestCommitCert
    (newCommitCert : WrappedLedgerInfo) : Except Panic BlockTree :=
  if tree.highestCommitCert.commitInfo.round < newCommitCert.commitInfo.round then
    { tree with highestCommitCert := newCommitCert }.updateCommitRoot newCommitCert.commitInfo.id
  else .ok tree

def insertOrderedCert (orderedCert : WrappedLedgerInfo) : BlockTree :=
  if tree.highestOrderedCert.commitInfo.round < orderedCert.commitInfo.round then
    { tree with highestOrderedCert := orderedCert }
  else tree

def insertQuorumCert (qc : QuorumCert) :
    Except Panic (Except String Unit × BlockTree) :=
  let blockId := qc.certifiedBlock.id
  match tree.getBlock blockId with
  | none => return (.error ("Block " ++ blockId.display ++ " not found"),
      tree)
  | some block => do
      let highestCertified ← tree.highestCertifiedBlock
      let certified := if highestCertified.round < block.round then
          { tree with
            highestCertifiedBlockId := block.id hash
            highestQuorumCert := qc }
        else tree
      let recorded := { certified with
        idToQuorumCert := certified.idToQuorumCert.orInsert blockId qc }
      return (.ok (), recorded.insertOrderedCert qc.intoWrappedLedgerInfo)

def childrenToPrune (nextWindowRootId : HashValue)
    (blockId : HashValue) : Except Panic (List HashValue) := do
  let linkable ← expect .childMustExist (tree.getLinkableBlock blockId)
  let children := linkable.children.filter (· ≠ nextWindowRootId)
  ensure (children.all tree.blockExists) Panic.childMustExist
  return children

/-- The blocks to prune when the window root moves, each before its children. -/
def findBlocksToPrune (nextWindowRootId : HashValue) :
    Except Panic (List HashValue) :=
  if nextWindowRootId = tree.windowRootId then .ok []
  else do
    let _ ← tree.linkableWindowRoot
    traverse .endless (tree.childrenToPrune nextWindowRootId) tree.loopBound [tree.windowRootId]

/-- The first block of the window of `blockToCommitId`, or the block itself. -/
def findWindowRoot (blockToCommitId : HashValue)
    (windowSize : Option Nat) : Except Panic HashValue := do
  ensure (windowSize ≠ some 0) Panic.windowSizeZero
  let block ← expect .blockNotFound (tree.getBlock blockToCommitId)
  let window ← tree.getOrderedBlockWindow hash block windowSize
  match window with
  | .error _ => .error .orderedBlockWindowNotFound
  | .ok pipelinedBlocks =>
    return ((pipelinedBlocks.head?.getD block).id hash)

/-- Queue the pruned blocks, and remove the oldest ones beyond the limit. -/
def processPrunedBlocks (newlyPrunedBlocks : List HashValue) : BlockTree :=
  let queued := tree.prunedBlockIds ++ newlyPrunedBlocks
  let numBlocksToRemove := queued.length - tree.maxPrunedBlocksInMem
  (queued.take numBlocksToRemove).foldl removeBlock
    { tree with prunedBlockIds := queued.drop numBlocksToRemove }

/-- The loop of `path_from_root_to_block`: the blocks above `rootRound`, and where it stops. -/
def pathLoop (tree : BlockTree) (rootRound : Nat) :
    Nat → HashValue → Except Panic (Option (List Block × HashValue))
  | 0, _ => .error .endless
  | fuel + 1, curBlockId =>
    match tree.getBlock curBlockId with
    | none => .ok none
    | some block =>
      if block.round ≤ rootRound then .ok (some ([], curBlockId))
      else do
        let rest ← pathLoop tree rootRound fuel block.parentId
        return rest.map fun walked => (block :: walked.1, walked.2)

def pathFromRootToBlock (blockId rootId : HashValue)
    (rootRound : Nat) : Except Panic (Option (List Block)) := do
  let walked ← tree.pathLoop rootRound tree.loopBound blockId
  return match walked with
    | none => none
    | some (blocks, curBlockId) =>
      if curBlockId ≠ rootId then none else some blocks.reverse

def pathFromOrderedRoot :
    Except Panic (Option (List Block)) := do
  let orderedRoot ← tree.orderedRoot
  tree.pathFromRootToBlock blockId tree.orderedRootId orderedRoot.round

/-- The arguments of `commit_callback` besides storage and window size. -/
structure Commit where
  blockId : HashValue
  finalityProof : WrappedLedgerInfo
  commitDecision : LedgerInfoWithSignatures

/-- A failure to prune the storage is only logged. -/
def commitCallback (windowSize : Option Nat) (tree : BlockTree)
    (commit : Commit) : Except Panic BlockTree := do
  let _ ← tree.commitRoot
  let commitProof ← (commit.finalityProof.createMergedWithExecutedState
    commit.commitDecision).mapError fun _ => Panic.inconsistentCommitProof
  let windowRootId ← tree.findWindowRoot hash commit.blockId windowSize
  let idsToRemove ← tree.findBlocksToPrune windowRootId
  let pruned := tree.processPrunedBlocks idsToRemove
  let moved ← pruned.updateWindowRoot windowRootId
  moved.updateHighestCommitCert commitProof

end Functions

end BlockTree

structure BlockStore where
  inner : BlockTree
  windowSize : Option Nat
  /-- The block lists handed to `finalize_order`, in order. -/
  finalized : List (List Block)

structure RootInfo where
  commitRootBlock : Block
  windowRootBlock : Option Block
  quorumCert : QuorumCert
  orderedCert : WrappedLedgerInfo
  commitCert : WrappedLedgerInfo

/-- The block with which the tree is built. -/
def RootInfo.windowRoot (root : RootInfo) : Block := root.windowRootBlock.getD root.commitRootBlock

namespace BlockStore

variable (hash : ConsensusHash)

variable (store : BlockStore)

/-- `pipelineBuilt` and `saved` are the outcomes of the builder and of `save_tree`. -/
def insertBlockInner (block : Block)
    (pipelineBuilt saved : Except String Unit) : Except Panic (Except String Block × BlockStore) :=
  match pipelineBuilt with
  | .error failure => return (.error failure, store)
  | .ok () =>
    match saved with
    | .error _ =>
      return (.error "Insert block failed when saving block", store)
    | .ok () => do
        let (result, tree) ← store.inner.insertBlock hash block
        return (result, { store with inner := tree })

def insertCommittedBlock (block : Block)
    (pipelineBuilt saved : Except String Unit) : Except Panic (Except String Block × BlockStore) :=
  if (store.inner.getBlock (block.id hash)).isSome then
    return (.error "Recovered block already exists", store)
  else store.insertBlockInner hash block pipelineBuilt saved

def insertBlock (block : Block) (pipelineBuilt saved : Except String Unit) :
    Except Panic (Except String Block × BlockStore) :=
  match store.inner.getBlock (block.id hash) with
  | some existingBlock => return (.ok existingBlock, store)
  | none => do
      let orderedRoot ← store.inner.orderedRoot
      if block.round ≤ orderedRoot.round then
        return (.error "Block with old round", store)
      else
        let window ← store.inner.getOrderedBlockWindow hash block store.windowSize
        match window with
        | .error failure => return (.error failure, store)
        | .ok _ => store.insertBlockInner hash block pipelineBuilt saved

/-- Without the execution result, which the comparison does not read. -/
def blockInfo (block : Block) : BlockInfo := block.genBlockInfo hash 0 0 none

def insertSingleQuorumCert (qc : QuorumCert) (saved : Except String Unit) :
    Except Panic (Except String Unit × BlockStore) :=
  match store.inner.getBlock qc.certifiedBlock.id with
  | none => return (.error
      "Insert QC without having the block in store first", store)
  | some pipelinedBlock =>
    if (blockInfo hash pipelinedBlock).matchOrderedOnly qc.certifiedBlock = false then
      return (.error "QC for block has different info than local", store)
    else
      match saved with
      | .error _ =>
        return (.error "Insert block failed when saving quorum", store)
      | .ok () => do
          let (result, tree) ← store.inner.insertQuorumCert hash qc
          return (result, { store with inner := tree })

def sendForExecution (finalityProof : WrappedLedgerInfo) :
    Except Panic (Except String Unit × BlockStore) :=
  let blockIdToCommit := finalityProof.commitInfo.id
  match store.inner.getBlock blockIdToCommit with
  | none => return (.error "Committed block id not found", store)
  | some blockToCommit => do
      let orderedRoot ← store.inner.orderedRoot
      if blockToCommit.round ≤ orderedRoot.round then
        return (.error "Committed block round lower than root", store)
      else
        let path ← store.inner.pathFromOrderedRoot blockIdToCommit
        let blocksToCommit := path.getD []
        ensure (blocksToCommit ≠ []) Panic.noBlocksToCommit
        let tree ← store.inner.updateOrderedRoot (blockToCommit.id hash)
        return (.ok (), { store with
          inner := tree.insertOrderedCert finalityProof
          finalized := store.finalized ++ [blocksToCommit] })

def commitCallback (commit : BlockTree.Commit) : Except Panic BlockStore := do
  let tree ← store.inner.commitCallback hash store.windowSize commit
  return { store with inner := tree }

/-- A failure to insert a recovered block or certificate panics. -/
def unwrapBuilt {α : Type} (outcome : Except Panic (Except String α × BlockStore)) :
    Except Panic BlockStore := do
  let (result, store) ← outcome
  ensure (result.isOk) Panic.failedToBuild
  return store

def buildBlocks (rootRound : Nat) (store : BlockStore) : List Block → Except Panic BlockStore
  | [] => .ok store
  | block :: rest => do
      let added ← unwrapBuilt <| if block.round ≤ rootRound then
          store.insertCommittedBlock hash block (.ok ()) (.ok ())
        else store.insertBlock hash block (.ok ()) (.ok ())
      added.buildBlocks rootRound rest

def buildQuorumCerts (store : BlockStore) : List QuorumCert → Except Panic BlockStore
  | [] => .ok store
  | qc :: rest => do
      let added ← unwrapBuilt (store.insertSingleQuorumCert hash qc (.ok ()))
      added.buildQuorumCerts rest

/-- `BlockStore::build`, without the checks of the root against the ledger. -/
def build (root : RootInfo) (blocks : List Block) (quorumCerts : List QuorumCert)
    (windowSize : Option Nat) (maxPrunedBlocksInMem : Nat) : Except Panic BlockStore := do
  let tree ← BlockTree.new hash (root.commitRootBlock.id hash)
    root.windowRoot root.quorumCert root.orderedCert root.commitCert
    maxPrunedBlocksInMem
  let withBlocks ← buildBlocks hash root.commitRootBlock.round ⟨tree, windowSize, []⟩ blocks
  withBlocks.buildQuorumCerts hash quorumCerts

inductive Call where
  | insertBlock (block : Block) (pipelineBuilt saved : Except String Unit)
  | insertSingleQuorumCert (qc : QuorumCert) (saved : Except String Unit)
  | sendForExecution (finalityProof : WrappedLedgerInfo)
  | commitCallback (commit : BlockTree.Commit)

def perform : Call → Except Panic BlockStore
  | .insertBlock block pipelineBuilt saved =>
    (store.insertBlock hash block pipelineBuilt saved).map Prod.snd
  | .insertSingleQuorumCert qc saved =>
    (store.insertSingleQuorumCert hash qc saved).map Prod.snd
  | .sendForExecution finalityProof =>
    (store.sendForExecution hash finalityProof).map Prod.snd
  | .commitCallback commit => store.commitCallback hash commit

def run (calls : List Call) : Except Panic BlockStore :=
  runAll (perform hash) store calls

def Call.blocks : Call → List Block
  | .insertBlock block _ _ => [block]
  | _ => []

end BlockStore

end LumioNode
