import LumioNode.BlockStorage.Commit

/-! # No block leaks from the tree

Every block is below the window root or queued, as long as none is inserted under a
queued parent. -/

namespace LumioNode

open Library Relation List

namespace BlockTree

inductive Call where
  | insertBlock (block : Block)
  | insertQuorumCert (qc : QuorumCert)
  | updateOrderedRoot (rootId : HashValue)
  | commitCallback (commit : Commit)

section Runs

variable (hash : ConsensusHash) (windowSize : Option Nat)

def perform (tree : BlockTree) : Call → Except Panic BlockTree
  | .insertBlock block => (tree.insertBlock hash block).map Prod.snd
  | .insertQuorumCert qc => (tree.insertQuorumCert hash qc).map Prod.snd
  | .updateOrderedRoot rootId => tree.updateOrderedRoot rootId
  | .commitCallback commit => tree.commitCallback hash windowSize commit

def run (tree : BlockTree) (calls : List Call) : Except Panic BlockTree :=
  runAll (perform hash windowSize) tree calls

def Call.blocks : Call → List Block
  | .insertBlock block => [block]
  | _ => []

/-- The callers promise that blocks come after their parents and commits are for later
descendants of the commit root, with their proofs. -/
def Promised (tree : BlockTree) : Call → Prop
  | .insertBlock block => block.certifiedRound < block.round ∧
      (block.id hash = tree.commitRootId → block.round = tree.highestCommitCert.commitInfo.round)
  | .commitCallback commit =>
    tree.Below tree.commitRootId commit.blockId ∧
      ∀ committed, tree.getBlock commit.blockId = some committed →
        tree.highestCommitCert.commitInfo.round < committed.round ∧ commit.Proves committed.round
  | _ => True

/-- A new block is not put under a parent that is queued for removal. -/
def ParentKept (tree : BlockTree) : Call → Prop
  | .insertBlock block => tree.getBlock (block.id hash) = none →
      block.parentId ∉ tree.prunedBlockIds
  | _ => True

/-- What is promised of the window root with which the tree is built. -/
structure WindowRootPromise (commitRootId : HashValue) (windowRoot : Block)
    (rootCommitCert : WrappedLedgerInfo) : Prop where
  increases : windowRoot.Increases
  certified : windowRoot.id hash = commitRootId → windowRoot.round = rootCommitCert.commitInfo.round
  starts : ∀ size, windowSize = some size → windowRoot.isGenesisBlock = true ∨
      windowRoot.certifiedRound < rootCommitCert.commitInfo.round + 1 - size

structure NoLeak (known : List Block) (tree : BlockTree) : Prop where
  linked : Linked hash known tree
  liveOrPruned : ∀ id, tree.blockExists id →
    tree.Below tree.windowRootId id ∨ id ∈ tree.prunedBlockIds
  commitBelow : tree.blockExists tree.commitRootId → tree.Below tree.windowRootId tree.commitRootId
  certified : ∀ block, tree.getBlock tree.commitRootId = some block →
    block.round = tree.highestCommitCert.commitInfo.round
  windowed : Windowed windowSize tree.highestCommitCert.commitInfo.round tree

end Runs

section Invariant

variable {hash : ConsensusHash} {windowSize : Option Nat} {known : List Block} {tree : BlockTree}

theorem noLeak_new {commitRootId : HashValue} {windowRoot : Block} {rootQuorumCert : QuorumCert}
    {rootOrderedCert rootCommitCert : WrappedLedgerInfo} {maxPrunedBlocksInMem : Nat}
    (isNew : BlockTree.new hash commitRootId windowRoot rootQuorumCert rootOrderedCert
      rootCommitCert maxPrunedBlocksInMem = .ok tree) (isKnown : windowRoot ∈ known)
    (promise : WindowRootPromise hash windowSize commitRootId windowRoot rootCommitCert) :
    NoLeak hash windowSize known tree := by
  obtain ⟨_, rootEq, commitEq, _, certEq, _⟩ := new_eq_ok isNew
  refine ⟨new_linked isNew isKnown promise.increases, ?_, ?_, ?_, ?_⟩
  · intro id isThere
    obtain ⟨linkable, found⟩ := blockExists_iff.mp isThere
    obtain ⟨rfl, _⟩ := (new_found isNew).mp found
    rw [rootEq]
    exact .inl .refl
  · intro isThere
    obtain ⟨linkable, found⟩ := blockExists_iff.mp isThere
    obtain ⟨isRoot, _⟩ := (new_found isNew).mp found
    rw [rootEq, isRoot]
  · intro block isCommitRoot
    obtain ⟨linkable, found, rfl⟩ := getBlock_eq_some.mp isCommitRoot
    obtain ⟨isRoot, rfl⟩ := (new_found isNew).mp found
    rw [certEq]
    exact promise.certified (isRoot ▸ commitEq)
  · intro size isSome linkable found
    obtain ⟨_, rfl⟩ := (new_found isNew).mp found
    rw [certEq]
    exact promise.starts size isSome

theorem NoLeak.of_same (noLeak : NoLeak hash windowSize known tree)
    {other : BlockTree} (sameBlocks : other.idToBlock = tree.idToBlock)
    (samePruned : other.prunedBlockIds = tree.prunedBlockIds)
    (sameRoot : other.windowRootId = tree.windowRootId)
    (sameCommit : other.commitRootId = tree.commitRootId)
    (sameCert : other.highestCommitCert = tree.highestCommitCert) :
    NoLeak hash windowSize known other := by
  have linked := noLeak.linked.of_same sameBlocks samePruned sameRoot
  cases tree
  cases other
  cases sameBlocks
  cases samePruned
  cases sameRoot
  cases sameCommit
  cases sameCert
  exact { noLeak with linked }

structure KeepsBlocks (tree after : BlockTree) : Prop where
  blocks : after.idToBlock = tree.idToBlock
  pruned : after.prunedBlockIds = tree.prunedBlockIds
  windowRoot : after.windowRootId = tree.windowRootId
  commitRoot : after.commitRootId = tree.commitRootId
  orderedRoot : after.orderedRootId = tree.orderedRootId
  commitCert : after.highestCommitCert = tree.highestCommitCert

theorem insertOrderedCert_keepsBlocks (orderedCert : WrappedLedgerInfo) :
    tree.KeepsBlocks (tree.insertOrderedCert orderedCert) := by
  unfold insertOrderedCert
  split <;> exact ⟨rfl, rfl, rfl, rfl, rfl, rfl⟩

theorem insertQuorumCert_keepsBlocks {qc : QuorumCert} {result : Except String Unit}
    {after : BlockTree} (inserted : tree.insertQuorumCert hash qc = .ok (result, after)) :
    tree.KeepsBlocks after := by
  cases found : tree.getBlock qc.certifiedBlock.id with
  | none =>
    simp only [insertQuorumCert, found] at inserted
    cases inserted
    exact ⟨rfl, rfl, rfl, rfl, rfl, rfl⟩
  | some block =>
    simp only [insertQuorumCert, found, bind_eq_ok, pure_eq_ok] at inserted
    obtain ⟨highest, _, isAfter⟩ := inserted
    injection isAfter with _ isAfter
    subst isAfter
    unfold insertOrderedCert
    by_cases higher : highest.round < block.round
    · rw [if_pos higher]
      split <;> exact ⟨rfl, rfl, rfl, rfl, rfl, rfl⟩
    · rw [if_neg higher]
      split <;> exact ⟨rfl, rfl, rfl, rfl, rfl, rfl⟩

theorem NoLeak.inserts (noLeak : NoLeak hash windowSize known tree) {block : Block}
    (isKnown : block ∈ known) (promised : tree.Promised hash (.insertBlock block))
    (parentKept : tree.ParentKept hash (.insertBlock block)) {added : BlockTree}
    (inserts : Inserts hash tree block added) : NoLeak hash windowSize known added := by
  have linked := noLeak.linked.inserts isKnown promised.1 inserts
  cases inserts with
  | unchanged => exact noLeak
  | @added parentBlock fresh parentFound =>
    have notQueued : block.parentId ∉ tree.prunedBlockIds :=
      parentKept (Option.map_eq_none_iff.mpr fresh)
    have parentBelow : tree.Below tree.windowRootId block.parentId := by
      rcases noLeak.liveOrPruned block.parentId
          (blockExists_iff.mpr ⟨parentBlock, parentFound⟩) with
        below | isPruned
      · exact below
      · exact absurd isPruned notQueued
    have newBelow := (below_added fresh parentFound parentBelow).tail
      ((added_link fresh parentFound).mpr (.inr ⟨rfl, rfl⟩))
    refine ⟨linked, ?_, ?_, ?_, ?_⟩
    · intro id isThere
      obtain ⟨linkable, found⟩ := blockExists_iff.mp isThere
      rcases added_found parentFound found with
        ⟨rfl, _⟩ | ⟨before, beforeFound, _⟩
      · exact .inl newBelow
      · rcases noLeak.liveOrPruned id (blockExists_iff.mpr ⟨before, beforeFound⟩) with
          below | isPruned
        · exact .inl (below_added fresh parentFound below)
        · exact .inr isPruned
    · intro isThere
      obtain ⟨linkable, found⟩ := blockExists_iff.mp isThere
      rcases added_found parentFound found with
        ⟨isNew, _⟩ | ⟨before, beforeFound, _⟩
      · rw [isNew]
        exact newBelow
      · exact below_added fresh parentFound (noLeak.commitBelow
          (blockExists_iff.mpr ⟨before, beforeFound⟩))
    · intro commitRoot isCommitRoot
      obtain ⟨linkable, found, rfl⟩ := getBlock_eq_some.mp isCommitRoot
      rcases added_found parentFound found with
        ⟨isNew, rfl⟩ | ⟨before, beforeFound, same, _⟩
      · exact promised.2 isNew.symm
      · rw [same]
        exact noLeak.certified _ (getBlock_eq_some.mpr ⟨before, beforeFound, rfl⟩)
    · intro size isSome linkable found
      rcases added_found parentFound found with
        ⟨isNew, _⟩ | ⟨before, beforeFound, same, _⟩
      · exact absurd isNew (ne_of_fresh fresh noLeak.linked.windowRoot)
      · rw [same]
        exact noLeak.windowed size isSome before beforeFound

section

variable {after : BlockTree} (noLeak : NoLeak hash windowSize known tree)
  (authentic : Authentic hash known) (positive : windowSize ≠ some 0)

include noLeak authentic positive

theorem NoLeak.commits {commit : Commit} (promised : tree.Promised hash (.commitCallback commit))
    (isAfter : tree.commitCallback hash windowSize commit = .ok after) :
    NoLeak hash windowSize known after := by
  obtain ⟨below, proofs⟩ := promised
  have commitExists : tree.blockExists tree.commitRootId := by
    simp only [commitCallback, bind_eq_ok, BlockTree.commitRoot, expect_eq_ok] at isAfter
    obtain ⟨commitRoot, isCommitRoot, _⟩ := isAfter
    obtain ⟨linkable, found, _⟩ := getBlock_eq_some.mp isCommitRoot
    exact blockExists_iff.mpr ⟨linkable, found⟩
  obtain ⟨rootBlock, rootFound⟩ := blockExists_iff.mp commitExists
  have isCommitRoot : tree.getBlock tree.commitRootId = some rootBlock.executedBlock :=
    getBlock_eq_some.mpr ⟨rootBlock, rootFound, rfl⟩
  have sameRound := noLeak.certified _ isCommitRoot
  have rooted : Rooted windowSize tree rootBlock.executedBlock :=
    ⟨isCommitRoot, noLeak.commitBelow commitExists, sameRound.symm, sameRound ▸ noLeak.windowed⟩
  obtain ⟨linkable, found⟩ := blockExists_iff.mp (noLeak.linked.exists_below commitExists below)
  obtain ⟨later, proves⟩ := proofs _ (getBlock_eq_some.mpr ⟨linkable, found, rfl⟩)
  rcases noLeak.linked.commitCallback_ok authentic positive rooted found
      below (sameRound ▸ later) proves with
    overflows | ⟨result, isOk, commits, linkedAfter, rootedAfter⟩
  · rw [overflows] at isAfter
    cases isAfter
  · rw [isOk] at isAfter
    cases isAfter
    obtain ⟨next, ids, removed, fromRoot, _, cuts, moved⟩ := commits.cutOff
    refine ⟨linkedAfter, ?_, fun _ => rootedAfter.below, ?_, ?_⟩
    · intro id isThere
      obtain ⟨wasThere, kept⟩ := moved.exists_iff.mp isThere
      have staysQueued : id ∈ tree.prunedBlockIds ++ ids → id ∈ after.prunedBlockIds := by
        intro isQueued
        exact (moved.mem_queue.mp isQueued).resolve_left kept
      rcases noLeak.liveOrPruned id wasThere with isBelow | isPruned
      · rcases cuts.complete id isBelow with isCut | belowNext
        · exact .inr (staysQueued (mem_append_right _ isCut))
        · rw [moved.windowRoot]
          exact .inl (moved.below_kept noLeak.linked cuts fromRoot .refl belowNext)
      · exact .inr (staysQueued (mem_append_left _ isPruned))
    · intro block isBlock
      rw [rootedAfter.isCommitRoot] at isBlock
      cases isBlock
      exact rootedAfter.certified.symm
    · rw [rootedAfter.certified]
      exact rootedAfter.windowed

theorem NoLeak.performs {call : Call} (isKnown : ∀ block ∈ call.blocks, block ∈ known)
    (promised : tree.Promised hash call) (parentKept : tree.ParentKept hash call)
    (performed : tree.perform hash windowSize call = .ok after) :
    NoLeak hash windowSize known after := by
  cases call with
  | insertBlock block =>
    obtain ⟨⟨result, added⟩, inserted, rfl⟩ := map_eq_ok.mp performed
    exact noLeak.inserts (isKnown block (mem_singleton_self _))
      promised parentKept (insertBlock_eq_ok inserted).1
  | insertQuorumCert =>
    obtain ⟨⟨result, added⟩, inserted, rfl⟩ := map_eq_ok.mp performed
    have keeps := insertQuorumCert_keepsBlocks inserted
    exact noLeak.of_same keeps.blocks keeps.pruned keeps.windowRoot
      keeps.commitRoot keeps.commitCert
  | updateOrderedRoot =>
    simp only [perform, updateOrderedRoot, bind_eq_ok, ensure_eq_ok, pure_eq_ok] at performed
    obtain ⟨_, _, rfl⟩ := performed
    exact noLeak.of_same rfl rfl rfl rfl rfl
  | commitCallback =>
    exact noLeak.commits authentic positive promised performed

end

/-- In every run in which no block is put under a queued parent, every block descends from the
window root or is queued for removal. -/
theorem every_block_live_or_queued {commitRootId : HashValue}
    {windowRoot : Block} {rootQuorumCert : QuorumCert}
    {rootOrderedCert rootCommitCert : WrappedLedgerInfo}
    {maxPrunedBlocksInMem : Nat} {start : BlockTree}
    (isNew : BlockTree.new hash commitRootId windowRoot rootQuorumCert
      rootOrderedCert rootCommitCert maxPrunedBlocksInMem = .ok start)
    (positive : windowSize ≠ some 0)
    (promise : WindowRootPromise hash windowSize commitRootId windowRoot rootCommitCert)
    (calls : List Call)
    (authentic : Authentic hash (windowRoot :: calls.flatMap Call.blocks))
    (meets : RunMeets (perform hash windowSize) (fun tree call =>
      tree.Promised hash call ∧ tree.ParentKept hash call) start calls)
    (reached : BlockTree)
    (ran : start.run hash windowSize calls = .ok reached) :
    ∀ id, reached.blockExists id → reached.Descends id reached.windowRootId ∨
        id ∈ reached.prunedBlockIds := by
  have noLeak : NoLeak hash windowSize (windowRoot :: calls.flatMap Call.blocks) reached := by
    refine meets.invariant_of_ok (noLeak_new isNew mem_cons_self promise) ?_ ran
    intro tree call isCall noLeak ⟨promised, parentKept⟩ after performed
    apply noLeak.performs authentic positive _ promised parentKept performed
    intro block isBlock
    exact mem_cons_of_mem _ (mem_flatMap.mpr ⟨call, isCall, isBlock⟩)
  intro id isThere
  exact (noLeak.liveOrPruned id isThere).imp_left noLeak.linked.descends_of_below

end Invariant

namespace LateChild

/-- The id of a block is its round plus one. -/
def hash : ConsensusHash where
  voteData _ := 0
  blockData
    | .whole data => Fin.ofNat _ (data.round + 1)
    | .optBlockDataForHash .. => 0
  waypoint _ := 0

def info (round : Nat) : BlockInfo := ⟨1, round, Fin.ofNat _ (round + 1), 0, 0, 0, none⟩

def signed (round : Nat) : LedgerInfoWithSignatures :=
  ⟨⟨info round, 0⟩, ⟨ValidatorBitVec.withNumBits 4, none⟩⟩

def wrapped (round : Nat) : WrappedLedgerInfo := ⟨⟨info round, info round⟩, signed round⟩

def certificate (certified : BlockInfo) : QuorumCert := ⟨⟨certified, certified⟩, signed 0⟩

def genesis : Block := ⟨⟨1, 0, 0, certificate ⟨1, 0, 0, 0, 0, 0, none⟩, .genesis⟩, none⟩

def block (round parentRound : Nat) : Block :=
  ⟨⟨1, round, 0, certificate (info parentRound), .nilBlock []⟩, none⟩

def start : BlockTree where
  idToBlock := SortedMap.empty.insert 1 (LinkableBlock.new genesis)
  orderedRootId := 1
  commitRootId := 1
  windowRootId := 1
  highestCertifiedBlockId := 1
  highestQuorumCert := certificate (info 0)
  highestOrderedCert := wrapped 0
  highestCommitCert := wrapped 0
  idToQuorumCert := SortedMap.empty.insert 1 (certificate (info 0))
  prunedBlockIds := []
  maxPrunedBlocksInMem := 10
  roundToIds := SortedMap.empty.insert 0 1

theorem isNew : BlockTree.new hash 1 genesis (certificate (info 0))
    (wrapped 0) (wrapped 0) 10 = .ok start :=
  rfl

theorem windowRootPromise : WindowRootPromise hash none 1 genesis (wrapped 0) where
  increases := .inl rfl
  certified := fun _ => rfl
  starts := nofun

def first : BlockTree := start.linkBlock hash (block 1 0) ⟨genesis, [2]⟩

def forked : BlockTree := first.linkBlock hash (block 2 0) ⟨genesis, [2, 3]⟩

def committed : BlockTree where
  idToBlock := forked.idToBlock
  orderedRootId := 1
  commitRootId := 2
  windowRootId := 2
  highestCertifiedBlockId := 1
  highestQuorumCert := certificate (info 0)
  highestOrderedCert := wrapped 0
  highestCommitCert := wrapped 1
  idToQuorumCert := start.idToQuorumCert
  prunedBlockIds := [1, 3]
  maxPrunedBlocksInMem := 10
  roundToIds := forked.roundToIds

/-- A block of round 3 under the queued block. -/
def late : BlockTree := committed.linkBlock hash (block 3 2) ⟨block 2 0, [4]⟩

def commit : Commit := ⟨2, wrapped 1, signed 1⟩

def calls : List Call := [.insertBlock (block 1 0), .insertBlock (block 2 0),
    .commitCallback commit, .insertBlock (block 3 2)]

theorem authentic : Authentic hash (genesis :: calls.flatMap Call.blocks) := by
  unfold Authentic
  decide

theorem firstInserted : start.perform hash none (.insertBlock (block 1 0)) = .ok first := rfl

theorem secondInserted : first.perform hash none (.insertBlock (block 2 0)) = .ok forked := rfl

theorem firstCommitted : forked.perform hash none (.commitCallback commit) = .ok committed := rfl

theorem lateInserted : committed.perform hash none (.insertBlock (block 3 2)) = .ok late := rfl

theorem ran : start.run hash none calls = .ok late := by
  simp [calls, run, runAll, firstInserted, secondInserted, firstCommitted, lateInserted, ok_bind]

theorem commitPromised : forked.Promised hash (.commitCallback commit) := by
  refine ⟨.single ⟨⟨genesis, [2, 3]⟩, rfl, by decide⟩, ?_⟩
  intro block found
  cases found
  exact ⟨by decide, rfl, rfl, rfl⟩

def inTime : BlockTree := committed.linkBlock hash (block 3 1) ⟨block 1 0, [4]⟩

def callsInTime : List Call := [.insertBlock (block 1 0), .insertBlock (block 2 0),
    .commitCallback commit, .insertBlock (block 3 1)]

theorem inTimeInserted : committed.perform hash none (.insertBlock (block 3 1)) = .ok inTime := rfl

theorem inTimeAuthentic : Authentic hash (genesis :: callsInTime.flatMap Call.blocks) := by
  unfold Authentic
  decide

theorem inTimeMeets : RunMeets (perform hash none) (fun tree call =>
    tree.Promised hash call ∧ tree.ParentKept hash call) start callsInTime := by
  refine .cons firstInserted ⟨?_, ?_⟩ (.cons secondInserted ⟨?_, ?_⟩
    (.cons firstCommitted ⟨commitPromised, trivial⟩ (.cons inTimeInserted ⟨?_, ?_⟩ trivial)))
  · exact ⟨by decide, fun isRoot => absurd isRoot (by decide)⟩
  · exact fun _ => by decide
  · exact ⟨by decide, fun isRoot => absurd isRoot (by decide)⟩
  · exact fun _ => by decide
  · exact ⟨by decide, fun isRoot => absurd isRoot (by decide)⟩
  · exact fun _ => by decide

end LateChild

open LateChild

theorem block_in_time_live_or_queued : inTime.blockExists 4 = true ∧
    (inTime.Descends 4 inTime.windowRootId ∨ 4 ∈ inTime.prunedBlockIds) :=
  ⟨rfl, every_block_live_or_queued isNew (by decide) windowRootPromise callsInTime
    inTimeAuthentic inTimeMeets inTime rfl 4
    rfl⟩

def NewerThanOrdered (tree : BlockTree) : Call → Prop
  | .insertBlock block => ∀ orderedRoot,
      tree.orderedRoot = .ok orderedRoot → orderedRoot.round < block.round
  | _ => True

theorem late_child_leaks : ¬ ∀ (hash : ConsensusHash) (windowSize : Option Nat)
      (commitRootId : HashValue) (windowRoot : Block)
      (rootQuorumCert : QuorumCert)
      (rootOrderedCert rootCommitCert : WrappedLedgerInfo)
      (maxPrunedBlocksInMem : Nat) (start : BlockTree)
      (calls : List Call) (reached : BlockTree),
    BlockTree.new hash commitRootId windowRoot rootQuorumCert
        rootOrderedCert rootCommitCert maxPrunedBlocksInMem = .ok start →
      windowSize ≠ some 0 →
      WindowRootPromise hash windowSize commitRootId windowRoot rootCommitCert →
      Authentic hash (windowRoot :: calls.flatMap Call.blocks) →
      RunMeets (perform hash windowSize) (fun tree call =>
        tree.Promised hash call ∧ tree.NewerThanOrdered call)
        start calls →
      start.run hash windowSize calls = .ok reached →
      ∀ id, reached.blockExists id → reached.Descends id reached.windowRootId ∨
          id ∈ reached.prunedBlockIds := by
  intro claimed
  have meets : RunMeets (perform hash none) (fun tree call =>
      tree.Promised hash call ∧ tree.NewerThanOrdered call) start calls := by
    refine .cons firstInserted ⟨?_, ?_⟩ (.cons secondInserted ⟨?_, ?_⟩
      (.cons firstCommitted ⟨commitPromised, trivial⟩ (.cons lateInserted ⟨?_, ?_⟩ trivial)))
    · exact ⟨by decide, fun isRoot => absurd isRoot (by decide)⟩
    · intro orderedRoot isRoot
      cases isRoot
      decide
    · exact ⟨by decide, fun isRoot => absurd isRoot (by decide)⟩
    · intro orderedRoot isRoot
      cases isRoot
      decide
    · exact ⟨by decide, fun isRoot => absurd isRoot (by decide)⟩
    · intro orderedRoot isRoot
      cases isRoot
      decide
  have liveOrQueued := claimed hash none 1 genesis (certificate (info 0)) (wrapped 0)
    (wrapped 0) 10 start calls late
    isNew (by decide) windowRootPromise
    authentic meets ran 4 (by decide)
  rcases liveOrQueued with descends | isQueued
  · have closed : ∀ id : HashValue, late.Descends 4 id → id = 4 ∨ id = 3 ∨ id = 1 := by
      intro id reaches
      induction reaches with
      | refl => exact .inl rfl
      | tail _ isLink inductionHypothesis =>
        obtain ⟨block, found, isParent, parentExists⟩ := isLink
        rcases inductionHypothesis with rfl | rfl | rfl
        · cases found
          exact .inr (.inl isParent.symm)
        · cases found
          exact .inr (.inr isParent.symm)
        · cases found
          subst isParent
          exact absurd parentExists (by decide)
    exact absurd (closed _ descends) (by decide)
  · exact absurd isQueued (by decide)

end BlockTree

end LumioNode
