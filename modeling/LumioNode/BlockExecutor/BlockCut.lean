import LumioNode.BlockExecutor.SequentialExecution
import LumioNode.BlockExecutor.SequentialReadSummaries

/-! # Where a block is cut

The gas of a transaction counts once more for every earlier one in a window that its
reads conflict with.  Parallel and sequential execution cut where no value is resolved
through deltas and every other read finds its tag. -/

namespace LumioNode

open Library CapturedReads

inductive BlockGasLimitType where
  | noLimit
  | limit (gasLimit : Nat)
  | complexLimitV1 (effectiveBlockGasLimit : Nat)
      (executionGasEffectiveMultiplier ioGasEffectiveMultiplier : Nat)
      (conflictPenaltyWindow : Nat)
      (useGranularResourceGroupConflicts : Bool)
      (blockOutputLimit : Option Nat)
      (includeUserTxnSizeInBlockOutput : Bool)
deriving DecidableEq, Repr

namespace BlockGasLimitType

def blockGasLimit : BlockGasLimitType → Option Nat
  | noLimit => none
  | limit gasLimit => some gasLimit
  | complexLimitV1 gasLimit _ _ _ _ _ _ => some gasLimit

def executionGasEffectiveMultiplier : BlockGasLimitType → Nat
  | complexLimitV1 _ multiplier _ _ _ _ _ => multiplier
  | _ => 1

def ioGasEffectiveMultiplier : BlockGasLimitType → Nat
  | complexLimitV1 _ _ multiplier _ _ _ _ => multiplier
  | _ => 1

def blockOutputLimit : BlockGasLimitType → Option Nat
  | complexLimitV1 _ _ _ _ _ outputLimit _ => outputLimit
  | _ => none

/-- A window of one transaction penalizes nothing. -/
def conflictPenaltyWindow : BlockGasLimitType → Option Nat
  | complexLimitV1 _ _ _ window _ _ _ => if 1 < window then some window else none
  | _ => none

def useGranularResourceGroupConflicts : BlockGasLimitType → Bool
  | complexLimitV1 _ _ _ _ granular _ _ => granular
  | _ => false

def includeUserTxnSizeInBlockOutput : BlockGasLimitType → Bool
  | complexLimitV1 _ _ _ _ _ _ includeSize => includeSize
  | _ => false

end BlockGasLimitType

structure FeeStatement where
  totalChargeGasUnits : Nat := 0
  executionGasUnits : Nat := 0
  ioGasUnits : Nat := 0
  storageFeeOctas : Nat := 0
  storageFeeRefundOctas : Nat := 0
deriving DecidableEq, Repr

def FeeStatement.addFeeStatement (fees other : FeeStatement) : FeeStatement where
  totalChargeGasUnits := fees.totalChargeGasUnits + other.totalChargeGasUnits
  executionGasUnits := fees.executionGasUnits + other.executionGasUnits
  ioGasUnits := fees.ioGasUnits + other.ioGasUnits
  storageFeeOctas := fees.storageFeeOctas + other.storageFeeOctas
  storageFeeRefundOctas := fees.storageFeeRefundOctas + other.storageFeeRefundOctas

structure ReadWriteSummary (Key Tag Id : Type) where
  reads : Finset (InputOutputKey Key Tag Id)
  writes : Finset (InputOutputKey Key Tag Id)

namespace ReadWriteSummary

variable {Key Tag Id : Type} [DecidableEq Key] [DecidableEq Tag] [DecidableEq Id]

def conflictsWithPrevious (summary previous : ReadWriteSummary Key Tag Id) : Bool :=
  ¬Disjoint summary.reads previous.writes

/-- A member of a group stands for the group. -/
def collapseKey : InputOutputKey Key Tag Id → InputOutputKey Key Tag Id
  | .resource key => .resource key
  | .group key _ => .resource key
  | .delayedField id => .delayedField id

def collapseResourceGroupConflicts (summary : ReadWriteSummary Key Tag Id) :
    ReadWriteSummary Key Tag Id :=
  ⟨summary.reads.image collapseKey, summary.writes.image collapseKey⟩

end ReadWriteSummary

structure BlockGasLimitProcessor (Key Tag Id : Type) where
  blockGasLimitType : BlockGasLimitType
  blockGasLimitOverride : Option Nat
  accumulatedRawBlockGas : Nat := 0
  accumulatedEffectiveBlockGas : Nat := 0
  accumulatedApproxOutputSize : Nat := 0
  accumulatedFeeStatement : FeeStatement := {}
  txnFeeStatements : List FeeStatement := []
  txnReadWriteSummaries : List (ReadWriteSummary Key Tag Id) := []

namespace BlockGasLimitProcessor

variable {Key Tag Id : Type} [DecidableEq Key] [DecidableEq Tag] [DecidableEq Id]

/-- One more than the conflicts with the transactions before it in the window. -/
def computeConflictMultiplier (summaries : List (ReadWriteSummary Key Tag Id))
    (conflictOverlapLength : Nat) : Except Fault Nat := do
  let start := summaries.length - conflictOverlapLength
  let last ← checkedSub summaries.length 1
  let current ← expect .panic summaries[last]?
  let conflictCount := ((summaries.take last).drop start).countP current.conflictsWithPrevious
  ensure (conflictCount + 1 ≤ conflictOverlapLength) .panic
  return conflictCount + 1

variable (processor : BlockGasLimitProcessor Key Tag Id)

/-- The summaries with the one of another transaction, and its multiplier. -/
def pushSummary (summary : Option (ReadWriteSummary Key Tag Id)) :
    Except Fault (List (ReadWriteSummary Key Tag Id) × Nat) :=
  match processor.blockGasLimitType.conflictPenaltyWindow with
  | some conflictOverlapLength => do
      let summary ← expect .panic summary
      let kept := if processor.blockGasLimitType.useGranularResourceGroupConflicts then
          summary
        else
          summary.collapseResourceGroupConflicts
      let summaries := processor.txnReadWriteSummaries ++ [kept]
      let multiplier ← computeConflictMultiplier summaries conflictOverlapLength
      return (summaries, multiplier)
  | none => do
      ensure summary.isNone .panic
      return (processor.txnReadWriteSummaries, 1)

/-- The output size of another transaction as far as it is limited. -/
def addedOutputSize (approxOutputSize : Option Nat) : Except Fault Nat :=
  if processor.blockGasLimitType.blockOutputLimit.isSome then
    expect .panic approxOutputSize
  else do
    ensure approxOutputSize.isNone .panic
    return 0

def accumulateFeeStatement (feeStatement : FeeStatement)
    (summary : Option (ReadWriteSummary Key Tag Id)) (approxOutputSize : Option Nat) :
    Except Fault (BlockGasLimitProcessor Key Tag Id) := do
  let (summaries, conflictMultiplier) ← processor.pushSummary summary
  let limitType := processor.blockGasLimitType
  let rawGasUsed := feeStatement.executionGasUnits * limitType.executionGasEffectiveMultiplier +
      feeStatement.ioGasUnits * limitType.ioGasEffectiveMultiplier
  let outputSize ← processor.addedOutputSize approxOutputSize
  return { processor with
    accumulatedFeeStatement := processor.accumulatedFeeStatement.addFeeStatement feeStatement
    txnFeeStatements := processor.txnFeeStatements ++ [feeStatement]
    txnReadWriteSummaries := summaries
    accumulatedRawBlockGas := processor.accumulatedRawBlockGas + rawGasUsed
    accumulatedEffectiveBlockGas :=
      processor.accumulatedEffectiveBlockGas + conflictMultiplier * rawGasUsed
    accumulatedApproxOutputSize := processor.accumulatedApproxOutputSize + outputSize }

def blockGasLimit : Option Nat :=
  processor.blockGasLimitOverride.or processor.blockGasLimitType.blockGasLimit

def shouldEndBlock : Bool := processor.blockGasLimit.any
      (· ≤ processor.accumulatedEffectiveBlockGas) ||
    processor.blockGasLimitType.blockOutputLimit.any (· ≤ processor.accumulatedApproxOutputSize)

end BlockGasLimitProcessor

/-- A transaction with its reads, the answers of the multi-version map, and its output. -/
structure BlockTxn (Key Tag Metadata Layout Id Module : Type) where
  reads : List (ReadRequest Key Tag Layout Id Module × MVAnswers Metadata Layout)
  output : TxnOutput Key Tag Metadata Layout Id
  feeStatement : FeeStatement
  outputApproxSize : Nat
  userTxnBytesLen : Nat
  /-- The status is `SkipRest`. -/
  skipsRest : Bool

/-- What the two modes have in common. -/
structure BlockEnv (Key Tag Metadata Layout Id Module : Type) where
  view : ViewEnv Key Tag Metadata Layout Id
  isV2 : Bool
  keyOfModule : Module → Key
  numTxns : Nat

namespace BlockTxn

variable {Key Tag Metadata Layout Id Module : Type}

def requests (txn : BlockTxn Key Tag Metadata Layout Id Module) :
    List (ReadRequest Key Tag Layout Id Module) :=
  txn.reads.map Prod.fst

def approxOutputSize (txn : BlockTxn Key Tag Metadata Layout Id Module)
    (limitType : BlockGasLimitType) : Option Nat :=
  limitType.blockOutputLimit.map fun _ => txn.outputApproxSize +
    if limitType.includeUserTxnSizeInBlockOutput then txn.userTxnBytesLen
    else 0

variable [DecidableEq Key] [DecidableEq Tag] [DecidableEq Id]

def getWriteSummary (txn : BlockTxn Key Tag Metadata Layout Id Module) :
    Finset (InputOutputKey Key Tag Id) :=
  let resources : List (InputOutputKey Key Tag Id) :=
    txn.output.resourceWriteSet.map fun write => .resource write.1
  let groupMembers : List (InputOutputKey Key Tag Id) :=
    txn.output.resourceGroupWriteSet.entries.flatMap fun write =>
      write.2.2.2.entries.map fun op => .group write.1 op.1
  let delayedFields : List (InputOutputKey Key Tag Id) :=
    txn.output.delayedFieldChangeSet.entries.map fun change =>
      .delayedField change.1
  (resources ++ groupMembers ++ delayedFields).toFinset

def accumulate (txn : BlockTxn Key Tag Metadata Layout Id Module)
    (readSummary : Finset (InputOutputKey Key Tag Id))
    (processor : BlockGasLimitProcessor Key Tag Id) :
    Except Fault (BlockGasLimitProcessor Key Tag Id) :=
  let limitType := processor.blockGasLimitType
  processor.accumulateFeeStatement txn.feeStatement (limitType.conflictPenaltyWindow.map fun _ =>
      ⟨readSummary, txn.getWriteSummary⟩)
    (txn.approxOutputSize limitType)

end BlockTxn

namespace BlockEnv

variable {Key Tag Metadata Layout Id Module : Type} [DecidableEq Key] [DecidableEq Tag]
  [DecidableEq Id] [DecidableEq Metadata] [Inhabited Metadata]

section Modes

variable (env : BlockEnv Key Tag Metadata Layout Id Module)

/-- The parallel commit of a transaction: whether it is the last. -/
def commit (txnIdx : Nat) (captured : CapturedReads Key Tag Metadata Layout Id Module)
    (processor : BlockGasLimitProcessor Key Tag Id)
    (txn : BlockTxn Key Tag Metadata Layout Id Module) :
    Except Fault (BlockGasLimitProcessor Key Tag Id × Bool) := do
  let processor ← txn.accumulate (captured.getReadSummary env.keyOfModule) processor
  let mustEnd := decide (txnIdx + 1 < env.numTxns) && processor.shouldEndBlock && !txn.skipsRest
  let skipsRest := txn.skipsRest || mustEnd
  return (processor, decide (txnIdx + 1 = env.numTxns) || skipsRest)

/-- Commits in order, up to the number of transactions committed. -/
def parallelExecution (txnIdx : Nat) (processor : BlockGasLimitProcessor Key Tag Id) :
    List (BlockTxn Key Tag Metadata Layout Id Module) →
      Except Fault (BlockGasLimitProcessor Key Tag Id × Nat)
  | [] => .ok (processor, txnIdx)
  | txn :: rest => do
      let captured ← parallelReads env.view env.isV2 txn.reads
      let (processor, isLast) ← env.commit txnIdx captured processor txn
      if isLast then return (processor, txnIdx + 1)
      else parallelExecution (txnIdx + 1) processor rest

structure SequentialMaps (Key Tag Metadata Layout Id : Type) where
  map : UnsyncMap Key Tag Metadata Layout Id
  counter : Nat

def startOf (maps : SequentialMaps Key Tag Metadata Layout Id) :
    SequentialState Key Tag Metadata Layout Id Module where
  map := maps.map
  counter := maps.counter

def executeTxn (maps : SequentialMaps Key Tag Metadata Layout Id)
    (txn : BlockTxn Key Tag Metadata Layout Id Module) :
    Except Fault (UnsyncReadSet Key Tag Id Module × SequentialMaps Key Tag Metadata Layout Id) := do
  let state ← (startOf maps).reads env.view txn.requests
  let map ← applyOutputSequential state.map (.ok ()) txn.output
  return (state.readSet, ⟨map, state.counter⟩)

/-- The loop of sequential execution without the block epilogue. -/
def sequentialExecution (idx : Nat) (processor : BlockGasLimitProcessor Key Tag Id)
    (maps : SequentialMaps Key Tag Metadata Layout Id) :
    List (BlockTxn Key Tag Metadata Layout Id Module) →
      Except Fault (BlockGasLimitProcessor Key Tag Id × Nat)
  | [] => .ok (processor, idx)
  | txn :: rest => do
      let (readSet, maps) ← env.executeTxn maps txn
      let processor ← txn.accumulate (readSet.getReadSummary env.keyOfModule) processor
      if txn.skipsRest || processor.shouldEndBlock || decide (idx + 1 = env.numTxns) then
        return (processor, idx + 1)
      else sequentialExecution (idx + 1) processor maps rest

/-- Every read other than of a value finds its tag where sequential execution comes to it. -/
def TagsFound (maps : SequentialMaps Key Tag Metadata Layout Id) :
    List (BlockTxn Key Tag Metadata Layout Id Module) → Prop
  | [] => True
  | txn :: rest =>
    SequentialState.FindsTags env.view (startOf maps :
      SequentialState Key Tag Metadata Layout Id Module) txn.requests ∧
    ∀ readSet after, env.executeTxn maps txn = .ok (readSet, after) → TagsFound after rest

end Modes

variable {env : BlockEnv Key Tag Metadata Layout Id Module}

/-- The two read sets of a transaction name the same keys. -/
theorem readSummary_eq
    {reads : List (ReadRequest Key Tag Layout Id Module × MVAnswers Metadata Layout)}
    {captured : CapturedReads Key Tag Metadata Layout Id Module}
    {maps : SequentialMaps Key Tag Metadata Layout Id}
    {state : SequentialState Key Tag Metadata Layout Id Module}
    (captures : parallelReads env.view env.isV2 reads = .ok captured)
    (records : (startOf maps).reads env.view (reads.map Prod.fst) = .ok state)
    (unresolved : ∀ read ∈ reads, read.1.Unresolved read.2)
    (finds : SequentialState.FindsTags env.view (startOf maps : SequentialState Key Tag Metadata
      Layout Id Module) (reads.map Prod.fst)) :
    captured.getReadSummary env.keyOfModule = state.readSet.getReadSummary env.keyOfModule := by
  have noneResolved : ({} : CapturedReads Key Tag Metadata Layout Id Module).NoneResolved := nofun
  obtain ⟨counts, modules⟩ := parallelReads_counts noneResolved captures unresolved
  obtain ⟨counts', modules'⟩ := SequentialState.reads_counts records finds
  ext key
  rw [mem_getReadSummary, UnsyncReadSet.mem_getReadSummary]
  have sameKeys : captured.Counts key ↔ state.readSet.Counts key := by
    rw [counts, counts']
    cases key <;> simp [CapturedReads.Counts, UnsyncReadSet.Counts, startOf,
      CapturedReads.innerRead, CapturedReads.groupRead]
  have sameModules (module : Module) :
      module ∈ captured.moduleReads ↔ module ∈ state.readSet.moduleReads := by
    rw [modules, modules']
    simp [startOf]
  rw [sameKeys]
  simp only [sameModules]

/-- Both modes end at the last transaction, where the rest is skipped, and at a limit. -/
theorem isLast_eq {idx numTxns : Nat} (skipsRest shouldEnd : Bool) (atMost : idx + 1 ≤ numTxns) :
    (decide (idx + 1 = numTxns) ||
      (skipsRest || (decide (idx + 1 < numTxns) && shouldEnd && !skipsRest))) =
      (skipsRest || shouldEnd || decide (idx + 1 = numTxns)) := by
  rcases Nat.lt_or_eq_of_le atMost with isLess | isEqual
  · cases skipsRest <;> simp [isLess, Nat.ne_of_lt isLess]
  · cases skipsRest <;> simp [isEqual]

/-- Both modes cut a block at the same transaction, with the same limits. -/
theorem cut_eq_of_tagsFound {block : List (BlockTxn Key Tag Metadata Layout Id Module)} {idx : Nat}
    {maps : SequentialMaps Key Tag Metadata Layout Id}
    {processor parallelProcessor sequentialProcessor : BlockGasLimitProcessor Key Tag Id}
    {parallelCut sequentialCut : Nat}
    (parallel : env.parallelExecution idx processor block = .ok (parallelProcessor, parallelCut))
    (sequential : env.sequentialExecution idx processor maps block = .ok
      (sequentialProcessor, sequentialCut)) (isBlock : idx + block.length = env.numTxns)
    (unresolved : ∀ txn ∈ block, ∀ read ∈ txn.reads, read.1.Unresolved read.2)
    (finds : env.TagsFound maps block) :
    parallelProcessor = sequentialProcessor ∧ parallelCut = sequentialCut := by
  induction block generalizing idx maps processor with
  | nil =>
    cases parallel
    cases sequential
    exact ⟨rfl, rfl⟩
  | cons txn rest inductionHypothesis =>
    obtain ⟨captured, captures, parallel⟩ := of_bind parallel
    obtain ⟨⟨committed, isLast⟩, isCommit, parallel⟩ := of_bind parallel
    obtain ⟨_, accumulates, isCommit⟩ := of_bind isCommit
    cases isCommit
    obtain ⟨⟨readSet, after⟩, executes, sequential⟩ := of_bind sequential
    obtain ⟨processor', accumulates', sequential⟩ := of_bind sequential
    have rests := finds.2 readSet after executes
    obtain ⟨state, records, executes⟩ := of_bind executes
    obtain ⟨_, -, executes⟩ := of_bind executes
    cases executes
    have sameSummary := readSummary_eq captures records (unresolved txn List.mem_cons_self) finds.1
    rw [sameSummary, accumulates'] at accumulates
    cases accumulates
    rw [List.length_cons] at isBlock
    have sameEnd := isLast_eq txn.skipsRest committed.shouldEndBlock
      (show idx + 1 ≤ env.numTxns by omega)
    dsimp only at parallel
    rw [sameEnd] at parallel
    split at parallel
    · rename_i isEnd
      cases parallel
      rw [if_pos isEnd] at sequential
      cases sequential
      exact ⟨rfl, rfl⟩
    · rename_i isNotEnd
      rw [if_neg isNotEnd] at sequential
      exact inductionHypothesis parallel sequential (by omega)
        (List.forall_mem_cons.mp unresolved).2 rests

namespace Toy

def view : ViewEnv Nat Nat Unit Unit Nat where
  getStateValue key := .ok (if key ≤ 1 then some ([1], ()) else none)
  deserializeGroup _ := .ok [(7, [5])]
  groupTaggedResourceSize _ len := .ok (len + 1)
  patchBaseValue raw _ := .ok fun _ => (raw, [])

def toyEnv : BlockEnv Nat Nat Unit Unit Nat Nat where
  view := view
  isV2 := false
  keyOfModule := id
  numTxns := 3

def noOutput : TxnOutput Nat Nat Unit Unit Nat := ⟨[], ∅, ∅, ∅, [], false⟩

/-- A transaction of one unit of gas. -/
def txnOf (reads : List (ReadRequest Nat Nat Unit Nat Nat × MVAnswers Unit Unit))
    (output : TxnOutput Nat Nat Unit Unit Nat) : BlockTxn Nat Nat Unit Unit Nat Nat where
  reads := reads
  output := output
  feeStatement := { executionGasUnits := 1 }
  outputApproxSize := 0
  userTxnBytesLen := 0
  skipsRest := false

def deletes : BlockTxn Nat Nat Unit Unit Nat Nat :=
  txnOf [(.groupMember 0 7 .value (some none), .group [.uninitialized,
      .found (none, .rawFromStorage (.modification [5] ())),
      .found (none, .exchanged (.modification [5] ()) none)])]
    ⟨[], (∅ : Table _ _).insert 0 (.deletion (), .combined 0 0,
      (∅ : Table _ _).insert 7 (.deletion (), none)), ∅, ∅, [], false⟩

def readsDeleted (kind : ReadKind) (layout : Option (Option Unit)) :
    BlockTxn Nat Nat Unit Unit Nat Nat :=
  txnOf [(.groupMember 0 7 kind layout, .group
    [.found (some (0, 0), .exchanged (.deletion ()) none)])] noOutput

/-- A window of two transactions and an effective limit of three units. -/
def limits : BlockGasLimitProcessor Nat Nat Nat where
  blockGasLimitType := .complexLimitV1 3 1 1 2 true none false
  blockGasLimitOverride := none

def noMaps : SequentialMaps Nat Nat Unit Unit Nat := ⟨.new, 0⟩

def readsAggregator : List (ReadRequest Nat Nat Unit Nat Nat × MVAnswers Unit Unit) :=
  [(.resource 1 .value (some none), .data [.found (.resolved 9)])]

/-- Only sequential execution counts a read whether a deleted member exists, and a value
resolved through deltas, so it ends the block earlier. -/
theorem cuts_differ_after_existence_read : (toyEnv.parallelExecution 0 limits
      [deletes, readsDeleted .existence none, txnOf [] noOutput]).map Prod.snd = .ok 3 ∧
    (toyEnv.sequentialExecution 0 limits noMaps
      [deletes, readsDeleted .existence none, txnOf [] noOutput]).map Prod.snd = .ok 2 ∧
    (parallelReads view false readsAggregator).map
      (fun captured => captured.getReadSummary id) = .ok ∅ ∧
    ((startOf noMaps).reads view (readsAggregator.map Prod.fst)).map
      (fun state => state.readSet.getReadSummary id) = .ok {.resource 1} := by
  refine ⟨?_, ?_, ?_, ?_⟩ <;> rfl

theorem value_read_cuts_alike : ∃ processor, toyEnv.parallelExecution 0 limits
      [deletes, readsDeleted .value (some none), txnOf [] noOutput] = .ok (processor, 2) ∧
    toyEnv.sequentialExecution 0 limits noMaps
      [deletes, readsDeleted .value (some none), txnOf [] noOutput] = .ok (processor, 2) := by
  obtain ⟨processor, isParallel⟩ : ∃ processor, toyEnv.parallelExecution 0 limits
    [deletes, readsDeleted .value (some none), txnOf [] noOutput] =
      .ok (processor, 2) := ⟨_, rfl⟩
  obtain ⟨other, isSequential⟩ : ∃ other, toyEnv.sequentialExecution 0 limits noMaps
    [deletes, readsDeleted .value (some none), txnOf [] noOutput] = .ok (other, 2) := ⟨_, rfl⟩
  have same := cut_eq_of_tagsFound isParallel isSequential rfl
    (by simp [deletes, readsDeleted, txnOf, ReadRequest.Unresolved])
    ⟨⟨.inl rfl, fun _ _ => trivial⟩, fun _ _ _ =>
      ⟨⟨.inl rfl, fun _ _ => trivial⟩, fun _ _ _ =>
        ⟨trivial, fun _ _ _ => trivial⟩⟩⟩
  exact ⟨processor, isParallel, by rw [isSequential, same.1]⟩

end Toy

end BlockEnv

end LumioNode
