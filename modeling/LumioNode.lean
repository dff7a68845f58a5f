import LumioNode.SafetyRules.NoEquivocation
import LumioNode.SafetyRules.Agreement
import LumioNode.Consensus.SignedRounds
import LumioNode.Consensus.QuorumCertificates
import LumioNode.BlockStorage.RoundIndex
import LumioNode.BlockStorage.WindowRoot
import LumioNode.BlockStorage.OrderedExecution
import LumioNode.Types.SparseMerkleProof
import LumioNode.Accumulator.ConsistencySoundness
import LumioNode.Accumulator.TransactionProof
import LumioNode.MVHashMap.StaleReaders
import LumioNode.QuorumStore.ProofQueueRuns
import LumioNode.QuorumStore.ProposalLimits
import LumioNode.BlockExecutor.GroupFallback
import LumioNode.BlockExecutor.BlockCut
import LumioNode.BlockExecutor.HotStateOpAccumulator
import LumioNode.Aggregator.AggregatorV1
import LumioNode.Dag.StrongVotes
import LumioNode.QuorumStore.BatchExpiry
import LumioNode.Dkg.Thresholds
import LumioNode.Mempool.RefusedInserts
import LumioNode.Framework.MultisigQueue
import LumioNode.Framework.NonceValidation
import LumioNode.Framework.PoolU64Unbound
import LumioNode.Framework.RateLimiter
import LumioNode.Framework.IntegerMath
