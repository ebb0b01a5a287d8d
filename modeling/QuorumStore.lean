import QuorumStore.Types
import QuorumStore.ProofQueue
import QuorumStore.ProofQueueInvariant
import QuorumStore.ProofQueuePull
import QuorumStore.ProofQueueLocal
import QuorumStore.BatchBuilder
import QuorumStore.DigestTimeouts
import QuorumStore.QuorumStoreDB
import QuorumStore.BatchCoordinator
import QuorumStore.ProofPipeline
import QuorumStore.ProofManager
import QuorumStore.RoundExpirations
import QuorumStore.ProofQueueRetention
import QuorumStore.BatchCoordinatorRemote
