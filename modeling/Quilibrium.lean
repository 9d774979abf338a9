import Quilibrium.Consensus.Difficulty
import Quilibrium.Execution.AddressLocks
import Quilibrium.Rpm.DotProduct
import Quilibrium.Theorems.ClockStore
import Quilibrium.Theorems.Coverage
import Quilibrium.Theorems.Domains
import Quilibrium.Theorems.DoubleRatchet
import Quilibrium.Theorems.Equivocation
import Quilibrium.Theorems.ExecutionDag
import Quilibrium.Theorems.Fees
import Quilibrium.Theorems.KickEvidence
import Quilibrium.Theorems.LazyDelete
import Quilibrium.Theorems.LazyProve
import Quilibrium.Theorems.LockDiscipline
import Quilibrium.Theorems.Metadata
import Quilibrium.Theorems.Payload
import Quilibrium.Theorems.ProofBytes
import Quilibrium.Theorems.ProverChanges
import Quilibrium.Theorems.Reorganization
import Quilibrium.Theorems.Reward
import Quilibrium.Theorems.RoundLaws
import Quilibrium.Theorems.Routing
import Quilibrium.Theorems.Schema
import Quilibrium.Theorems.ShardClock
import Quilibrium.Theorems.ShardSize
import Quilibrium.Theorems.Verify
import Quilibrium.Theorems.VertexData
import Quilibrium.Theorems.VoteAuthentication
import Quilibrium.Tries.TreeCompare
