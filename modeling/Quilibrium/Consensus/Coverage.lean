import Quilibrium.Consensus.Provers

/-! # Shard coverage

`checkShardCoverage` of `node/consensus/global/coverage_events.go`. The orders in which maps are ranged over are arguments;
logging and metrics are left out. -/

namespace Quilibrium
namespace Coverage
open Provers

/-- What is read: the values of the prover cache, the sizes of the shard tries, `GetVertexData` with size and leaves of a tree
    that has a root, and the blacklist. -/
structure Env where
  proverCache : List ProverInfo
  shardTries : Bytes → Nat
  vertexData : Bytes → Option (Option (Nat × Nat))
  blacklistMap : List Bytes

structure TreeMetadata where
  commitmentRoot : Bytes
  totalSize : Nat
  totalLeaves : Nat

structure ShardCoverage where
  proverCount : Nat
  attestedStorage : Nat
  treeMetadata : List TreeMetadata

structure CoverageEventData where
  shardAddress : Bytes
  proverCount : Nat
  requiredProvers : Nat
  attestedStorage : Nat
  treeMetadata : List TreeMetadata
  message : String

inductive ControlEvent
  | coverageHalt (data : CoverageEventData)
  | coverageWarn (data : CoverageEventData)
  | shardMergeEligible (shardAddresses : List Bytes) (totalProvers attestedStorage requiredStorage : Nat)
  | shardSplitEligible (shardAddress : Bytes) (proverCount attestedStorage : Nat) (proposedShards : List Bytes)

def minProvers : Nat := 5
def maxProvers : Nat := 32
def haltThreshold : Nat := 3

def activeWith (test : Bytes → Bool) (prover : ProverInfo) : Bool :=
  prover.allocations.any fun allocation => allocation.status = .active && test allocation.confirmationFilter

def attested (provers : List ProverInfo) : Nat :=
  provers.foldl (fun storage prover => (storage + prover.availableStorage) % 2 ^ 64) 0

/-- The metadata of a data tree, where the root that is missing has size 0. -/
def metadata (data : Option (Nat × Nat)) : List TreeMetadata :=
  [⟨List.replicate 74 0, (data.getD (0, 0)).1 % 2 ^ 64, (data.getD (0, 0)).2⟩]

def proposeShardSplit (shardAddress : Bytes) (proverCount : Nat) : List Bytes :=
  let availableSpace := 64 - shardAddress.length
  if 64 < proverCount ∧ 2 ≤ availableSpace then
    (List.range 8).map fun i => shardAddress ++ [UInt8.ofNat (i * 32), 0]
  else if 48 < proverCount then (List.range 4).map fun i => shardAddress ++ [UInt8.ofNat (i * 64)]
  else [shardAddress ++ [0x00], shardAddress ++ [0x80]]

def handleHighCoverage (shardAddress : Bytes) (coverage : ShardCoverage) : List ControlEvent :=
  if shardAddress.length < 64 then
    [.shardSplitEligible shardAddress coverage.proverCount coverage.attestedStorage
      (proposeShardSplit shardAddress coverage.proverCount)]
  else []

namespace Env

def getAllActiveAppShardProvers (e : Env) : List ProverInfo := e.proverCache.filter (activeWith fun filter => 0 < filter.length)

/-- The list of a shard in `shardProvers`: a prover stands there once for each of its allocations. -/
def shardProvers (e : Env) (shard : Bytes) : List ProverInfo :=
  e.getAllActiveAppShardProvers.flatMap fun prover =>
    (prover.allocations.filter (·.confirmationFilter = shard)).map fun _ => prover

def shards (e : Env) : List Bytes :=
  (e.getAllActiveAppShardProvers.flatMap fun prover => prover.allocations.map (·.confirmationFilter)).dedup

def coverageOf (e : Env) (shard : Bytes) : ShardCoverage where
  proverCount := (e.shardProvers shard).length
  attestedStorage := attested (e.shardProvers shard)
  treeMetadata := metadata (e.vertexData (shard ++ List.replicate (64 - shard.length) 0)).join

/-- `getShardCoverageMap`, where a shard is copied into 64 bytes. -/
def getShardCoverageMap (e : Env) (range : List Bytes) : Except Fault (List (Bytes × ShardCoverage)) :=
  range.mapM fun shard => if 64 < shard.length then .error .indexOutOfRange else .ok (shard, e.coverageOf shard)

/-- `getShardCoverage`, which takes the address for one of 64 bytes and its data for a tree with a root. -/
def getShardCoverage (e : Env) (shard : Bytes) : Except Fault (Option ShardCoverage) :=
  if e.shardTries shard = 0 then .ok none
  else if shard.length < 64 then .error .indexOutOfRange
  else
    let storage := attested (e.proverCache.filter (activeWith fun filter => filter = shard))
    match e.vertexData (shard.take 64) with
    | some none => .error .nilDereference
    | data => .ok (some ⟨e.shardTries shard, storage, metadata data.join⟩)

def findSiblingShards (e : Env) (range : List Bytes) (appPrefix shard : Bytes) : Except Fault (List Bytes) := do
  let coverageMap ← e.getShardCoverageMap range
  return (coverageMap.map (·.1)).filter fun key => key ≠ shard && decide (32 ≤ key.length) && key.take 32 = appPrefix

def calculateRequiredStorage (e : Env) (shards : List Bytes) : Except Fault Nat := do
  let coverages ← shards.mapM e.getShardCoverage
  return coverages.foldl (fun total c => (total + ((c.bind (·.treeMetadata.head?)).elim 0 (·.totalSize))) % 2 ^ 64) 0

def handleLowCoverage (e : Env) (range : List Bytes) (shard : Bytes) (coverage : ShardCoverage) : Except Fault ControlEvent := do
  let warn message : ControlEvent := .coverageWarn
    ⟨shard, coverage.proverCount, minProvers, coverage.attestedStorage, coverage.treeMetadata, message⟩
  if shard.length = 32 then return warn "Application shard has low prover coverage"
  let siblings ← e.findSiblingShards range (shard.take 32) shard
  if siblings.isEmpty then return warn "Shard has low coverage and no siblings for merge"
  let coverages ← siblings.mapM e.getShardCoverage
  let totalStorage := coverages.foldl (fun total c => (total + c.elim 0 (·.attestedStorage)) % 2 ^ 64) coverage.attestedStorage
  let totalProvers := coverages.foldl (fun total c => total + c.elim 0 (·.proverCount)) coverage.proverCount
  let requiredStorage ← e.calculateRequiredStorage (shard :: siblings)
  if requiredStorage ≤ totalStorage then
    return .shardMergeEligible (shard :: siblings) totalProvers totalStorage requiredStorage
  else return warn "shard has low coverage and cannot be merged due to insufficient storage"

def isAddressBlacklisted (e : Env) (address : Bytes) : Bool :=
  e.blacklistMap.any fun b => b = address || decide (b.length < address.length) && b.isPrefixOf address

/-- A round of the loop of `checkShardCoverage`: the events that are emitted. -/
def checkShard (e : Env) (range : List Bytes) (shard : Bytes) (coverage : ShardCoverage) : Except Fault (List ControlEvent) :=
  if shard.length < 32 ∨ 64 < shard.length then .ok []
  else if coverage.proverCount ≤ haltThreshold then
    if e.isAddressBlacklisted shard then .ok []
    else .ok [.coverageHalt ⟨shard, coverage.proverCount, minProvers, coverage.attestedStorage, coverage.treeMetadata,
      "Shard has only " ++ toString coverage.proverCount ++ " provers, network halt required"⟩]
  else
    let low := if coverage.proverCount < minProvers then (e.handleLowCoverage range shard coverage).map ([·]) else .ok []
    low.map (· ++ if maxProvers < coverage.proverCount then handleHighCoverage shard coverage else [])

/-- `checkShardCoverage`, with the order of the map and the order of each search for siblings. -/
def checkShardCoverage (e : Env) (range : List Bytes) (siblings : Bytes → List Bytes) : Except Fault (List ControlEvent) := do
  let coverageMap ← e.getShardCoverageMap range
  let events ← coverageMap.mapM fun entry => e.checkShard (siblings entry.1) entry.1 entry.2
  return events.flatten

end Env
end Coverage
end Quilibrium
