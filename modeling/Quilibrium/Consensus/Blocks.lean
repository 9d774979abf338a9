import Quilibrium.Execution.Manager

/-! # Blocks

`Collect` of the liveness providers and `materialize`: all four have the same loop around the execution manager.
Metrics, mixnet and logging are left out. -/

namespace Quilibrium

variable {Payload : Type}

/-- What the engines are made with. The frame that a block belongs to has a header. -/
structure BlockEnv (Payload : Type) extends ManagerEnv Payload where
  difficulty : Nat
  /-- `ProcessStateTransition` of the prover registry. -/
  processStateTransition : HypergraphState → Nat → Except Fault (Option String)
  /-- The error with which the shard commitments of the global engine are put together. -/
  collectCommitments : HypergraphCRDT → Option String
  validate : MessageBundle Payload → Option String
  /-- The error of `calculateRequestsRoot`. -/
  requestsRoot : List (Bytes × ExecutionMessage Payload) → Option String

/-- The variable `state`, which a bundle without an operation for its engine sets to nil. The hypergraph is that of the
    node all the same. -/
structure BlockState where
  state : HypergraphState
  hasState : Bool

inductive MessageResult where
  | skipped
  | failed (err : String)
  | accepted
  deriving DecidableEq, Repr

namespace BlockEnv

variable (env : BlockEnv Payload)

/-- The fee multiplier for a message: the baseline fee per unit of cost. -/
def feeMultiplier (s : HypergraphState) (costBasis : Int) : Except Fault Int := do
  let baseline ← env.getBaselineFee env.difficulty (uint64 s.hypergraph.getSize) (uint64 costBasis) 8000000000
  quo baseline costBasis

/-- The body of the loops: the fee multiplier is scaled by `scale`. -/
def runMessage (frameNumber : Nat) (scale : Int) (address : Bytes) (message : ExecutionMessage Payload) (b : BlockState) :
    Except Fault (BlockState × MessageResult) := do
  match ← env.getCost message with
  | .error _ => return (b, .skipped)
  | .ok costBasis =>
    let baseline ← env.feeMultiplier b.state costBasis
    match ← env.processMessage frameNumber (baseline * scale) address message b.hasState b.state with
    | (s, .error err) => return ({ b with state := s }, .failed err)
    | (s, .ok processed) => return (⟨s, b.hasState && processed⟩, .accepted)

/-- A message of `Collect`; those that fail are left out. -/
def collectMessage (frameNumber : Nat) (scale : Int) (run : BlockState × List (Bytes × ExecutionMessage Payload))
    (message : Bytes × ExecutionMessage Payload) : Except Fault (BlockState × List (Bytes × ExecutionMessage Payload)) := do
  match ← env.runMessage frameNumber scale message.1 message.2 run.1 with
  | (b, .accepted) => return (b, run.2 ++ [message])
  | (b, _) => return (b, run.2)

/-- The loop of `materialize`, which ends at the first bundle that fails. -/
def materializeRequests (frameNumber : Nat) (scale : Int) (address : Bytes) :
    List (MessageBundle Payload) → BlockState → Except Fault (BlockState × Option String)
  | [], b => .ok (b, none)
  | request :: requests, b => do
    match ← env.runMessage frameNumber scale address (.bundle (some request)) b with
    | (b, .failed err) => return (b, some ("materialize: " ++ err))
    | (b, _) => materializeRequests frameNumber scale address requests b

/-- What `materialize` does once all requests were run. -/
def finish (frameNumber : Nat) (b : BlockState) : Outcome :=
  if !b.hasState then .error .nilDereference
  else do
    match ← env.processStateTransition b.state frameNumber with
    | some err => return (b.state, some ("materialize: " ++ err))
    | none => Outcome.wrap "materialize" (b.state.commit env.execution.crypto env.execution.fuel)

/-- `materialize`, for the address to which the bundles are sent. -/
def materialize (frameNumber : Nat) (scale : Int) (address : Bytes) (requests : List (MessageBundle Payload))
    (s : HypergraphState) : Outcome := do
  match ← env.materializeRequests frameNumber scale address requests ⟨.new s.hypergraph s.heap s.next, true⟩ with
  | (b, some err) => return (b.state, some err)
  | (b, none) => env.finish frameNumber b

end BlockEnv

def GlobalConsensusEngine.materialize (env : BlockEnv Payload) (frameNumber : Nat) (requests : List (MessageBundle Payload))
    (s : HypergraphState) : Outcome :=
  env.materialize frameNumber 1 globalIntrinsicAddress requests s

/-- `materialize` of the engine of an app shard: the fee is scaled by the vote in the header. -/
def AppConsensusEngine.materialize (env : BlockEnv Payload) (appAddress : Bytes) (frameNumber feeMultiplierVote : Nat)
    (requests : List (MessageBundle Payload)) (s : HypergraphState) : Outcome :=
  env.materialize frameNumber (int64 feeMultiplierVote) appAddress requests s

/-- `Collect` of the global engine, for the frame after the head: the hypergraph, the error and the messages that were
    accepted. -/
def GlobalLivenessProvider.collect (env : BlockEnv Payload) (head : Option Nat)
    (messages : List (Bytes × ExecutionMessage Payload)) (s : HypergraphState) :
    Except Fault (HypergraphState × Except String (List (Bytes × ExecutionMessage Payload))) := do
  let frameNumber := (head.getD 0 + 1) % 2 ^ 64
  let (b, accepted) ← messages.foldlM (env.collectMessage frameNumber 1) (⟨.new s.hypergraph s.heap s.next, true⟩, [])
  let hypergraph ← b.state.hypergraph.commit env.execution.crypto env.execution.fuel
  let s := { b.state with hypergraph }
  match env.collectCommitments hypergraph with
  | some err => return (s, .error ("collect: " ++ err))
  | none => return (s, .ok accepted)

def GlobalLeaderProvider.requests (now : Int) (collected : List (Bytes × ExecutionMessage Payload)) :
    List (MessageBundle Payload) :=
  collected.filterMap fun message =>
    match message.2 with
    | .bundle (some bundle) => some { bundle with timestamp := if bundle.timestamp = 0 then now else bundle.timestamp }
    | _ => none

/-- Whether `Collect` of an app shard looks at the message at all. -/
def BlockEnv.admits (env : BlockEnv Payload) : ExecutionMessage Payload → Bool
  | .bundle (some bundle) => (env.validate bundle).isNone
  | _ => false

def AppLivenessProvider.collect (env : BlockEnv Payload) (frameNumber feeMultiplierVote : Nat)
    (messages : List (Bytes × ExecutionMessage Payload)) (s : HypergraphState) :
    Except Fault (HypergraphState × Except String (List (Bytes × ExecutionMessage Payload))) := do
  let (b, finalized) ← (messages.filter fun message => env.admits message.2).foldlM
    (env.collectMessage frameNumber (int64 feeMultiplierVote)) (⟨.new s.hypergraph s.heap s.next, true⟩, [])
  match env.requestsRoot finalized with
  | some err => return (b.state, .error ("collect: " ++ err))
  | none => return (b.state, .ok finalized)

/-! ### Reverting -/

/-- `RevertChanges` of one shard for a frame. The caller commits its transaction unless there is an error. -/
def BlockEnv.revert (env : BlockEnv Payload) (refresh : HypergraphCRDT → Option String) (frameNumber : Nat)
    (shardKey : ShardKey) (s : HypergraphState) : Outcome := do
  let (hypergraph, txn, err) ←
    HypergraphCRDT.revertChanges env.execution.crypto frameNumber frameNumber shardKey s.hypergraph (some [])
  match err.or (refresh hypergraph) with
  | some err => return ({ s with hypergraph }, some ("revert: " ++ err))
  | none => return ({ s with hypergraph := hypergraph.commitTxn txn }, none)

/-- `revert` of the global engine, which also lets the prover registry read the hypergraph again. -/
def GlobalConsensusEngine.revert (env : BlockEnv Payload) (refresh : HypergraphCRDT → Option String) (frameNumber : Nat)
    (s : HypergraphState) : Outcome :=
  env.revert refresh frameNumber (shardKeyOf env.execution.crypto.shake (HypergraphState.copy32 globalIntrinsicAddress)) s

def AppConsensusEngine.revert (env : BlockEnv Payload) (appAddress : Address) (frameNumber : Nat) (s : HypergraphState) :
    Outcome :=
  env.revert (fun _ => none) frameNumber (shardKeyOf env.execution.crypto.shake appAddress) s

end Quilibrium
