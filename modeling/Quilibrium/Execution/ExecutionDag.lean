import Quilibrium.Tries.ProofTree

/-! # Execution graphs

`buildExecutionDAG` of `node/execution/intrinsics/compute/compute_intrinsic_code_execute.go` and the three encodings of
a graph. The order of every range over a map is a parameter. -/

namespace Quilibrium

inductive ExecutionContext where
  | intrinsic
  | hypergraph
  | extrinsic
  | other (code : UInt8)
  deriving DecidableEq, Repr

def ExecutionContext.toByte : ExecutionContext → UInt8
  | .intrinsic => 0
  | .hypergraph => 1
  | .extrinsic => 2
  | .other code => code

structure ExecuteOperation where
  address : Bytes
  executionContext : ExecutionContext
  identifier : Bytes
  dependencies : List Bytes
  deriving DecidableEq, Repr

namespace ExecuteOperation

def dependencySet (op : ExecuteOperation) : List Bytes := op.dependencies.eraseDups

/-- `extractAccessSets`: the addresses read and those written. -/
def accessSets (op : ExecuteOperation) : Except String (List Bytes × List Bytes) :=
  match op.executionContext with
  | .intrinsic => .ok ([], [])
  | .hypergraph => .ok ([op.address], [op.address])
  | .extrinsic => .ok ([op.address], [])
  | .other _ => .error "unknown execution context"

def readSet (op : ExecuteOperation) : List Bytes := (op.accessSets.toOption.map (·.1)).getD []

def writeSet (op : ExecuteOperation) : List Bytes := (op.accessSets.toOption.map (·.2)).getD []

def hasConflict (op₁ op₂ : ExecuteOperation) : Bool :=
  op₁.writeSet.any (op₂.writeSet.contains ·) || op₁.readSet.any (op₂.writeSet.contains ·) ||
    op₁.writeSet.any (op₂.readSet.contains ·)

end ExecuteOperation

/-- The ranges over maps. Each of them is reached at most once for its arguments. -/
inductive RangeSite where
  | validate
  | detect (id : Bytes)
  | initial
  | dependents (id : Bytes)
  | round (stageNum : Nat)
  | rest
  | serialize
  | serializeDependencies (id : Bytes)
  deriving DecidableEq, Repr

/-- The orders in which ranges over maps go through the keys. -/
structure MapRanges where
  keys : RangeSite → List Bytes → List Bytes
  perm : ∀ site l, (keys site l).Perm l

/-- `ExecutionDAG`: the operations, the stage of each node and the identifiers of each stage. -/
structure ExecutionDAG where
  operations : List ExecuteOperation
  stage : Bytes → Nat
  stages : List (List Bytes)

def maxOperationsLimit : Nat := 100

/-- A byte string as `%s` prints it. -/
def rawString (b : Bytes) : String := String.ofList (b.map fun x => Char.ofNat x.toNat)

namespace ExecutionDAG

section
variable (r : MapRanges) (ops : List ExecuteOperation)

def identifiers : List Bytes := ops.map (·.identifier)

def find (id : Bytes) : Option ExecuteOperation := ops.find? (·.identifier = id)

def dependenciesOf (id : Bytes) : List Bytes := ((find ops id).map (·.dependencySet)).getD []

def dependentsOf (id : Bytes) : List Bytes := identifiers (ops.filter fun op => op.dependencies.contains id)

/-- `detectCycle`: the visited nodes and the recursion stack afterwards, or `none` for a cycle. The nodes on the stack
    are distinct, so the fuel is not used up. -/
def detectCycle : Nat → Bytes → List Bytes → List Bytes → Except Fault (Option (List Bytes × List Bytes))
  | 0, _, _, _ => .error .diverges
  | fuel + 1, id, visited, recStack =>
    if recStack.contains id then .ok none
    else if visited.contains id then .ok (some (visited, recStack))
    else do
      let result ← (r.keys (.detect id) (dependenciesOf ops id)).foldlM (fun acc dep =>
        match acc with
        | none => .ok none
        | some (visited, recStack) => detectCycle fuel dep visited recStack) (some (id :: visited, id :: recStack))
      .ok (result.map fun (visited, recStack) => (visited, recStack.erase id))

/-- `validateNoCycles`. The recursion stack is new for every node. -/
def validateNoCycles : Except Fault (Option String) := do
  let result ← (r.keys .validate (identifiers ops)).foldlM (fun acc id =>
    match acc with
    | .error err => .ok (.error err)
    | .ok visited => do
      match ← detectCycle r ops (ops.length + 1) id visited [] with
      | none => .ok (.error ("cycle detected involving operation " ++ rawString id))
      | some (visited, _) => .ok (.ok visited)) (.ok [] : Except String (List Bytes))
  match result with
  | .error err => .ok (some err)
  | .ok _ => .ok none

/-- One node of the current stage: the dependents that have become ready, with their stages. -/
def schedule (visited : List Bytes) (acc : (Bytes → Nat) × List Bytes) (depID : Bytes) : (Bytes → Nat) × List Bytes :=
  let (stage, nextStage) := acc
  if visited.contains depID then acc
  else if (dependenciesOf ops depID).all (visited.contains ·) then
    let maxDepStage := (dependenciesOf ops depID).foldl (fun m dep => max m (stage dep)) 0
    (Function.update stage depID (maxDepStage + 1), if nextStage.contains depID then nextStage else nextStage ++ [depID])
  else acc

/-- The loop of `computeStages`: the stages and the stage of each node. -/
def computeStagesFrom : Nat → List Bytes → List Bytes → (Bytes → Nat) → List (List Bytes) →
    Except Fault ((Bytes → Nat) × List (List Bytes))
  | 0, _, _, _, _ => .error .diverges
  | fuel + 1, currentStage, visited, stage, stages =>
    if currentStage.isEmpty then .ok (stage, stages)
    else
      let visited := currentStage ++ visited
      let (stage, nextStage) := currentStage.foldl (fun acc id =>
        (r.keys (.dependents id) (dependentsOf ops id)).foldl (schedule ops visited) acc) (stage, [])
      computeStagesFrom fuel nextStage visited stage (stages ++ [currentStage])

def computeStages : Except Fault (Except String ((Bytes → Nat) × List (List Bytes))) := do
  let currentStage := (r.keys .initial (identifiers ops)).filter fun id => (dependenciesOf ops id).isEmpty
  if currentStage.isEmpty && !ops.isEmpty then .ok (.error "no operations without dependencies found")
  else
    let (stage, stages) ← computeStagesFrom r ops (ops.length + 2) currentStage [] (fun _ => 0) []
    if stages.flatten.length ≠ ops.length then
      .ok (.error "not all operations were processed - possible disconnected graph")
    else .ok (.ok (stage, stages))

/-- Whether a node joins the operations of the current stage. -/
def joins (processed currentStageOps : List Bytes) (id : Bytes) : Bool :=
  !processed.contains id && (dependenciesOf ops id).all (processed.contains ·) &&
    !currentStageOps.any fun existing =>
      match find ops id, find ops existing with
      | some op, some op' => op.hasConflict op'
      | _, _ => false

/-- `optimizeStagesWithConflicts`: one round for each stage, and a stage of its own for each node that is left. -/
def optimizeStagesWithConflicts (rounds : Nat) (stage : Bytes → Nat) : (Bytes → Nat) × List (List Bytes) :=
  let (stage, processed, newStages) := (List.range rounds).foldl (fun (stage, processed, newStages) stageNum =>
    let currentStageOps := (r.keys (.round stageNum) (identifiers ops)).foldl (fun currentStageOps id =>
      if joins ops processed currentStageOps id then currentStageOps ++ [id] else currentStageOps) []
    (fun id => if currentStageOps.contains id then stageNum else stage id, processed ++ currentStageOps,
      if currentStageOps.isEmpty then newStages else newStages ++ [currentStageOps])) (stage, [], [])
  if processed.length = ops.length then (stage, newStages)
  else
    (r.keys .rest (identifiers ops)).foldl (fun (stage, newStages) id =>
      if processed.contains id then (stage, newStages)
      else (Function.update stage id newStages.length, newStages ++ [[id]])) (stage, newStages)

/-- `buildExecutionDAG`. -/
def build : Except Fault (Except String ExecutionDAG) :=
  if ops.isEmpty then .ok (.error "empty operations list")
  else if maxOperationsLimit < ops.length then
    .ok (.error ("operations count " ++ toString ops.length ++ " exceeds limit " ++ toString maxOperationsLimit))
  else if ¬(identifiers ops).Nodup then .ok (.error "duplicate operation identifier")
  else
    let missing := ops.findSome? fun op =>
      (op.dependencies.find? fun depID => !(identifiers ops).contains depID).map fun depID => (depID, op.identifier)
    match missing with
    | some (depID, id) =>
      .ok (.error ("dependency " ++ VectorCommitmentTree.hex depID ++ " not found for operation " ++
        VectorCommitmentTree.hex id))
    | none => do
      match ← validateNoCycles r ops with
      | some err => .ok (.error ("invalid DAG: " ++ err))
      | none =>
        match ← computeStages r ops with
        | .error err => .ok (.error ("failed to compute stages: " ++ err))
        | .ok (stage, stages) =>
          match ops.findSome? fun op => op.accessSets.toOption.elim (some op) fun _ => none with
          | some _ =>
            .ok (.error "failed to analyze conflicts: failed to extract access sets: unknown execution context")
          | none =>
            let (stage, stages) := optimizeStagesWithConflicts r ops stages.length stage
            .ok (.ok ⟨ops, stage, stages⟩)

end

/-! ### Encodings -/

def sized (b : Bytes) : Bytes := uint32BE b.length ++ b

/-- `serializeDAG`. -/
def serialize (r : MapRanges) (dag : ExecutionDAG) : Bytes :=
  uint32BE dag.operations.length ++ (r.keys .serialize (identifiers dag.operations)).flatMap fun id =>
    let dependencies := r.keys (.serializeDependencies id) (dependenciesOf dag.operations id)
    sized id ++ uint32BE dependencies.length ++ dependencies.flatMap sized

def serializeStages (dag : ExecutionDAG) : Bytes :=
  uint32BE dag.stages.length ++ dag.stages.flatMap fun stage => uint32BE stage.length ++ stage.flatMap sized

def serializeOperation (dag : ExecutionDAG) (op : ExecuteOperation) : Bytes :=
  sized op.address ++ [op.executionContext.toByte] ++ sized op.identifier ++ uint32BE (dag.stage op.identifier) ++
    uint32BE op.readSet.length ++ op.readSet.flatMap sized ++
    uint32BE op.writeSet.length ++ op.writeSet.flatMap sized

end ExecutionDAG

end Quilibrium
