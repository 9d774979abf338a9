import Quilibrium.Execution.Engine
import Quilibrium.Execution.ExecutionDag

/-! # The compute intrinsic

The three operations of `node/execution/intrinsics/compute` and `InvokeStep`. -/

namespace Quilibrium

/-- `CodeDeployment`. The types of inputs and outputs are not read by the operation. -/
structure CodeDeployment where
  circuit : Bytes
  domain : Address

structure CodeExecute where
  proofOfPayment : Bytes × Bytes
  domain : Address
  rendezvous : Address
  executeOperations : List ExecuteOperation

structure StateTransition where
  domain : Address
  address : Bytes
  oldValue : Bytes
  newValue : Bytes

structure ExecutionResult where
  operationID : Bytes
  success : Bool
  output : Bytes
  error : Bytes

/-- `CodeFinalize`. The domain is that of the intrinsic. -/
structure CodeFinalize where
  rendezvous : Address
  results : List ExecutionResult
  stateChanges : List StateTransition
  proofOfExecution : Bytes
  messageOutput : Bytes

inductive ComputeOperation where
  | codeDeployment (op : CodeDeployment)
  | codeExecute (op : CodeExecute)
  | codeFinalize (op : CodeFinalize)

structure ComputeIntrinsic where
  crypto : Crypto
  domain : Address
  poseidon : Bytes → Except String Address
  validateCircuit : Bytes → Option String
  /-- `SimpleVerify` of a message, a signature and a public key. -/
  simpleVerify : Bytes → Bytes → Bytes → Bool
  /-- `ValidateSignature` under the write key, of a message and a signature for a domain. -/
  validateSignature : Bytes → Bytes → Bytes → Except String Bool
  discriminators : List Bytes
  transitionBytes : StateTransition → Except String Bytes
  resultBytes : ExecutionResult → Except String Bytes
  finalizeBytes : CodeFinalize → Except String Bytes

namespace ComputeIntrinsic

/-- A new tree with the given values, one after the other. -/
def treeOf (items : List (Bytes × Bytes)) : Except Fault (Except String VectorCommitmentTree) :=
  items.foldlM (fun acc (key, value) =>
    match acc with
    | .error err => .ok (.error err)
    | .ok tree => do
      match ← tree.insert ⟨key, value, [], value.length⟩ with
      | (tree, none) => .ok (.ok tree)
      | (_, some err) => .ok (.error err)) (.ok .empty)

def indexKey (i : Nat) : Bytes := [UInt8.ofNat (i <<< 2)]

variable (c : ComputeIntrinsic)

/-- `Set` of a new vertex whose tree has the given values. -/
def setVertex (domain dataAddress : Address) (frameNumber : Nat) (items : List (Bytes × Bytes)) (s : HypergraphState) :
    Outcome := do
  match ← treeOf items with
  | .error err => .ok (s, some err)
  | .ok tree =>
    .ok ((s.allocate tree).set c.crypto domain.bytes dataAddress.bytes .vertexAdds
      (.vertexAdd domain dataAddress frameNumber none s.next))

/-! ### Code deployment -/

def verifyDeployment (op : CodeDeployment) : Option String := wrap "verify" (c.validateCircuit op.circuit)

def materializeDeployment (frameNumber : Nat) (op : CodeDeployment) (s : HypergraphState) : Outcome :=
  Outcome.wrap "materialize" <|
    match c.poseidon (op.domain.bytes ++ op.circuit) with
    | .error err => .ok (s, some err)
    | .ok codeAddress => c.setVertex op.domain codeAddress frameNumber [(indexKey 0, op.circuit)] s

/-! ### Code execution -/

/-- The cost of an intrinsic, by the first four bytes of its address. -/
def intrinsicCost (address : Bytes) : Except String Int :=
  if address.length < 4 then .error "invalid intrinsic address length"
  else
    match bigEndian (address.take 4) with
    | 0x00010101 => .ok 4736
    | 0x00010201 => .ok 7168
    | 0x00010301 => .ok 64
    | 0x00010401 => .ok 64
    | 0x00010501 => .ok 64
    | 0x00010601 => .ok 114
    | 0x00010701 => .ok 112
    | 0x00010801 => .ok 64
    | _ => .error ("unknown intrinsic address: " ++ VectorCommitmentTree.hex address)

/-- The cost of one operation. That of deployed code is its size in the committed hypergraph. -/
def operationCost (domain : Address) (op : ExecuteOperation) (hg : HypergraphCRDT) :
    Except Fault (HypergraphCRDT × Except String Int) :=
  match op.executionContext with
  | .intrinsic => .ok (hg, intrinsicCost op.address)
  | .hypergraph =>
    if c.discriminators.contains op.address then .ok (hg, .ok 32)
    else .ok (hg, .error ("unknown hypergraph address: " ++ VectorCommitmentTree.hex op.address))
  | .extrinsic =>
    if op.address.length ≠ 32 then .ok (hg, .error "invalid extrinsic address length")
    else
      match hg.getVertexData c.crypto domain (HypergraphState.copy32 op.address) with
      | (hg, .error err) => .ok (hg, .error err)
      | (hg, .ok circuitData) => do
        match ← circuitData.get (indexKey 0) with
        | .error err => .ok (hg, .error err)
        | .ok circuitBytes => .ok (hg, .ok circuitBytes.length)
  | .other code => .ok (hg, .error ("unknown execution context: " ++ toString code.toNat))

def executeCost (op : CodeExecute) (hg : HypergraphCRDT) : Except Fault (HypergraphCRDT × Except String Int) :=
  op.executeOperations.foldlM (fun acc executeOp =>
    match acc with
    | (hg, .error err) => .ok (hg, .error err)
    | (hg, .ok totalCost) => do
      match ← c.operationCost op.domain executeOp hg with
      | (hg, .error err) => .ok (hg, .error ("get cost: " ++ err))
      | (hg, .ok cost) => .ok (hg, .ok (totalCost + cost))) (hg, .ok 0)

def verifyExecute (r : MapRanges) (op : CodeExecute) : Except Fault (Option String) :=
  if op.proofOfPayment.1 ≠ List.replicate 56 0 ∧
      c.simpleVerify op.rendezvous.bytes op.proofOfPayment.2 op.proofOfPayment.1 = false then
    .ok (some "verify: invalid signature")
  else do
    match ← ExecutionDAG.build r op.executeOperations with
    | .error err => .ok (some ("verify: " ++ err))
    | .ok _ => .ok none

/-- The values of the tree that an execution is stored as. -/
def executionItems (r : MapRanges) (op : CodeExecute) (dag : ExecutionDAG) : List (Bytes × Bytes) :=
  [(indexKey 0, op.rendezvous.bytes), (indexKey 1, dag.serialize r), (indexKey 2, dag.serializeStages)] ++
    op.executeOperations.zipIdx.map fun (executeOp, i) => (indexKey (i + 3), dag.serializeOperation executeOp)

/-- `Materialize` of a code execution. The error of `Set` is dropped. -/
def materializeExecute (r : MapRanges) (frameNumber : Nat) (op : CodeExecute) (s : HypergraphState) : Outcome := do
  match ← ExecutionDAG.build r op.executeOperations with
  | .error err => .ok (s, some ("materialize: " ++ err))
  | .ok dag =>
    match ← treeOf (executionItems r op dag) with
    | .error err => .ok (s, some ("materialize: " ++ err))
    | .ok tree =>
      .ok (((s.allocate tree).set c.crypto op.domain.bytes op.rendezvous.bytes .vertexAdds
        (.vertexAdd op.domain op.rendezvous frameNumber none s.next)).1, none)

/-! ### Code finalization -/

def finalizeText : Bytes := "CODE_FINALIZE".toUTF8.toList

def encodedLength {α : Type} (encode : α → Except String Bytes) (l : List α) : Except String Int :=
  l.foldlM (fun sum a => (encode a).map fun b => sum + b.length) 0

def finalizeCost (op : CodeFinalize) : Except String Int :=
  match encodedLength c.transitionBytes op.stateChanges, encodedLength c.resultBytes op.results with
  | .error err, _ => .error ("get cost: " ++ err)
  | .ok _, .error err => .error ("get cost: " ++ err)
  | .ok stateChangeSum, .ok resultSum => .ok (32 + stateChangeSum + resultSum)

def verifyFinalize (op : CodeFinalize) : Option String :=
  if op.results.isEmpty then some "verify: no execution results provided"
  else if op.stateChanges.any (·.address.length ≠ 32) then some "verify: invalid address length in state change"
  else
    match c.finalizeBytes { op with proofOfExecution := [] } with
    | .error err => some ("verify: " ++ err)
    | .ok message =>
      match c.validateSignature message op.proofOfExecution (c.domain.bytes ++ finalizeText) with
      | .error err => some ("verify: " ++ err)
      | .ok false => some "verify: invalid signature"
      | .ok true => none

def changeKey (i : Nat) : Bytes := [UInt8.ofNat (i >>> 8), UInt8.ofNat i]

def storeStateChanges (frameNumber : Nat) (op : CodeFinalize) (s : HypergraphState) : Outcome :=
  Outcome.wrap "store state changes" <|
    match op.stateChanges.mapM c.transitionBytes with
    | .error err => .ok (s, some err)
    | .ok changes =>
      match c.poseidon (op.rendezvous.bytes ++ "STATE_CHANGES_CODE_FINALIZE".toUTF8.toList) with
      | .error err => .ok (s, some err)
      | .ok changesAddress =>
        c.setVertex c.domain changesAddress frameNumber (changes.zipIdx.map fun (b, i) => (changeKey i, b)) s

def serializeResults (results : List ExecutionResult) : Bytes :=
  uint32BE results.length ++ results.flatMap fun result =>
    uint32BE result.operationID.length ++ result.operationID ++ [if result.success then 1 else 0] ++
      uint32BE result.output.length ++ result.output

def serializeStateChanges (changes : List StateTransition) : Except String Bytes :=
  changes.foldlM (fun b change =>
    (c.poseidon change.newValue).map fun valueHash =>
      b ++ change.domain.bytes ++ uint32BE change.address.length ++ change.address ++ valueHash.bytes)
    (uint32BE changes.length)

def storeExecutionResults (frameNumber : Nat) (op : CodeFinalize) (s : HypergraphState) : Outcome :=
  match c.serializeStateChanges op.stateChanges with
  | .error err => .ok (s, some ("storeExecutionResults: " ++ err))
  | .ok changes =>
    match c.poseidon (op.rendezvous.bytes ++ "RESULTS_CODE_FINALIZE".toUTF8.toList) with
    | .error err => .ok (s, some ("store execution results: " ++ err))
    | .ok resultsAddress =>
      c.setVertex c.domain resultsAddress frameNumber
        [(indexKey 0, op.rendezvous.bytes), (indexKey 1, serializeResults op.results), (indexKey 2, changes)] s

def materializeFinalize (frameNumber : Nat) (op : CodeFinalize) (s : HypergraphState) : Outcome :=
  Outcome.wrap "materialize" <|
    (c.storeStateChanges frameNumber op s).andThen (c.storeExecutionResults frameNumber op)

/-! ### The intrinsic -/

def payFor (feePaid feeMultiplier : Int) (s : HypergraphState) (materialize : HypergraphState → Outcome) :
    Except String Int → Outcome
  | .error err => .ok (s, some err)
  | .ok cost =>
    if feePaid < cost * feeMultiplier then
      .ok (s, some ("insufficient fee: " ++ toString feePaid ++ " < " ++ toString (cost * feeMultiplier)))
    else materialize s

/-- `InvokeStep`. The two graphs of a code execution are built with ranges of their own. -/
def invokeStep (r r' : MapRanges) (frameNumber : Nat) (feePaid feeMultiplier : Int) (op : ComputeOperation)
    (s : HypergraphState) : Outcome :=
  Outcome.wrap "invoke step" <|
    match op with
    | .codeDeployment op =>
      match c.verifyDeployment op with
      | some err => .ok (s, some err)
      | none =>
        payFor feePaid feeMultiplier s (c.materializeDeployment frameNumber op) (.ok op.circuit.length)
    | .codeExecute op => do
      match ← c.verifyExecute r op with
      | some err => .ok (s, some err)
      | none =>
        let (hypergraph, cost) ← c.executeCost op s.hypergraph
        payFor feePaid feeMultiplier { s with hypergraph } (c.materializeExecute r' frameNumber op) cost
    | .codeFinalize op =>
      match c.verifyFinalize op with
      | some err => .ok (s, some err)
      | none => payFor feePaid feeMultiplier s (c.materializeFinalize frameNumber op) (c.finalizeCost op)

end ComputeIntrinsic

end Quilibrium
