import Quilibrium.Execution.Engine
import Mathlib.Data.Int.Init

/-! # The execution manager

`GetCost` and `ProcessMessage` of `node/execution/manager`, and `GetBaselineFee` of `node/consensus/reward`. -/

namespace Quilibrium

variable {Payload : Type}

/-- `FRAME_2_1_EXTENDED_ENROLL_CONFIRM_END`. -/
def enrollConfirmEnd : Nat := 252840 + 360

/-- What a manager is made with. The power of `PomwBasis` is a parameter, and so is what an engine does without a state:
    that depends on the operations. -/
structure ManagerEnv (Payload : Type) where
  execution : ExecutionEnv Payload
  network : Nat
  includeGlobal : Bool
  computeDomain : Bytes
  hypergraphDomain : Bytes
  tokenDomain : Bytes
  /-- `GetCost` of the engine for the kind. -/
  engineCost : MessageRequest Payload → Except Fault (Except String Int)
  /-- The value of `PomwBasis` for a difficulty, a world size other than 0 and units. -/
  pomw : Nat → Nat → Nat → Int
  withoutState : EngineName → Nat → Int → Bytes → ExecutionMessage Payload → HypergraphState → BundleOutcome

/-! ### Costs and fees -/

def quo (x y : Int) : Except Fault Int := if y = 0 then .error .divideByZero else .ok (x.tdiv y)

def uint64 (x : Int) : Nat := x.natAbs % 2 ^ 64

def int64 (n : Nat) : Int := (BitVec.ofNat 64 n).toInt

namespace ManagerEnv

variable (env : ManagerEnv Payload)

def pomwBasis (difficulty worldStateBytes units : Nat) : Except Fault Int :=
  if worldStateBytes = 0 then .error .divideByZero else .ok (env.pomw difficulty worldStateBytes units)

def getBaselineFee (difficulty worldStateBytes totalAdded units : Nat) : Except Fault Int := do
  let current ← env.pomwBasis difficulty worldStateBytes units
  let affected ← env.pomwBasis difficulty ((worldStateBytes + totalAdded) % 2 ^ 64) units
  let lhs ← quo ((current - affected) ^ 2) (int64 worldStateBytes)
  let rhs := int64 totalAdded
  return if rhs ≤ lhs then lhs else rhs

/-- `getRequestCost`: the operations of the global intrinsic are free. -/
def getRequestCost : Option (MessageRequest Payload) → Except Fault (Except String Int)
  | none => .error .nilDereference
  | some request =>
    if GlobalExecutionEngine.isGlobalOp request.kind then .ok (.ok 0) else env.engineCost request

/-- The sum of the costs, up to the first error. -/
def sumCosts : List (Option (MessageRequest Payload)) → Int → Except Fault (Except String Int)
  | [], sum => .ok (.ok sum)
  | request :: requests, sum => do
    match ← env.getRequestCost request with
    | .error err => return .error ("get cost: " ++ err)
    | .ok cost => sumCosts requests (sum + cost)

def getCost : ExecutionMessage Payload → Except Fault (Except String Int)
  | .tooShort => .ok (.error "get cost: invalid message")
  | .bundle none => .ok (.error "get cost: from canonical bytes")
  | .bundle (some bundle) => env.sumCosts bundle.requests 0
  | .request none => .ok (.error "get cost: from canonical bytes")
  | .request (some request) => do
    let cost ← env.getRequestCost (some request)
    return cost.mapError ("get cost: " ++ ·)
  | .other => .ok (.error "get cost: invalid message type")

/-! ### Routing -/

def engineOf (address route : Bytes) : Except String EngineName :=
  if route = env.computeDomain then .ok .compute
  else if route = env.hypergraphDomain then .ok .hypergraph
  else if route = env.tokenDomain ∨ route = env.execution.quilTokenAddress then .ok .token
  else .error ("process message: no execution engine found for address: " ++ VectorCommitmentTree.hex address)

def typeDomain (address : Bytes) (s : HypergraphState) : Except Fault (HypergraphState × Except String Bytes) := do
  let metadata := address ++ List.replicate 32 0xff
  let appAddress ← HypergraphCRDT.toAddress metadata
  let dataAddress ← HypergraphCRDT.toAddress (metadata.drop 32)
  match s.hypergraph.getVertexData env.execution.crypto appAddress dataAddress with
  | (hypergraph, .error _) =>
    return ({ s with hypergraph }, .error ("process message: no execution engine found for address: " ++ VectorCommitmentTree.hex address))
  | (hypergraph, .ok vertTree) =>
    let domain ← vertTree.get (List.replicate 32 0xff)
    return ({ s with hypergraph }, domain.mapError ("process message: " ++ ·))

/-- The engine that `ProcessMessage` chooses. -/
def route (frameNumber : Nat) (address : Bytes) (s : HypergraphState) :
    Except Fault (HypergraphState × Except String EngineName) :=
  if address = globalIntrinsicAddress then
    .ok (s, if env.includeGlobal then .ok .global else .error "process message: global execution engine not found")
  else if env.network = 0 ∧ frameNumber ≤ enrollConfirmEnd then
    .ok (s, .error "process message: enrollment period has not ended")
  else if address = env.computeDomain ∨ address = env.hypergraphDomain ∨ address = env.tokenDomain ∨
      address = env.execution.quilTokenAddress then
    .ok (s, env.engineOf address address)
  else do
    let (s, domain) ← env.typeDomain address s
    return (s, domain.bind (env.engineOf address))

/-- `selectEngine`, by which `ValidateMessage` chooses. -/
def selectEngine (address : Bytes) : Option EngineName :=
  if address = globalIntrinsicAddress then if env.includeGlobal then some .global else none
  else if 32 ≤ address.length then
    if address.take 32 = env.computeDomain then some .compute
    else if address.take 32 = env.hypergraphDomain then some .hypergraph
    else if address.take 32 = env.execution.quilTokenAddress ∨ address.take 32 = env.tokenDomain then some .token
    else none
  else none

def processMessage (frameNumber : Nat) (feeMultiplier : Int) (address : Bytes) (message : ExecutionMessage Payload)
    (hasState : Bool) (s : HypergraphState) : BundleOutcome := do
  match ← env.route frameNumber address s with
  | (s, .error err) => return (s, .error err)
  | (s, .ok engine) =>
    if hasState then engine.processMessage env.execution frameNumber feeMultiplier address message s
    else env.withoutState engine frameNumber feeMultiplier address message s

end ManagerEnv

end Quilibrium
