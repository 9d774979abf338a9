import Quilibrium.Execution.Request
import Quilibrium.Hypergraph.State

/-! # Execution engines

`handleBundle` and `processIndividualMessage` of the four engines of `node/execution/engines`. A call returns the state
with the error. The caches of loaded intrinsics are left out. -/

namespace Quilibrium

variable {Payload : Type}

def globalIntrinsicAddress : Bytes := List.replicate 32 0xff

structure Operation (Payload : Type) where
  frameNumber : Nat
  feePaid : Int
  feeMultiplier : Int
  address : Bytes
  request : MessageRequest Payload

/-- What an engine gets from its intrinsics. `prepare` is the error of what comes before a step: the payload is encoded,
    the intrinsic is loaded and validates the payload. `invoke` is `InvokeStep`, and `handleDeploy` for deployments and
    updates. An operation appends to the changeset, and one that succeeds has appended something. -/
structure Intrinsics (Payload : Type) where
  prepare : Operation Payload → HypergraphState → Option String
  invoke : Operation Payload → HypergraphState → Except Fault (HypergraphState × Option String)
  invoke_extends : ∀ {op s s' err}, invoke op s = .ok (s', err) → s.changeset <+: s'.changeset
  invoke_writes : ∀ {op s s'}, invoke op s = .ok (s', none) → s.changeset.length < s'.changeset.length

/-- What the engines are made with: the mode, the address of the QUIL token and the intrinsics of each engine. -/
structure ExecutionEnv (Payload : Type) where
  crypto : Crypto
  fuel : Nat
  globalMode : Bool
  quilTokenAddress : Bytes
  global : Intrinsics Payload
  token : Intrinsics Payload
  hypergraph : Intrinsics Payload
  compute : Intrinsics Payload

abbrev Outcome := Except Fault (HypergraphState × Option String)

/-- The state, and the error of a bundle or whether it had an operation for the engine. -/
abbrev BundleOutcome := Except Fault (HypergraphState × Except String Bool)

def Outcome.wrap (message : String) (o : Outcome) : Outcome :=
  o.map fun (s, err) => (s, Quilibrium.wrap message err)

def Outcome.andThen (o : Outcome) (next : HypergraphState → Outcome) : Outcome :=
  o.bind fun (s, err) =>
    match err with
    | some err => .ok (s, some err)
    | none => next s

def Intrinsics.step (I : Intrinsics Payload) (op : Operation Payload) (s : HypergraphState) : Outcome :=
  match I.prepare op s with
  | some err => .ok (s, some err)
  | none => I.invoke op s

/-! ### The global engine -/

namespace GlobalExecutionEngine

def isGlobalOp : RequestKind → Bool
  | .update | .join | .leave | .pause | .resume | .confirm | .reject | .kick => true
  | _ => false

/-- `processIndividualMessage`: every operation is committed at once. -/
def processIndividualMessage (env : ExecutionEnv Payload) (frameNumber : Nat) (feeMultiplier : Int) (address : Bytes)
    (message : MessageRequest Payload) (s : HypergraphState) : Outcome :=
  Outcome.wrap "process individual message" <|
    if !isGlobalOp message.kind then .ok (s, some "unsupported message type")
    else if address ≠ globalIntrinsicAddress then .ok (s, some "invalid address for global execution engine")
    else Outcome.andThen (env.global.step ⟨frameNumber, 0, feeMultiplier, address, message⟩ s) fun s =>
      Outcome.wrap "commit" (s.commit env.crypto env.fuel)

def handleOps (env : ExecutionEnv Payload) (frameNumber : Nat) (feeMultiplier : Int) (address : Bytes) :
    List (Option (MessageRequest Payload)) → Bool → HypergraphState → BundleOutcome
  | [], processed, s => .ok (s, .ok processed)
  | none :: _, _, _ => .error .nilDereference
  | some op :: ops, processed, s =>
    if !isGlobalOp op.kind then handleOps env frameNumber feeMultiplier address ops processed s
    else do
      match ← processIndividualMessage env frameNumber feeMultiplier address op s with
      | (s, some err) => return (s, .error ("handle bundle: " ++ err))
      | (s, none) => handleOps env frameNumber feeMultiplier address ops true s

/-- `handleBundle`; a bundle that does not decode is `none`. -/
def handleBundle (env : ExecutionEnv Payload) (frameNumber : Nat) (feeMultiplier : Int) (address : Bytes)
    (bundle : Option (MessageBundle Payload)) (s : HypergraphState) : BundleOutcome :=
  match bundle with
  | none => .ok (s, .error "handle bundle: from canonical bytes")
  | some bundle => handleOps env frameNumber feeMultiplier address bundle.requests false s

end GlobalExecutionEngine

/-! ### The engines that charge fees -/

/-- Where the token, the hypergraph and the compute engine differ. -/
structure FeeEngine (Payload : Type) where
  intrinsics : ExecutionEnv Payload → Intrinsics Payload
  isOwnOp : RequestKind → Bool
  isDeploy : RequestKind → Bool
  domain : Bytes → MessageRequest Payload → Bytes
  commits : Bool
  /-- The address for the operations after this one, given the length of the changeset before it, or an error. -/
  nextAddress : MessageRequest Payload → Nat → HypergraphState → Bytes → Except String Bytes

namespace FeeEngine

variable (E : FeeEngine Payload) (env : ExecutionEnv Payload)

/-- In global mode no operation is allowed once the domain has metadata. -/
def checkMode (domain : Bytes) (fromBundle : Bool) (s : HypergraphState) : Outcome :=
  if !env.globalMode then .ok (s, none)
  else
    let id := domain ++ List.replicate 32 0xff
    do
      let appAddress ← HypergraphCRDT.toAddress id
      let dataAddress ← HypergraphCRDT.toAddress (id.drop 32)
      let (hypergraph, vertex) := s.hypergraph.getVertex env.crypto appAddress dataAddress
      return ({ s with hypergraph }, if vertex.isOk || !fromBundle then
        some "non-deploy messages not allowed in global mode" else none)

/-- The part of `processIndividualMessage` for operations that are no deployments. -/
def performStep (op : Operation Payload) (fromBundle : Bool) (s : HypergraphState) : Outcome :=
  Outcome.andThen (checkMode env op.address fromBundle s) ((E.intrinsics env).step op)

def processIndividualMessage (frameNumber : Nat) (feePaid feeMultiplier : Int) (address : Bytes)
    (message : MessageRequest Payload) (fromBundle : Bool) (s : HypergraphState) : Outcome :=
  let op := ⟨frameNumber, feePaid, feeMultiplier, E.domain address message, message⟩
  if !E.isOwnOp message.kind then .ok (s, some "process individual message: unsupported message type")
  else if E.isDeploy message.kind then
    if fromBundle then (E.intrinsics env).invoke op s
    else .ok (s, some "process individual message: deploy or update messages must be bundled")
  else Outcome.wrap "process individual message" <|
    if E.commits then
      Outcome.andThen (E.performStep env op fromBundle s) fun s => Outcome.wrap "commit" (s.commit env.crypto env.fuel)
    else E.performStep env op fromBundle s

/-- The loop over the requests from number `i` on, with the fees that are left. -/
def handleOps (frameNumber : Nat) (feeMultiplier : Int) :
    List (MessageRequest Payload) → Nat → List Int → Bytes → Bool → HypergraphState → BundleOutcome
  | [], _, _, _, processed, s => .ok (s, .ok processed)
  | op :: ops, i, feeQueue, address, processed, s =>
    let needsOneFee := (defaultFeeMarket env.quilTokenAddress).consumes op.kind
    if !E.isOwnOp op.kind then
      handleOps frameNumber feeMultiplier ops (i + 1) (if needsOneFee then (popFee feeQueue).2 else feeQueue) address
        processed s
    else if needsOneFee && feeQueue.isEmpty then
      .ok (s, .error ("handle bundle: op " ++ toString i ++ " required a fee but none left: fee underflow"))
    else
      let (feeForOp, feeQueue) := if needsOneFee then popFee feeQueue else (0, feeQueue)
      do
        match ← E.processIndividualMessage env frameNumber feeForOp feeMultiplier address op true s with
        | (s', some err) => return (s', .error ("handle bundle: operation " ++ toString i ++ " failed: " ++ err))
        | (s', none) =>
          match E.nextAddress op s.changeset.length s' address with
          | .error err => return (s', .error err)
          | .ok address => handleOps frameNumber feeMultiplier ops (i + 1) feeQueue address true s'

/-- `handleBundle`; a bundle that does not decode is `none`. A nil request panics while the fees are collected. -/
def handleBundle (frameNumber : Nat) (feeMultiplier : Int) (address : Bytes) (bundle : Option (MessageBundle Payload))
    (s : HypergraphState) : BundleOutcome :=
  match bundle with
  | none => .ok (s, .error "handle bundle: from canonical bytes")
  | some bundle =>
    match bundle.requests.mapM id with
    | none => .error .nilDereference
    | some requests =>
      let policy := defaultFeeMarket env.quilTokenAddress
      let feeQueue := collectBundleFees policy requests
      match sanityCheck feeQueue (countFeeConsumers policy requests) with
      | some err => .ok (s, .error ("handle bundle: " ++ err))
      | none => E.handleOps env frameNumber feeMultiplier requests 0 feeQueue address false s

end FeeEngine

namespace TokenExecutionEngine

def isTokenOp : RequestKind → Bool
  | .tokenDeploy | .tokenUpdate | .transaction | .mintTransaction | .pendingTransaction => true
  | _ => false

def isDeploy : RequestKind → Bool
  | .tokenDeploy | .tokenUpdate => true
  | _ => false

def engine : FeeEngine Payload where
  intrinsics := ExecutionEnv.token
  isOwnOp := isTokenOp
  isDeploy := isDeploy
  domain address message := if message.kind.paysFees then message.domain else address
  commits := false
  nextAddress _ _ _ address := .ok address

def handleBundle (env : ExecutionEnv Payload) := engine.handleBundle env

end TokenExecutionEngine

namespace HypergraphExecutionEngine

def isHypergraphOp : RequestKind → Bool
  | .hypergraphDeploy | .hypergraphUpdate | .vertexAdd | .vertexRemove | .hyperedgeAdd | .hyperedgeRemove => true
  | _ => false

def isDeploy : RequestKind → Bool
  | .hypergraphDeploy | .hypergraphUpdate => true
  | _ => false

def engine : FeeEngine Payload where
  intrinsics := ExecutionEnv.hypergraph
  isOwnOp := isHypergraphOp
  isDeploy := isDeploy
  domain address _ := address
  commits := true
  nextAddress _ _ _ address := .ok address

def handleBundle (env : ExecutionEnv Payload) := engine.handleBundle env

end HypergraphExecutionEngine

namespace ComputeExecutionEngine

def isComputeOp : RequestKind → Bool
  | .computeDeploy | .computeUpdate | .codeDeploy | .codeExecute | .codeFinalize => true
  | _ => false

def isDeploy : RequestKind → Bool
  | .computeDeploy | .computeUpdate => true
  | _ => false

/-- After a deployment the operations are for the domain of the last change. -/
def movingAddress (message : MessageRequest Payload) (changesetLen : Nat) (s : HypergraphState) (address : Bytes) :
    Except String Bytes :=
  if message.kind ≠ .computeDeploy then .ok address
  else if s.changeset.length = changesetLen then .error "handle bundle: deploy did not produce changeset"
  else .ok ((s.changeset.getLast?.map StateChange.domain).getD address)

def engine : FeeEngine Payload where
  intrinsics := ExecutionEnv.compute
  isOwnOp := isComputeOp
  isDeploy := isDeploy
  domain address _ := address
  commits := false
  nextAddress := movingAddress

def handleBundle (env : ExecutionEnv Payload) := engine.handleBundle env

end ComputeExecutionEngine

/-! ### Messages -/

/-- What the bytes of a message can be; a bundle or request that does not decode is `none`. -/
inductive ExecutionMessage (Payload : Type) where
  | tooShort
  | bundle (bundle : Option (MessageBundle Payload))
  | request (request : Option (MessageRequest Payload))
  | other

inductive EngineName where
  | global
  | token
  | hypergraph
  | compute
  deriving DecidableEq, Repr

namespace EngineName

def handleBundle (env : ExecutionEnv Payload) : EngineName → Nat → Int → Bytes → Option (MessageBundle Payload) →
    HypergraphState → BundleOutcome
  | .global => GlobalExecutionEngine.handleBundle env
  | .token => TokenExecutionEngine.handleBundle env
  | .hypergraph => HypergraphExecutionEngine.handleBundle env
  | .compute => ComputeExecutionEngine.handleBundle env

/-- `processIndividualMessage` for a request on its own; the hypergraph engine takes bundles only. -/
def handleRequest (env : ExecutionEnv Payload) : EngineName → Nat → Int → Bytes → MessageRequest Payload →
    HypergraphState → Outcome
  | .global, frameNumber, feeMultiplier, address, request, s =>
    GlobalExecutionEngine.processIndividualMessage env frameNumber feeMultiplier address request s
  | .token, frameNumber, feeMultiplier, address, request, s =>
    TokenExecutionEngine.engine.processIndividualMessage env frameNumber 0 feeMultiplier address request false s
  | .hypergraph, _, _, _, _, s => .ok (s, some "unsupported message type")
  | .compute, frameNumber, feeMultiplier, address, request, s =>
    ComputeExecutionEngine.engine.processIndividualMessage env frameNumber 0 feeMultiplier address request false s

/-- `ProcessMessage`. The result has a state unless it is that of a bundle without an operation for the engine. -/
def processMessage (env : ExecutionEnv Payload) (engine : EngineName) (frameNumber : Nat) (feeMultiplier : Int)
    (address : Bytes) (message : ExecutionMessage Payload) (s : HypergraphState) : BundleOutcome :=
  match message with
  | .tooShort => .ok (s, .error "process message: invalid message")
  | .bundle bundle => do
    let (s, result) ← engine.handleBundle env frameNumber feeMultiplier address bundle s
    return (s, result.mapError ("process message: " ++ ·))
  | .request none =>
    .ok (s, .error (if engine = .hypergraph then "process message: unsupported message type" else "process message"))
  | .request (some request) => do
    match ← engine.handleRequest env frameNumber feeMultiplier address request s with
    | (s, some err) => return (s, .error ("process message: " ++ err))
    | (s, none) => return (s, .ok true)
  | .other => .ok (s, .error "process message: unsupported message type")

end EngineName

end Quilibrium
