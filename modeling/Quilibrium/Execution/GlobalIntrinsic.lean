import Quilibrium.Execution.Engine

/-! # The global intrinsic

`ProverPause` and `ProverResume` of `node/execution/intrinsics/global`, with `UpdateAggregateProverStatus` and the accesses
to RDF fields of `types/schema` that they use. -/

namespace Quilibrium

/-! ### RDF fields -/

inductive RdfClass where
  | prover
  | allocation
  | reward
  deriving DecidableEq, Repr

/-- The fields of `GLOBAL_RDF_SCHEMA` that the operations use. -/
inductive RdfField where
  | publicKey
  | proverStatus
  | availableStorage
  | seniority
  | proverKickFrameNumber
  | prover
  | allocationStatus
  | confirmationFilter
  | joinFrameNumber
  | leaveFrameNumber
  | pauseFrameNumber
  | resumeFrameNumber
  | allocationKickFrameNumber
  | joinConfirmFrameNumber
  | joinRejectFrameNumber
  | leaveConfirmFrameNumber
  | leaveRejectFrameNumber
  | delegateAddress
  | balance
  deriving DecidableEq, Repr

namespace RdfField

def rdfClass : RdfField → RdfClass
  | .publicKey | .proverStatus | .availableStorage | .seniority | .proverKickFrameNumber => .prover
  | .delegateAddress | .balance => .reward
  | _ => .allocation

def order : RdfField → Nat
  | .publicKey => 0
  | .proverStatus => 1
  | .availableStorage => 2
  | .seniority => 3
  | .proverKickFrameNumber => 4
  | .prover => 0
  | .allocationStatus => 1
  | .confirmationFilter => 2
  | .joinFrameNumber => 4
  | .leaveFrameNumber => 5
  | .pauseFrameNumber => 6
  | .resumeFrameNumber => 7
  | .allocationKickFrameNumber => 8
  | .joinConfirmFrameNumber => 9
  | .joinRejectFrameNumber => 10
  | .leaveConfirmFrameNumber => 11
  | .leaveRejectFrameNumber => 12
  | .delegateAddress => 0
  | .balance => 1

/-- `OrderToKey`: all orders of the schema fit into six bits. -/
def key (field : RdfField) : Bytes := [UInt8.ofNat (field.order <<< 2)]

/-- `Get` of the `RDFMultiprover`. -/
def get (field : RdfField) (tree : VectorCommitmentTree) : Except Fault (Except String Bytes) := do
  let value ← tree.get field.key
  return value.mapError ("get: " ++ ·)

end RdfField

/-! ### The intrinsic -/

structure GlobalIntrinsic where
  crypto : Crypto
  /-- The poseidon hash of the global address, or for rewards that of the QUIL token, and the name of the class. -/
  typeHash : RdfClass → Except String Bytes
  /-- The poseidon hash of `PROVER_ALLOCATION`, the public key and the filter. -/
  allocationAddress : Bytes → Bytes → Except String Address
  /-- `ValidateSignature` under a key, of a message and a signature for the poseidon hash of the global address and a text. -/
  validateSignature : Bytes → Bytes → Bytes → String → Except String Bool

/-- `ProverPause` and `ProverResume`: the address and the signature are those of the addressed signature. -/
structure ProverRequest where
  filter : Bytes
  frameNumber : Nat
  address : Bytes
  signature : Bytes

/-- Where pausing and resuming an allocation differ. -/
structure AllocationChange where
  text : String
  required : UInt8
  status : UInt8
  field : RdfField
  refused : String
  timeout : Nat → VectorCommitmentTree → Except Fault (Option String)

/-- A step that may fail. The state has what was written before it failed. -/
abbrev IntrinsicM := ExceptT String (StateT HypergraphState (Except Fault))

namespace IntrinsicM

def outcome (m : IntrinsicM Unit) (s : HypergraphState) : Outcome := do
  match ← m.run.run s with
  | (.ok _, s) => return (s, none)
  | (.error err, s) => return (s, some err)

def ofFault {α : Type} (x : Except Fault α) : IntrinsicM α := ExceptT.lift (StateT.lift x)

def ofError {α : Type} : Except String α → IntrinsicM α
  | .ok a => return a
  | .error err => throw err

def wrapped {α : Type} (message : String) (m : IntrinsicM α) : IntrinsicM α := ExceptT.adapt (message ++ ": " ++ ·) m

def allocate (tree : VectorCommitmentTree) : IntrinsicM Nat := do
  let s ← get
  set (s.allocate tree)
  return s.next

def lookup (c : Crypto) (domain address : Bytes) (discriminator : Discriminator) :
    IntrinsicM (Except String HypergraphState.Got) := do
  let (s, got) := (← get).get c domain address discriminator
  set s
  return got

def fetch (c : Crypto) (address : Bytes) (notFound : String) : IntrinsicM Nat := do
  match ← lookup c globalIntrinsicAddress address .vertexAdds with
  | .error _ => throw notFound
  | .ok (.pending (some tree)) => return tree
  | .ok (.data tree) => allocate tree
  | .ok _ => throw "invalid object returned for vertex"

def prior (c : Crypto) (address : Bytes) : IntrinsicM (Option Nat) := do
  match ← lookup c globalIntrinsicAddress address .vertexAdds with
  | .ok (.pending tree) => return tree
  | .ok (.data tree) => return some (← allocate tree)
  | _ => return none

/-- A call that returns the state with an error. -/
def call (f : HypergraphState → HypergraphState × Option String) : IntrinsicM Unit := do
  let (s, err) := f (← get)
  set s
  match err with
  | some err => throw err
  | none => return ()

def setVertex (c : Crypto) (address : Address) (frameNumber : Nat) (prior : Option Nat) (data : Nat) : IntrinsicM Unit :=
  call fun s => s.set c globalIntrinsicAddress address.bytes .vertexAdds
    (.vertexAdd (HypergraphState.copy32 globalIntrinsicAddress) address frameNumber prior data)

end IntrinsicM

namespace GlobalIntrinsic
open IntrinsicM (fetch call setVertex lookup ofFault ofError wrapped)

variable (g : GlobalIntrinsic)

/-- The type of a tree is set with its first field and checked with the others. -/
def setType (rdfClass : RdfClass) (tree : VectorCommitmentTree) : Except Fault (VectorCommitmentTree × Option String) := do
  match ← tree.get (List.replicate 32 0xff), g.typeHash rdfClass with
  | _, .error err => return (tree, some ("set: " ++ err))
  | .error _, .ok typeBytes =>
    let (tree, err) ← tree.insert ⟨List.replicate 32 0xff, typeBytes, [], 32⟩
    return (tree, wrap "set" err)
  | .ok typeHash, .ok typeBytes =>
    return (tree, if typeHash = typeBytes then none else some "set: invalid type for existing tree")

/-- `Set` of the `RDFMultiprover`. -/
def rdfSet (field : RdfField) (value : Bytes) (tree : VectorCommitmentTree) :
    Except Fault (VectorCommitmentTree × Option String) := do
  match ← g.setType field.rdfClass tree with
  | (tree, some err) => return (tree, some err)
  | (tree, none) =>
    let (tree, err) ← tree.insert ⟨field.key, value, [], value.length⟩
    return (tree, wrap "set" err)

def readField (field : RdfField) (tree : Nat) : IntrinsicM Bytes := do
  ofError (← ofFault (field.get ((← get).heap tree)))

def writeField (field : RdfField) (value : Bytes) (tree : Nat) : IntrinsicM Unit := do
  let (tree', err) ← ofFault (g.rdfSet field value ((← get).heap tree))
  call fun s => ({ s with heap := Function.update s.heap tree tree' }, err)

def allocationStatus (key : Bytes) : IntrinsicM (Option UInt8) := do
  if key.take 32 ≠ globalIntrinsicAddress then
    throw "update aggregate prover status: hyperedge includes non prover allocation vertex"
  else
    match ← lookup g.crypto (key.take 32) (key.drop 32) .vertexAdds with
    | .error _ => return none
    | .ok (.pending none) => throw "update aggregate prover status: invalid object returned for vertex"
    | .ok (.pending (some tree)) => read ((← get).heap tree)
    | .ok (.data tree) => read tree
    | .ok (.hyperedge _) => throw "update aggregate prover status: invalid object returned for vertex"
where
  read (tree : VectorCommitmentTree) : IntrinsicM (Option UInt8) := do
    match ← ofFault (RdfField.allocationStatus.get tree) with
    | .error _ => return none
    | .ok value => return value.head?

/-- Active before joining, leaving, paused and left. -/
def aggregateStatus (statuses : List UInt8) : UInt8 :=
  if 1 ∈ statuses then 1 else if 0 ∈ statuses then 0 else if 3 ∈ statuses then 3 else if 2 ∈ statuses then 2 else 4

/-- `UpdateAggregateProverStatus`. The prior record is asserted to be a tree if there is none. -/
def updateAggregateProverStatus (proverAddress : Bytes) (frameNumber : Nat) (prover : Nat) : IntrinsicM Unit := do
  let address := (HypergraphState.copy32 proverAddress).bytes
  match ← lookup g.crypto globalIntrinsicAddress address .hyperedgeAdds with
  | .error _ => g.writeField .proverStatus [4] prover
  | .ok (.hyperedge value) =>
    match WireNode.toNode value.extTree with
    | none => ofFault (.error .logPanic)
    | some root =>
      let statuses ← root.leaves.mapM fun leaf => g.allocationStatus leaf.key
      wrapped "update aggregate prover status" (g.writeField .proverStatus [aggregateStatus statuses.reduceOption] prover)
      match ← lookup g.crypto globalIntrinsicAddress proverAddress .vertexAdds with
      | .error _ => ofFault (.error .typeAssertion)
      | .ok _ =>
        let dataAddress ← ofFault (HypergraphCRDT.toAddress proverAddress)
        wrapped "update aggregate prover status" (setVertex g.crypto dataAddress frameNumber none prover)
  | .ok _ => throw "update aggregate prover status: invalid object returned for hyperedge"

/-- `Materialize` of both operations. -/
def changeAllocation (change : AllocationChange) (p : ProverRequest) (frameNumber : Nat) : IntrinsicM Unit := do
  let prover ← fetch g.crypto (HypergraphState.copy32 p.address).bytes "prover not found"
  let publicKey ← readField .publicKey prover
  let allocationAddress ← ofError (g.allocationAddress publicKey p.filter)
  let allocation ← fetch g.crypto allocationAddress.bytes "allocation not found"
  g.writeField .allocationStatus [change.status] allocation
  g.writeField change.field (uint64BE p.frameNumber) allocation
  let prior ← IntrinsicM.prior g.crypto allocationAddress.bytes
  setVertex g.crypto allocationAddress frameNumber prior allocation
  g.updateAggregateProverStatus p.address frameNumber prover

/-- What `Verify` reads: the public key and the tree of the allocation. -/
def verifyAllocation (p : ProverRequest) (hg : HypergraphCRDT) : Except Fault (Except String (Bytes × VectorCommitmentTree)) := do
  let domain := HypergraphState.copy32 globalIntrinsicAddress
  let address ← HypergraphCRDT.toAddress p.address
  match (hg.getVertex g.crypto domain address).2, (hg.getVertexData g.crypto domain address).2 with
  | .error err, _ => return .error err
  | .ok _, .error err => return .error err
  | .ok _, .ok tree =>
    match ← RdfField.publicKey.get tree with
    | .error err => return .error err
    | .ok publicKey =>
      match g.allocationAddress publicKey p.filter with
      | .error err => return .error err
      | .ok allocationAddress =>
        match (hg.getVertexData g.crypto domain allocationAddress).2 with
        | .error _ => return .error "allocation not found"
        | .ok allocation => return .ok (publicKey, allocation)

/-- `Verify` of both operations: the error. The sets that a look-up creates are left out. -/
def verify (change : AllocationChange) (p : ProverRequest) (frameNumber : Nat) (hg : HypergraphCRDT) :
    Except Fault (Option String) := do
  match ← g.verifyAllocation p hg with
  | .error err => return some ("verify: " ++ err)
  | .ok (publicKey, allocation) =>
    match ← RdfField.allocationStatus.get allocation with
    | .error err => return some ("verify: " ++ err)
    | .ok statusBytes =>
      if statusBytes.headD 0 ≠ change.required then return some ("verify: " ++ change.refused)
      else
        match ← change.timeout frameNumber allocation with
        | some err => return some ("verify: " ++ err)
        | none =>
          match g.validateSignature publicKey (p.filter ++ uint64BE p.frameNumber) p.signature change.text with
          | .ok true => return none
          | _ => return some "verify: invalid signature"

def pause : AllocationChange where
  text := "PROVER_PAUSE"
  required := 1
  status := 2
  field := .pauseFrameNumber
  refused := "can only pause when allocation is active"
  timeout _ _ := .ok none

/-- `ProverResume`: a pause of more than 360 frames has timed out. -/
def resume : AllocationChange where
  text := "PROVER_RESUME"
  required := 2
  status := 1
  field := .resumeFrameNumber
  refused := "can only resume when allocation is paused"
  timeout frameNumber allocation := do
    match ← RdfField.pauseFrameNumber.get allocation with
    | .error _ => return some "missing pause frame"
    | .ok pauseFrameBytes =>
      if pauseFrameBytes.length ≠ 8 then return some "missing pause frame"
      else if 360 < ((frameNumber : Int) - bigEndian pauseFrameBytes) % 2 ^ 64 then
        return some "pause timeout exceeded, allocation has implicitly left"
      else return none

def invokeStep (change : AllocationChange) (p : ProverRequest) (frameNumber : Nat) (s : HypergraphState) : Outcome :=
  Outcome.wrap "invoke step" do
    match ← g.verify change p frameNumber s.hypergraph with
    | some err => return (s, some err)
    | none => Outcome.wrap "materialize" ((g.changeAllocation change p frameNumber).outcome s)

def changeOf : RequestKind → Option AllocationChange
  | .pause => some pause
  | .resume => some resume
  | _ => none

end GlobalIntrinsic

end Quilibrium
