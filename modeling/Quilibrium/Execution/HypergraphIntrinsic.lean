import Quilibrium.Execution.Engine

/-! # The hypergraph intrinsic

The four operations of `node/execution/intrinsics/hypergraph` and `InvokeStep`. -/

namespace Quilibrium

variable {Data : Type}

/-- The operations; `Data` are the verifiable encryptions that a vertex consists of. -/
inductive HypergraphOperation (Data : Type) where
  | vertexAdd (domain dataAddress : Address) (data : List Data) (signature : Bytes)
  | vertexRemove (domain dataAddress : Address) (signature : Bytes)
  | hyperedgeAdd (domain : Address) (value : Hyperedge) (signature : Bytes)
  | hyperedgeRemove (domain : Address) (value : Hyperedge) (signature : Bytes)

structure HypergraphIntrinsic (Data : Type) where
  crypto : Crypto
  verifyData : Data → Bool
  dataBytes : Data → Bytes
  /-- `EncryptedToVertexTree` of the compressed encryptions. -/
  vertexTree : List Data → VectorCommitmentTree
  /-- `ValidateSignature` under the write key, of a message and a signature for the domain followed by a text. -/
  validateSignature : Bytes → Bytes → Address → String → Except String Bool

namespace HypergraphOperation

def getCost : HypergraphOperation Data → Int
  | .vertexAdd _ _ data _ => data.length * 55
  | .vertexRemove _ _ _ => 64
  | .hyperedgeAdd _ value _ => value.getSize
  | .hyperedgeRemove _ _ _ => 64

end HypergraphOperation

namespace HypergraphIntrinsic

variable (h : HypergraphIntrinsic Data)

def checkSignature (message signature : Bytes) (domain : Address) (text : String) : Option String :=
  match h.validateSignature message signature domain text with
  | .error err => some ("verify: " ++ err)
  | .ok false => some "verify: invalid signature"
  | .ok true => none

def verify : HypergraphOperation Data → Option String
  | .vertexAdd domain dataAddress data signature =>
    if data.isEmpty then some "verify: missing data for vertex"
    else if !data.all h.verifyData then some "verify: invalid proof for data"
    else
      let bytes := data.flatMap h.dataBytes
      if 1024 * 1024 * 5 < bytes.length then some "verify: data too large"
      else h.checkSignature (domain.bytes ++ dataAddress.bytes ++ bytes) signature domain "VERTEX_ADD"
  | .vertexRemove domain dataAddress signature =>
    h.checkSignature (domain.bytes ++ dataAddress.bytes) signature domain "VERTEX_REMOVE"
  | .hyperedgeAdd domain value signature =>
    if value.getSize = 0 then some "verify: hyperedge must connect at least one atom"
    else if value.appAddress ≠ domain then some "verify: hyperedge domain mismatch"
    else
      let commitment := (value.extTree.commit h.crypto.sha512 h.crypto.prover false).1
      if commitment.isEmpty then some "verify: invalid commitment for hyperedge"
      else h.checkSignature (value.id ++ commitment) signature domain "HYPEREDGE_ADD"
  | .hyperedgeRemove domain value signature =>
    if value.appAddress ≠ domain then some "verify: hyperedge domain mismatch"
    else h.checkSignature value.id signature domain "HYPEREDGE_REMOVE"

/-- The prior data of a vertex, and the state in which it is at a pointer. -/
def priorData (s : HypergraphState) : Except String HypergraphState.Got → HypergraphState × Option Nat
  | .ok (.pending prior) => (s, prior)
  | .ok (.data tree) => (s.allocate tree, some s.next)
  | _ => (s, none)

/-- The prior tree of a hyperedge. What is pending is a tree, which the code takes for a hyperedge. -/
def priorExtrinsics (s : HypergraphState) : Except String HypergraphState.Got → Except Fault (HypergraphState × Option Nat)
  | .ok (.hyperedge value) =>
    match WireNode.toNode value.extTree with
    | none => .error .logPanic
    | some root => .ok (s.allocate ⟨root⟩, some s.next)
  | .ok _ => .error .typeAssertion
  | .error _ => .ok (s, none)

/-- `Materialize`. `Verify` has filled in the commitments of a hyperedge's tree. -/
def materialize (frameNumber : Nat) : HypergraphOperation Data → HypergraphState → Outcome
  | .vertexAdd domain dataAddress data _, s =>
    let (s, got) := s.get h.crypto domain.bytes dataAddress.bytes .vertexAdds
    let (s, prior) := priorData s got
    let (s', err) := (s.allocate (h.vertexTree data)).set h.crypto domain.bytes dataAddress.bytes .vertexAdds
      (.vertexAdd domain dataAddress frameNumber prior s.next)
    .ok (s', wrap "materialize" err)
  | .vertexRemove domain dataAddress _, s =>
    Outcome.wrap "materialize" (s.delete h.crypto domain.bytes dataAddress.bytes .vertexRemoves frameNumber)
  | .hyperedgeAdd domain value _, s => do
    let (s, got) := s.get h.crypto domain.bytes value.dataAddress.bytes .hyperedgeAdds
    let (s, prior) ← priorExtrinsics s got
    let (s', err) := (s.allocate (value.extTree.commit h.crypto.sha512 h.crypto.prover false).2).set h.crypto domain.bytes
      value.dataAddress.bytes .hyperedgeAdds (.hyperedgeAdd value.appAddress value.dataAddress s.next frameNumber prior)
    .ok (s', wrap "materialize" err)
  | .hyperedgeRemove domain value _, s =>
    Outcome.wrap "materialize" (s.delete h.crypto domain.bytes value.dataAddress.bytes .hyperedgeRemoves frameNumber)

def invokeStep (frameNumber : Nat) (feePaid feeMultiplier : Int) (op : HypergraphOperation Data) (s : HypergraphState) :
    Outcome :=
  Outcome.wrap "invoke step" <|
    match h.verify op with
    | some err => .ok (s, some err)
    | none =>
      if feePaid < op.getCost * feeMultiplier then
        .ok (s, some ("insufficient fee: " ++ toString feePaid ++ " < " ++ toString (op.getCost * feeMultiplier)))
      else h.materialize frameNumber op s

end HypergraphIntrinsic

end Quilibrium
