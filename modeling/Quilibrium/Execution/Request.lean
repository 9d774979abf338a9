import Quilibrium.Tries.Nibble

/-! # Requests and fees

The requests of `protobufs/global.proto` as far as the execution engines look into them, and `node/execution/fees`. -/

namespace Quilibrium

inductive RequestKind
  | join | leave | pause | resume | confirm | reject | kick | update
  | tokenDeploy | tokenUpdate | transaction | pendingTransaction | mintTransaction
  | hypergraphDeploy | hypergraphUpdate | vertexAdd | vertexRemove | hyperedgeAdd | hyperedgeRemove
  | computeDeploy | computeUpdate | codeDeploy | codeExecute | codeFinalize
  deriving DecidableEq, Repr

/-- A `MessageRequest`. The domain and the fees are those of the three kinds of token transactions; what else the
    operation has is the payload. -/
structure MessageRequest (Payload : Type) where
  kind : RequestKind
  domain : Bytes
  fees : List Bytes
  payload : Payload

/-- A `MessageBundle`: a request of length 0 decodes to nil. -/
structure MessageBundle (Payload : Type) where
  requests : List (Option (MessageRequest Payload))
  timestamp : Int

variable {Payload : Type}

/-! ### Fees -/

/-- `Policy`: whose transactions produce fees, and which kinds consume one. -/
structure FeePolicy where
  producerDomain : Bytes
  consumes : RequestKind → Bool

/-- `DefaultFeeMarket`: mints and the operations of the global intrinsic are free. -/
def defaultFeeMarket (quilTokenAddress : Bytes) : FeePolicy where
  producerDomain := quilTokenAddress
  consumes
    | .tokenDeploy | .tokenUpdate | .transaction | .pendingTransaction | .computeDeploy | .computeUpdate | .codeDeploy
    | .codeExecute | .codeFinalize | .hypergraphDeploy | .hypergraphUpdate | .vertexAdd | .vertexRemove | .hyperedgeAdd
    | .hyperedgeRemove => true
    | _ => false

/-- `SetBytes` of a big integer. -/
def bigEndian (b : Bytes) : Int := b.foldl (fun n byte => n * 256 + byte.toNat) 0

def RequestKind.paysFees : RequestKind → Bool
  | .transaction | .pendingTransaction | .mintTransaction => true
  | _ => false

def collectBundleFees (policy : FeePolicy) (requests : List (MessageRequest Payload)) : List Int :=
  requests.flatMap fun op =>
    if op.kind.paysFees && op.domain == policy.producerDomain then (op.fees.filter (· ≠ [])).map bigEndian else []

def countFeeConsumers (policy : FeePolicy) (requests : List (MessageRequest Payload)) : Nat :=
  requests.countP fun op => policy.consumes op.kind

def sanityCheck (feeQueue : List Int) (consumers : Nat) : Option String :=
  if feeQueue.length < consumers then
    some ("sanity check: have " ++ toString feeQueue.length ++ " fee outputs, need " ++ toString consumers ++
      ": insufficient fees")
  else none

def popFee : List Int → Int × List Int
  | [] => (0, [])
  | fee :: queue => (fee, queue)

end Quilibrium
