import Quilibrium.Consensus.Header

/-! # The requests of an app shard frame

`calculateRequestsRoot` and `messagesToRequests` of `node/consensus/app/app_consensus_engine.go`. -/

namespace Quilibrium

/-- What is read of a `Message`: a nil hash is `none`. -/
structure Message where
  hash : Option Bytes
  payload : Bytes
  deriving DecidableEq

def requestItem (i : Nat) (hash : Bytes) : Item where
  key := uint64BE i
  value := hash
  hashTarget := []
  size := 0

/-- The loop of `calculateRequestsRoot`: messages without a hash are passed over. -/
def insertHashes : List (Message × Nat) → VectorCommitmentTree → Except Fault (Except String VectorCommitmentTree)
  | [], tree => .ok (.ok tree)
  | (msg, i) :: rest, tree =>
    match msg.hash with
    | none => insertHashes rest tree
    | some hash => do
      match ← tree.insert (requestItem i hash) with
      | (_, some e) => return .error (wrapError "calculate requests root" e)
      | (tree, none) => insertHashes rest tree

def calculateRequestsRoot (sha512 : Digest 64) (prover : InclusionProver) (messages : List Message) :
    Except Fault (Except String Bytes) :=
  if messages = [] then .ok (.ok (List.replicate 64 0))
  else do
    match ← insertHashes messages.zipIdx .empty with
    | .error e => return .error e
    | .ok tree =>
      let (commitment, _) := tree.commit sha512 prover false
      if !isRootLength commitment then return .error ("invalid commitment length " ++ toString commitment.length)
      else return .ok commitment

/-- `messagesToRequests`: payloads that `FromCanonicalBytes` does not decode are dropped. -/
def messagesToRequests {Bundle : Type} (fromCanonicalBytes : Bytes → Option Bundle) (messages : List Message) :
    List Bundle :=
  messages.filterMap fun msg => fromCanonicalBytes msg.payload

end Quilibrium
