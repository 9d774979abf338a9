import Quilibrium.Consensus.Validator
import Quilibrium.Execution.Engine

/-! # The evidence of a kick

`ProverKick.Verify` and `verifyEquivocation` of `global_prover_kick.go`. Decoding, the registry, the poseidon hash and the
verifiers of proofs are parameters. -/

namespace Quilibrium

/-- A nil traversal proof is `none`. -/
structure ProverKick where
  frameNumber : Nat
  kickedProverPublicKey : Bytes
  conflictingFrame1 : Bytes
  conflictingFrame2 : Bytes
  commitment : Bytes
  proof : Bytes
  traversalProof : Option TraversalProof

structure KickEnv extends FrameCrypto where
  sha512 : Digest 64
  prover : InclusionProver
  poseidon : Bytes → Except String Address
  /-- `FromCanonicalBytes` of the two kinds of headers. -/
  frameHeaderFromBytes : Bytes → Option FrameHeader
  globalFrameHeaderFromBytes : Bytes → Option GlobalFrameHeader
  /-- `GetActiveProvers` of the registry; the empty filter gives the global provers. -/
  getActiveProvers : Bytes → Except String (List ProverKey)
  /-- `VerifyTraversalProof` for the vertices added to the global shard. -/
  verifyTraversalProof : TraversalProof → Except Fault Bool

inductive ConflictingFrame where
  | shard (header : FrameHeader)
  | global (header : GlobalFrameHeader)

namespace ConflictingFrame

def frameNumber : ConflictingFrame → Nat
  | shard header => header.frameNumber
  | global header => header.frameNumber

def filter : ConflictingFrame → Bytes
  | shard header => header.address
  | global _ => []

def output : ConflictingFrame → Bytes
  | shard header => header.output
  | global header => header.output

def signature : ConflictingFrame → Option AggregateSignature
  | shard header => header.publicKeySignature
  | global header => header.publicKeySignature

def bitmask (frame : ConflictingFrame) : Bytes := (frame.signature.bind AggregateSignature.bitmask).getD []

def verifyHeaderSignature (c : FrameCrypto) : ConflictingFrame → Except Fault (Except String Bool)
  | shard header => header.verifyFrameHeaderSignature c
  | global header => header.verifyGlobalHeaderSignature c

/-- `valid && err == nil`. -/
def verifySignature (c : FrameCrypto) (frame : ConflictingFrame) : Except Fault Bool := do
  let answer ← frame.verifyHeaderSignature c
  return answer.toOption.getD false

def hasSigner (frame : ConflictingFrame) (index : Nat) : Bool :=
  hasBit (maskByte frame.bitmask (index / 8)) (index % 8)

end ConflictingFrame

def frameHeaderType : Nat := 0x030A

def globalFrameHeaderType : Nat := 0x0309

/-- `binary.BigEndian.Uint32` of the first four bytes. -/
def frameType (b : Bytes) : Nat := natOfBE (b.take 4)

namespace KickEnv

/-- The frame of a known type. A frame of another type has no number, no filter and no output. -/
def parseFrame (env : KickEnv) (b : Bytes) : Option ConflictingFrame :=
  if frameType b = frameHeaderType then (env.frameHeaderFromBytes b).map .shard
  else if frameType b = globalFrameHeaderType then (env.globalFrameHeaderFromBytes b).map .global
  else none

/-- `GetPolySizeForMaxOrder` for the schema of the global intrinsic. -/
def polySize : Nat := 64

/-- `VerifyWithType` of the fields `PublicKey` and `Status` of the prover, whose keys are `0` and `1 << 2`. -/
def verifyFields (env : KickEnv) (commit proof : Bytes) (data : List Bytes) : Except String Bool :=
  let evaluations := ([[0], [4]].zip data).map fun (key, value) => env.sha512.sum (0 :: (key ++ value))
  match env.prover.multiproofFromBytes proof with
  | .error e => .error (wrapError "verify" e)
  | .ok multiproof =>
    .ok (env.prover.verifyMultiple [commit, commit] evaluations [0, 1] polySize multiproof.multicommitment
      multiproof.proof)

end KickEnv

namespace ProverKick

/-- The end of `verifyEquivocation`: the prover has the same bit in both bitmasks. The error of the hash is not looked
    at, so that there is no number to write out. -/
def hasOverlap (env : KickEnv) (frame1 frame2 : ConflictingFrame) (kickedPublicKey : Bytes) : Except Fault Bool :=
  match env.poseidon kickedPublicKey with
  | .error _ => .error .nilDereference
  | .ok proverAddr =>
    match env.getActiveProvers frame1.filter with
    | .error _ => .ok false
    | .ok info =>
      match info.findIdx? fun inf => inf.address == proverAddr.bytes with
      | none => .ok false
      | some index => .ok (frame1.hasSigner index && frame2.hasSigner index)

def verifyEquivocation (env : KickEnv) (p : ProverKick) : Except Fault Bool :=
  if p.conflictingFrame1.length < 4 ∨ p.conflictingFrame2.length < 4 then .ok false
  else if frameType p.conflictingFrame1 ≠ frameType p.conflictingFrame2 then .ok false
  else if p.conflictingFrame1 = p.conflictingFrame2 then .ok false
  else
    match env.parseFrame p.conflictingFrame1, env.parseFrame p.conflictingFrame2 with
    | some frame1, some frame2 =>
      if frame1.signature.isNone || frame2.signature.isNone then .ok false
      else do
        if !(← frame1.verifySignature env.toFrameCrypto) then return false
        if !(← frame2.verifySignature env.toFrameCrypto) then return false
        if frame1.frameNumber ≠ frame2.frameNumber then return false
        if frame1.filter ≠ frame2.filter then return false
        if frame1.output = frame2.output then return false
        hasOverlap env frame1 frame2 p.kickedProverPublicKey
    | _, _ => .ok false

def verify (env : KickEnv) (p : ProverKick) : Except Fault (Option String) := do
  if !(← p.verifyEquivocation env) then return some (wrapError "verify" "no equivocation detected")
  match p.traversalProof with
  | none => .error .nilDereference
  | some traversalProof =>
    let validTraversal ← env.verifyTraversalProof traversalProof
    if !validTraversal || p.proof.isEmpty then return some (wrapError "verify" "invalid multiproof")
    match env.prover.multiproofFromBytes p.proof with
    | .error e => return some (wrapError "verify" e)
    | .ok _ =>
      match env.verifyFields p.commitment p.proof [p.kickedProverPublicKey, [1]] with
      | .error e => return some (wrapError "verify" e)
      | .ok false => return some (wrapError "verify" "invalid multiproof")
      | .ok true => return none

end ProverKick

end Quilibrium
