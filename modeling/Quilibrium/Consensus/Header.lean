import Quilibrium.Time.Frame

/-! # Frame headers and their verification

The headers of frames, and `vdf/wesolowski_frame_prover.go`. The hash, the verifier of the delay function and the BLS
scheme are parameters. -/

namespace Quilibrium

/-- `BLS48581AggregateSignature`: a nil slice or key is `none`, and the key is its `KeyValue`. -/
structure AggregateSignature where
  signature : Option Bytes
  publicKey : Option Bytes
  bitmask : Option Bytes

structure GlobalFrameHeader where
  frameNumber : Nat
  timestamp : Int
  difficulty : Nat
  output : Bytes
  parentSelector : Bytes
  globalCommitments : List Bytes
  proverTreeCommitment : Bytes
  publicKeySignature : Option AggregateSignature

structure FrameHeader where
  address : Bytes
  frameNumber : Nat
  timestamp : Int
  difficulty : Nat
  output : Bytes
  parentSelector : Bytes
  requestsRoot : Bytes
  stateRoots : List Bytes
  prover : Bytes
  feeMultiplierVote : Nat
  publicKeySignature : Option AggregateSignature

/-- A `GlobalFrame` or `AppShardFrame` as it travels: the header and the request bundles. -/
structure FrameMessage (Header Bundle : Type) where
  header : Option Header
  requests : List Bundle

/-- The calls of `BlsConstructor` that are made: the public key of a new key, the public key of an aggregate, and the
    check of a signature (public key, signature, message, domain). -/
structure BlsConstructor where
  new : Except String Bytes
  aggregate : List Bytes → List Bytes → Except String Bytes
  verifySignatureRaw : Bytes → Bytes → Bytes → Bytes → Bool

/-- What verification rests on: SHA3-256, the verifier of the delay function (challenge, difficulty, proof) and BLS. -/
structure FrameCrypto where
  sha3 : Digest 32
  wesolowskiVerify : Bytes → Nat → Bytes → Bool
  bls : BlsConstructor

def wrapError (context message : String) : String := context ++ ": " ++ message

/-- Commitments take 74 bytes, or 64 where there is a hash only. -/
def isRootLength (root : Bytes) : Bool := root.length = 74 || root.length = 64

def int64BE (z : Int) : Bytes := uint64BE (z % 2 ^ 64).toNat

/-- `GetSetBitIndices`: indices are bytes. -/
def getSetBitIndices (mask : Bytes) : List UInt8 := (bitPositions mask.length (maskByte mask)).map UInt8.ofNat

def textBytes (s : String) : Bytes := s.toUTF8.toList

/-! ### Headers of app shards -/

namespace FrameHeader

/-- What is hashed: all of the header but output and signature. -/
def preimage (h : FrameHeader) : Bytes :=
  h.address ++ uint64BE h.frameNumber ++ int64BE h.timestamp ++ uint32BE h.difficulty ++ uint64BE h.feeMultiplierVote ++
    h.parentSelector ++ h.requestsRoot ++ h.stateRoots.flatten ++ h.prover

def getFrameSignaturePayload (c : FrameCrypto) (h : FrameHeader) : Except String Bytes :=
  if h.parentSelector.length ≠ 32 then .error (wrapError "get frame signature payload" "invalid selector")
  else if h.output.length ≠ 516 then .error (wrapError "get frame signature payload" "invalid output")
  else .ok (c.sha3.sum h.preimage ++ h.output)

def domain (h : FrameHeader) : Bytes := textBytes "shard" ++ h.address

def verifyFrameHeaderSignature (c : FrameCrypto) (h : FrameHeader) : Except Fault (Except String Bool) :=
  match h.getFrameSignaturePayload c with
  | .error e => .ok (.error (wrapError "verify frame header signature" e))
  | .ok payload =>
    match h.publicKeySignature.bind fun sig => sig.publicKey.map fun key => (key, sig.signature.getD []) with
    | none => .error .nilDereference
    | some (key, signature) =>
      if c.bls.verifySignatureRaw key signature payload h.domain then .ok (.ok true)
      else .ok (.error (wrapError "verify frame header signature" "invalid signature"))

/-- `VerifyFrameHeader`: the indices of the signers. -/
def verifyFrameHeader (c : FrameCrypto) (h : FrameHeader) : Except Fault (Except String (List UInt8)) :=
  let fails (message : String) := .ok (.error (wrapError "verify frame header" message))
  if h.address.isEmpty then fails "invalid address"
  else if !isRootLength h.requestsRoot then fails "invalid requests root length"
  else if h.stateRoots.length ≠ 4 then fails "invalid state roots count"
  else if !h.stateRoots.all isRootLength then fails "invalid state root length"
  else if h.prover.isEmpty then fails "invalid prover"
  else if h.frameNumber = 0 then .ok (.ok (List.replicate 32 0xff))
  else
    match h.getFrameSignaturePayload c with
    | .error e => fails e
    | .ok payload =>
      if !c.wesolowskiVerify (payload.take 32) h.difficulty (payload.drop 32) then fails "invalid proof"
      else
        match h.publicKeySignature with
        | none => .ok (.ok [])
        | some sig => do
          match ← h.verifyFrameHeaderSignature c with
          | .error e => fails e
          | .ok false => fails "invalid signature"
          | .ok true => return .ok (getSetBitIndices (sig.bitmask.getD []))

end FrameHeader

/-! ### Headers of global frames -/

namespace GlobalFrameHeader

def preimage (h : GlobalFrameHeader) : Bytes :=
  uint64BE h.frameNumber ++ int64BE h.timestamp ++ uint32BE h.difficulty ++ h.parentSelector ++
    h.globalCommitments.flatten ++ h.proverTreeCommitment

def getGlobalFrameSignaturePayload (c : FrameCrypto) (h : GlobalFrameHeader) : Except String Bytes :=
  if h.parentSelector.length ≠ 32 then .error (wrapError "get global frame signature payload" "invalid selector")
  else if h.output.length ≠ 516 then .error (wrapError "get global frame signature payload" "invalid output")
  else .ok (c.sha3.sum h.preimage ++ h.output)

/-- `VerifyGlobalFrameHeader`: the indices of the signers. The signature itself is only measured. -/
def verifyGlobalFrameHeader (c : FrameCrypto) (h : GlobalFrameHeader) : Except String (List UInt8) :=
  let fails (message : String) := .error (wrapError "verify global frame header" message)
  match h.publicKeySignature.bind fun sig => sig.publicKey.map fun key => (key, sig) with
  | none => fails "no valid signature provided"
  | some (key, sig) =>
    if key.length ≠ 585 || (sig.signature.getD []).length ≠ 74 then fails "no valid signature provided"
    else if h.globalCommitments.length ≠ 256 then fails "invalid global commitment length"
    else
      match h.globalCommitments.find? fun commitment => !isRootLength commitment with
      | some commitment => fails ("invalid global commitment length: " ++ toString commitment.length)
      | none =>
        if !isRootLength h.proverTreeCommitment then fails "invalid prover commitment length"
        else
          match h.getGlobalFrameSignaturePayload c with
          | .error e => fails e
          | .ok payload =>
            if !c.wesolowskiVerify (payload.take 32) h.difficulty (payload.drop 32) then fails "invalid proof"
            else .ok (getSetBitIndices (sig.bitmask.getD []))

def verifyGlobalHeaderSignature (c : FrameCrypto) (h : GlobalFrameHeader) : Except Fault (Except String Bool) :=
  match h.getGlobalFrameSignaturePayload c with
  | .error e => .ok (.error (wrapError "verify global frame header" e))
  | .ok payload =>
    match h.publicKeySignature.bind fun sig => sig.publicKey.map fun key => (key, sig.signature.getD []) with
    | none => .error .nilDereference
    | some (key, signature) =>
      if c.bls.verifySignatureRaw key signature payload (textBytes "global") then .ok (.ok true)
      else .ok (.error (wrapError "verify global frame header" "invalid signature"))

end GlobalFrameHeader

end Quilibrium
