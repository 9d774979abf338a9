import Quilibrium.Consensus.Header

/-! # Frame validators

`BLSGlobalFrameValidator` and `BLSAppFrameValidator` of `node/consensus/validator`. What only goes to the log is left
out. -/

namespace Quilibrium

/-- What the validators read of a `ProverInfo`. -/
structure ProverKey where
  address : Bytes
  publicKey : Bytes

/-- The scheme and `GetActiveProvers`, with no filter for the global provers. -/
structure ValidatorEnv extends FrameCrypto where
  getActiveProvers : Option Bytes → Except String (List ProverKey)

/-- The keys of the provers whose index, as a byte, is among the indices. -/
def selectedKeys (bits : List UInt8) (provers : List ProverKey) : List Bytes :=
  (provers.zipIdx.filter fun (_, i) => bits.contains (UInt8.ofNat i)).map fun (prover, _) => prover.publicKey

/-- The end of both validators: the key of the header is the aggregate of the selected keys. The public key of a
    throwaway key stands in for the signatures. -/
def checkAggregate (bls : BlsConstructor) (throwaway : Bytes) (provers : List ProverKey) (bits : List UInt8)
    (key : Bytes) : Bool × Option String :=
  let activeProverSet := selectedKeys bits provers
  match bls.aggregate activeProverSet (activeProverSet.map fun _ => throwaway) with
  | .error e => (false, some (wrapError "validate" e))
  | .ok aggregate =>
    if aggregate ≠ key then (false, some (wrapError "validate" "could not verify aggregated keys")) else (true, none)

variable {Bundle : Type}

namespace BLSGlobalFrameValidator

def validate (env : ValidatorEnv) (frame : Option (FrameMessage GlobalFrameHeader Bundle)) : Bool × Option String :=
  match frame.bind FrameMessage.header with
  | none => (false, none)
  | some header =>
    if header.output.length ≠ 516 then (false, none)
    else if header.frameNumber = 0 then (true, none)
    else
      match header.publicKeySignature with
      | none => (false, none)
      | some sig =>
        match sig.signature, sig.publicKey, sig.bitmask with
        | some _, some key, some _ =>
          match header.verifyGlobalFrameHeader env.toFrameCrypto with
          | .error e => (false, some e)
          | .ok bits =>
            match env.bls.new with
            | .error e => (false, some (wrapError "validate" e))
            | .ok throwaway =>
              match env.getActiveProvers none with
              | .error e => (false, some (wrapError "validate" e))
              | .ok provers => checkAggregate env.bls throwaway provers bits key
        | _, _, _ => (false, none)

end BLSGlobalFrameValidator

namespace BLSAppFrameValidator

/-- `Validate`: an error of the header is not reported. -/
def validate (env : ValidatorEnv) (frame : Option (FrameMessage FrameHeader Bundle)) :
    Except Fault (Bool × Option String) :=
  match frame.bind FrameMessage.header with
  | none => .ok (false, none)
  | some header =>
    if header.address.isEmpty then .ok (false, none)
    else if header.stateRoots.length ≠ 4 then .ok (false, none)
    else if !header.stateRoots.all isRootLength then .ok (false, none)
    else do
      match ← header.verifyFrameHeader env.toFrameCrypto with
      | .error _ => return (false, none)
      | .ok bits =>
        match header.publicKeySignature with
        | none => return (true, none)
        | some sig =>
          match env.getActiveProvers (some header.address) with
          | .error e => return (false, some (wrapError "validate" e))
          | .ok provers =>
            match env.bls.new with
            | .error e => return (false, some (wrapError "validate" e))
            | .ok throwaway =>
              match sig.publicKey with
              | none =>
                -- the key is read after the aggregation
                match env.bls.aggregate (selectedKeys bits provers) ((selectedKeys bits provers).map fun _ => throwaway) with
                | .error e => return (false, some (wrapError "validate" e))
                | .ok _ => .error .nilDereference
              | some key => return checkAggregate env.bls throwaway provers bits key

end BLSAppFrameValidator

end Quilibrium
