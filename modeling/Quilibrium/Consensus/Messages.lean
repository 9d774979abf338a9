import Quilibrium.Consensus.Voting

/-! # Handlers of consensus messages

`handleVote` and `handleConfirmation` of both engines (`node/consensus/{global,app}/message_processors.go`). A message
that does not decode is `none`. -/

namespace Quilibrium

variable {Bundle : Type}

/-- What the handlers of an engine use: the scheme, `GetActiveProvers` and Poseidon in 32 bytes. -/
structure EngineEnv extends ValidatorEnv where
  poseidon : Digest 32

def EngineEnv.getAddressFromPublicKey (env : EngineEnv) (publicKey : Bytes) : Bytes := env.poseidon.sum publicKey

/-- `frameStore`: the entries in the order in which a loop visits them. -/
structure FrameStore (Header Bundle : Type) where
  entries : List (Bytes × FrameMessage Header Bundle)
  nodup : (entries.map Prod.fst).Nodup

/-- The stored frame is changed where it is. -/
def FrameStore.update {Header : Type} (store : FrameStore Header Bundle) (id : Bytes) (frame : FrameMessage Header Bundle) :
    FrameStore Header Bundle where
  entries := store.entries.map fun entry => if entry.1 = id then (entry.1, frame) else entry
  nodup := by
    have hkeys : ∀ entry : Bytes × FrameMessage Header Bundle,
        Prod.fst (if entry.1 = id then (entry.1, frame) else entry) = entry.1 := by
      intro entry
      split_ifs <;> rfl
    simpa only [List.map_map, Function.comp_def, hkeys] using store.nodup

/-! ### Votes -/

/-- A `FrameVote` as it travels. No handler reads `Approve`. -/
structure VoteMessage extends FrameVote where
  approve : Bool

def AddressedSignature.validate (s : AddressedSignature) : Option String :=
  if (s.address.getD []).length ≠ 32 then some (wrapError "validate" "invalid address")
  else if (s.signature.getD []).length ≠ 74 then some (wrapError "validate" "invalid bls48581 signature")
  else none

def FrameVote.validate (vote : FrameVote) : Option String :=
  if vote.proposer.length ≠ 32 then some (wrapError "validate" "invalid proposer length")
  else
    match vote.publicKeySignature with
    | none => some (wrapError "validate" "missing signature")
    | some s => s.validate.map (wrapError "validate")

structure VoteCall where
  proposer : Bytes
  voter : Bytes
  vote : VoteMessage

namespace GlobalConsensusEngine

def isProposal (env : EngineEnv) (vote : FrameVote) (frame : FrameMessage GlobalFrameHeader Bundle) : Except Fault Bool :=
  match frame.header with
  | none => .ok false
  | some header =>
    if header.frameNumber ≠ vote.frameNumber then .ok false
    else
      match GlobalVotingProvider.proposerKey frame with
      | none => .error .nilDereference
      | some key => .ok (env.getAddressFromPublicKey key == vote.proposer)

/-- The key of the first active prover with the address, if it is not nil. -/
def voterPublicKey (provers : List ProverKey) (address : Bytes) : Option Bytes :=
  (provers.find? fun prover => prover.address == address).bind fun prover =>
    if prover.publicKey = [] then none else some prover.publicKey

def checkVote (env : EngineEnv) (key signature : Bytes) (frame : FrameMessage GlobalFrameHeader Bundle) : Bool :=
  match frame.header with
  | none => false
  | some header =>
    match header.getGlobalFrameSignaturePayload env.toFrameCrypto with
    | .error _ => false
    | .ok payload => env.bls.verifySignatureRaw key signature payload (textBytes "global")

def handleVote (env : EngineEnv) (frameStore : FrameStore GlobalFrameHeader Bundle) (message : Option VoteMessage) :
    Except Fault (Option VoteCall) :=
  match message with
  | none => .ok none
  | some vote =>
    if vote.validate.isSome then .ok none
    else
      match vote.publicKeySignature with
      | none => .ok none
      | some s =>
        match env.getActiveProvers none with
        | .error _ => .ok none
        | .ok proverSet =>
          match voterPublicKey proverSet (s.address.getD []) with
          | none => .ok none
          | some key => do
            match ← (frameStore.entries.map Prod.snd).findM? (isProposal env vote.toFrameVote) with
            | none => return none
            | some proposalFrame =>
              if checkVote env key (s.signature.getD []) proposalFrame then
                return some ⟨vote.proposer, s.address.getD [], vote⟩
              else return none

end GlobalConsensusEngine

namespace AppConsensusEngine

def handleVote (message : Option VoteMessage) : Option VoteCall :=
  message.bind fun vote => vote.publicKeySignature.map fun s => ⟨vote.proposer, s.address.getD [], vote⟩

end AppConsensusEngine

/-! ### Confirmations -/

structure FrameConfirmation where
  frameNumber : Nat
  selector : Bytes
  aggregateSignature : Option AggregateSignature

def FrameConfirmation.validate (confirmation : FrameConfirmation) : Option String :=
  if confirmation.selector.length ≠ 32 then
    some (wrapError "validate" ("invalid selector length: " ++ toString confirmation.selector.length))
  else if confirmation.aggregateSignature.isNone then some (wrapError "validate" "missing aggregate signature")
  else none

/-- A call that a confirmation leads to. -/
inductive ConfirmationCall (Frame : Type)
  | receiveConfirmation (proposer : Bytes) (frame : Frame)
  | insert (frame : Frame)

namespace GlobalConsensusEngine

def isConfirmed (confirmation : FrameConfirmation) (entry : Bytes × FrameMessage GlobalFrameHeader Bundle) : Bool :=
  entry.2.header.any fun header =>
    header.frameNumber == confirmation.frameNumber && entry.1 == confirmation.selector

def withSignature (frame : FrameMessage GlobalFrameHeader Bundle) (s : Option AggregateSignature) :
    FrameMessage GlobalFrameHeader Bundle :=
  { frame with header := frame.header.map fun header => { header with publicKeySignature := s } }

def signature (frame : FrameMessage GlobalFrameHeader Bundle) : Option AggregateSignature :=
  frame.header.bind GlobalFrameHeader.publicKeySignature

def accepts (env : EngineEnv) (frame : FrameMessage GlobalFrameHeader Bundle) : Bool :=
  let (valid, err) := BLSGlobalFrameValidator.validate env.toValidatorEnv (some frame)
  valid && err.isNone

/-- Whether more than one bit is set. -/
def exceeds (bitmask : Bytes) : Bool := 1 < (bitmask.map fun b => (List.range 8).countP (hasBit b)).sum

/-- The address of the signature's key, or of the first prover whose bit is set. -/
def proposerAddress (env : EngineEnv) (frameSignature : AggregateSignature) : Bytes :=
  match frameSignature.publicKey.filter (· ≠ []) with
  | some key => env.getAddressFromPublicKey key
  | none =>
    match frameSignature.bitmask, env.getActiveProvers none with
    | some mask, .ok provers =>
      ((provers.zipIdx.find? fun (_, i) => hasBit (maskByte mask (i / 8)) (i % 8)).map fun (prover, _) =>
        prover.address).getD []
    | _, _ => []

/-- `handleConfirmation`: the store and the calls. -/
def handleConfirmation (env : EngineEnv) (frameStore : FrameStore GlobalFrameHeader Bundle)
    (message : Option FrameConfirmation) :
    Except Fault (FrameStore GlobalFrameHeader Bundle × List (ConfirmationCall (FrameMessage GlobalFrameHeader Bundle))) :=
  match message with
  | none => .ok (frameStore, [])
  | some confirmation =>
    if confirmation.validate.isSome then .ok (frameStore, [])
    else
      match frameStore.entries.find? (isConfirmed confirmation) with
      | none => .ok (frameStore, [])
      | some (id, frame) =>
        -- the stored frame itself gets the signature, before it is validated
        let matchingFrame := withSignature frame confirmation.aggregateSignature
        let frameStore := frameStore.update id matchingFrame
        if !accepts env matchingFrame then .ok (frameStore, [])
        else
          match signature matchingFrame, confirmation.aggregateSignature with
          | some frameSignature, some aggregateSignature =>
            if exceeds (frameSignature.bitmask.getD []) then .ok (frameStore, [])
            else if frameSignature.signature.getD [] = aggregateSignature.signature.getD [] then .ok (frameStore, [])
            else
              let proposer := proposerAddress env frameSignature
              .ok (frameStore, (if proposer.isEmpty then [] else [.receiveConfirmation proposer matchingFrame]) ++
                [.insert matchingFrame])
          | _, _ => .error .nilDereference

end GlobalConsensusEngine

namespace AppConsensusEngine

def calculateFrameSelector (env : EngineEnv) (header : FrameHeader) : Bytes :=
  if header.output.length < 32 then List.replicate 32 0 else env.poseidon.sum header.output

def isConfirmed (env : EngineEnv) (confirmation : FrameConfirmation) (entry : Bytes × FrameMessage FrameHeader Bundle) :
    Bool :=
  entry.2.header.any fun header =>
    header.frameNumber == confirmation.frameNumber && calculateFrameSelector env header == confirmation.selector

def withSignature (frame : FrameMessage FrameHeader Bundle) (s : Option AggregateSignature) :
    FrameMessage FrameHeader Bundle :=
  { frame with header := frame.header.map fun header => { header with publicKeySignature := s } }

def signature (frame : FrameMessage FrameHeader Bundle) : Option AggregateSignature :=
  frame.header.bind FrameHeader.publicKeySignature

def accepts (env : EngineEnv) (frame : FrameMessage FrameHeader Bundle) : Except Fault Bool :=
  (BLSAppFrameValidator.validate env.toValidatorEnv (some frame)).map fun (valid, err) => valid && err.isNone

/-- `handleConfirmation`: the store and the calls. A nil prover is empty; no other empty one passes validation. -/
def handleConfirmation (env : EngineEnv) (frameStore : FrameStore FrameHeader Bundle) (message : Option FrameConfirmation) :
    Except Fault (FrameStore FrameHeader Bundle × List (ConfirmationCall (FrameMessage FrameHeader Bundle))) :=
  match message with
  | none => .ok (frameStore, [])
  | some confirmation =>
    match frameStore.entries.find? (isConfirmed env confirmation) with
    | none => .ok (frameStore, [])
    | some (id, frame) => do
      let matchingFrame := withSignature frame confirmation.aggregateSignature
      let frameStore := frameStore.update id matchingFrame
      if !(← accepts env matchingFrame) then return (frameStore, [])
      else
        let prover := AppVotingProvider.prover matchingFrame
        if prover.isEmpty then return (frameStore, [])
        else return (frameStore, [.receiveConfirmation prover matchingFrame, .insert matchingFrame])

end AppConsensusEngine

end Quilibrium
