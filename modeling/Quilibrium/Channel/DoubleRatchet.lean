import Quilibrium.Tries.Serialize

/-! # The double ratchet

`crates/channel/src/protocols/doubleratchet.rs`. Keys are empty or of 32 bytes, and the randomness of a call is an
argument. -/

namespace Quilibrium

/-- The groups, hash functions and ciphers that the ratchets are made of. -/
structure Primitives where
  Scalar : Type
  Point : Type
  Key : Type
  [decidableEqScalar : DecidableEq Scalar]
  [decidableEqKey : DecidableEq Key]
  mulByGenerator : Scalar → Point
  mul : Point → Scalar → Point
  compress : Point → Bytes
  decompress : Bytes → Option Point
  /-- The three parts of 32 bytes of an expansion, for a salt and a point. -/
  hkdf : Key → Point → Key × Key × Key
  /-- The first 32 bytes of the HMAC of one byte. -/
  hmac : Option Key → UInt8 → Key
  /-- AES-GCM for a key, a nonce of 12 bytes, associated data and a message. The associated data are drawn at random, or
      consist of a key and a ciphertext. -/
  aesSeal : Key → Bytes → Bytes ⊕ Key × Bytes → Bytes → Bytes
  aesOpen : Key → Bytes → Bytes ⊕ Key × Bytes → Bytes → Option Bytes

attribute [instance] Primitives.decidableEqScalar Primitives.decidableEqKey

structure MessageCiphertext where
  ciphertext : Bytes
  initializationVector : Bytes
  associatedData : Option Bytes
  deriving DecidableEq

/-- `P2PChannelEnvelope` without the identifier of the protocol, which is not read. -/
structure P2PChannelEnvelope where
  messageHeader : MessageCiphertext
  messageBody : MessageCiphertext
  deriving DecidableEq

structure Draws where
  headerIv : Bytes
  headerData : Bytes
  bodyIv : Bytes

namespace Primitives

variable (P : Primitives)

/-- `ratchet_keys`: the next chain key, the message key and the key for the associated data. -/
def ratchetKeys (key : Option P.Key) : P.Key × P.Key × P.Key := (P.hmac key 1, P.hmac key 2, P.hmac key 3)

/-- `encrypt` of an envelope: the header under its key, and the message with the header as associated data. -/
def encryptEnvelope (headerKey messageKey aeadKey : P.Key) (draws : Draws) (header message : Bytes) : P2PChannelEnvelope :=
  let ciphertext := P.aesSeal headerKey draws.headerIv (.inl draws.headerData) header
  ⟨⟨ciphertext, draws.headerIv, some draws.headerData⟩,
    ⟨P.aesSeal messageKey draws.bodyIv (.inr (aeadKey, ciphertext)) message, draws.bodyIv, none⟩⟩

/-- `decrypt`, where the nonce must have 12 bytes and associated data must be there or given. -/
def decrypt (c : MessageCiphertext) (key : Option P.Key) (data : Option (Bytes ⊕ P.Key × Bytes)) :
    Except Fault (Option Bytes) :=
  match key with
  | none => .ok none
  | some key =>
    if c.initializationVector.length ≠ 12 then .error .logPanic
    else
      match data.or (c.associatedData.map .inl) with
      | none => .error .nilDereference
      | some data => .ok (P.aesOpen key c.initializationVector data c.ciphertext)

def decryptBody (e : P2PChannelEnvelope) (messageKey aeadKey : P.Key) : Except Fault (Option Bytes) :=
  P.decrypt e.messageBody (some messageKey) (some (.inr (aeadKey, e.messageHeader.ciphertext)))

end Primitives

structure DoubleRatchetParticipant (P : Primitives) where
  sendingEphemeralPrivateKey : P.Scalar
  rootKey : P.Key
  sendingChainKey : Option P.Key
  currentSendingHeaderKey : P.Key
  currentReceivingHeaderKey : Option P.Key
  nextSendingHeaderKey : P.Key
  nextReceivingHeaderKey : P.Key
  receivingChainKey : Option P.Key
  currentSendingChainLength : Nat
  previousSendingChainLength : Nat
  currentReceivingChainLength : Nat
  skippedHeaderKeys : List (Option P.Key)
  skippedKeys : Option P.Key → Nat → Option (P.Key × P.Key)

namespace DoubleRatchetParticipant

variable {P : Primitives}

def new (sessionKey sendingHeaderKey nextReceivingHeaderKey : P.Key) (isSender : Bool) (privateKey : P.Scalar)
    (receivingEphemeralKey : P.Point) : DoubleRatchetParticipant P :=
  let derived := P.hkdf sessionKey (P.mul receivingEphemeralKey privateKey)
  { sendingEphemeralPrivateKey := privateKey
    rootKey := if isSender then derived.1 else sessionKey
    sendingChainKey := if isSender then some derived.2.1 else none
    currentSendingHeaderKey := sendingHeaderKey
    currentReceivingHeaderKey := none
    nextSendingHeaderKey := if isSender then derived.2.2 else nextReceivingHeaderKey
    nextReceivingHeaderKey := if isSender then nextReceivingHeaderKey else sendingHeaderKey
    receivingChainKey := none
    currentSendingChainLength := 0
    previousSendingChainLength := 0
    currentReceivingChainLength := 0
    skippedHeaderKeys := []
    skippedKeys := fun _ _ => none }

def encodeHeader (p : DoubleRatchetParticipant P) : Bytes :=
  P.compress (P.mulByGenerator p.sendingEphemeralPrivateKey) ++ uint32BE p.previousSendingChainLength ++
    uint32BE p.currentSendingChainLength

def ratchetEncrypt (p : DoubleRatchetParticipant P) (draws : Draws) (message : Bytes) :
    DoubleRatchetParticipant P × P2PChannelEnvelope :=
  let (newChainKey, messageKey, aeadKey) := P.ratchetKeys p.sendingChainKey
  ({ p with sendingChainKey := some newChainKey, currentSendingChainLength := (p.currentSendingChainLength + 1) % 2 ^ 32 },
    P.encryptEnvelope p.currentSendingHeaderKey messageKey aeadKey draws p.encodeHeader message)

/-- `decrypt_header`, which also tries the next key if the current one does not open the header. -/
def decryptHeader (p : DoubleRatchetParticipant P) (c : MessageCiphertext) (headerKey : Option P.Key) :
    Except Fault (Option (Bytes × Bool)) := do
  match ← P.decrypt c headerKey none with
  | some header => return some (header, false)
  | none =>
    if headerKey = p.currentReceivingHeaderKey then
      return (← P.decrypt c (some p.nextReceivingHeaderKey) none).map fun header => (header, true)
    else return none

/-- `decode_header`: the lengths are sliced out of a header that may be too short for them. -/
def decodeHeader (header : Bytes) : Except Fault (Option (P.Point × Nat × Nat)) :=
  if header.length < 57 then .ok none
  else
    match P.decompress (header.take 57) with
    | none => .ok none
    | some point =>
      if header.length < 65 then .error .indexOutOfRange
      else .ok (some (point, natOfBE ((header.drop 57).take 4), natOfBE ((header.drop 61).take 4)))

/-- `try_skipped_message_keys`, with the order in which the map is ranged over: the result of the decryption, if there was
    one. -/
def trySkippedMessageKeys (p : DoubleRatchetParticipant P) (e : P2PChannelEnvelope) :
    List (Option P.Key) → Except Fault (Option (Option Bytes))
  | [] => .ok none
  | headerKey :: headerKeys => do
    match ← p.decryptHeader e.messageHeader headerKey with
    | none => p.trySkippedMessageKeys e headerKeys
    | some (header, _) =>
      match ← decodeHeader (P := P) header with
      | none => return some none
      | some (_, _, current) =>
        match p.skippedKeys headerKey current with
        | none => p.trySkippedMessageKeys e headerKeys
        | some (messageKey, aeadKey) => return some (← P.decryptBody e messageKey aeadKey)

def skipOne (p : DoubleRatchetParticipant P) : DoubleRatchetParticipant P :=
  let (newChainKey, messageKey, aeadKey) := P.ratchetKeys p.receivingChainKey
  { p with
    receivingChainKey := some newChainKey
    currentReceivingChainLength := p.currentReceivingChainLength + 1
    skippedHeaderKeys := p.skippedHeaderKeys.insert p.currentReceivingHeaderKey
    skippedKeys := Function.update p.skippedKeys p.currentReceivingHeaderKey
      (Function.update (p.skippedKeys p.currentReceivingHeaderKey) p.currentReceivingChainLength (some (messageKey, aeadKey))) }

/-- `skip_message_keys`, or nothing beyond the limit. -/
def skipMessageKeys (p : DoubleRatchetParticipant P) (limit : Nat) : Option (DoubleRatchetParticipant P) :=
  if (p.currentReceivingChainLength + 100) % 2 ^ 32 < limit then none
  else if p.receivingChainKey.isNone then some p
  else some (skipOne^[limit - p.currentReceivingChainLength] p)

/-- `ratchet_ephemeral_keys`, with the scalar that is drawn. -/
def ratchetEphemeralKeys (p : DoubleRatchetParticipant P) (drawn : P.Scalar) (point : P.Point) : DoubleRatchetParticipant P :=
  let received := P.hkdf p.rootKey (P.mul point p.sendingEphemeralPrivateKey)
  let sent := P.hkdf received.1 (P.mul point drawn)
  { p with
    previousSendingChainLength := p.currentSendingChainLength
    currentSendingChainLength := 0
    currentReceivingChainLength := 0
    currentSendingHeaderKey := p.nextSendingHeaderKey
    currentReceivingHeaderKey := some p.nextReceivingHeaderKey
    receivingChainKey := some received.2.1
    nextReceivingHeaderKey := received.2.2
    sendingEphemeralPrivateKey := drawn
    rootKey := sent.1
    sendingChainKey := some sent.2.1
    nextSendingHeaderKey := sent.2.2 }

/-- The end of `ratchet_decrypt`, with the next message key of the receiving chain. -/
def decryptNext (p : DoubleRatchetParticipant P) (e : P2PChannelEnvelope) :
    Except Fault (DoubleRatchetParticipant P × Option Bytes) := do
  let (newChainKey, messageKey, aeadKey) := P.ratchetKeys p.receivingChainKey
  match ← P.decryptBody e messageKey aeadKey with
  | none => return (p, none)
  | some plaintext =>
    return ({ p with
      receivingChainKey := some newChainKey
      currentReceivingChainLength := (p.currentReceivingChainLength + 1) % 2 ^ 32 }, some plaintext)

/-- The state with the chain that a header belongs to, up to its message, or the state at an error. -/
def advance (p : DoubleRatchetParticipant P) (drawn : P.Scalar) (shouldRatchet : Bool) (point : P.Point)
    (previous current : Nat) : Except (DoubleRatchetParticipant P) (DoubleRatchetParticipant P) := do
  let p ← if shouldRatchet then
      match p.skipMessageKeys previous with
      | none => .error p
      | some p => .ok (p.ratchetEphemeralKeys drawn point)
    else .ok p
  match p.skipMessageKeys current with
  | none => .error p
  | some p => .ok p

/-- `ratchet_decrypt`: the state afterwards and the plaintext, or no plaintext for an error. -/
def ratchetDecrypt (p : DoubleRatchetParticipant P) (range : List (Option P.Key)) (drawn : P.Scalar)
    (e : P2PChannelEnvelope) : Except Fault (DoubleRatchetParticipant P × Option Bytes) := do
  match ← p.trySkippedMessageKeys e range with
  | some result => return (p, result)
  | none =>
    match ← p.decryptHeader e.messageHeader p.currentReceivingHeaderKey with
    | none => return (p, none)
    | some (header, shouldRatchet) =>
      match ← decodeHeader (P := P) header with
      | none => return (p, none)
      | some (point, previous, current) =>
        match p.advance drawn shouldRatchet point previous current with
        | .error p => return (p, none)
        | .ok p => p.decryptNext e

end DoubleRatchetParticipant

end Quilibrium
