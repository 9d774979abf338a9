import Quilibrium.Consensus.Validator

/-! # Voting providers

`IsQuorum` and `FinalizeVotes` of `GlobalVotingProvider` and `AppVotingProvider` (`node/consensus`), with the values of
the maps in the order of each loop. -/

namespace Quilibrium

/-- `BLS48581AddressedSignature`: a nil slice is `none`. -/
structure AddressedSignature where
  signature : Option Bytes
  address : Option Bytes

structure FrameVote where
  frameNumber : Nat
  proposer : Bytes
  publicKeySignature : Option AddressedSignature

/-- What both providers get from the engine: `GetActiveProvers` with the provider's filter, `minimumProvers`, and
    `Aggregate` of the key manager with the aggregated signature and key. -/
structure VotingEnv where
  getActiveProvers : Except String (List ProverKey)
  minimumProvers : Nat
  aggregate : List Bytes → List Bytes → Except String (Bytes × Bytes)

/-- `IsQuorum`: all votes count, whatever they are for. -/
def VotingEnv.isQuorum (env : VotingEnv) (proposalVotes : List (Bytes × Option FrameVote)) : Except String Bool :=
  match env.getActiveProvers with
  | .error e => .error (wrapError "is quorum" e)
  | .ok activeProvers =>
    let minVotes := activeProvers.length * 2 / 3
    let minVotes := if minVotes < env.minimumProvers then env.minimumProvers else minVotes
    .ok (decide (minVotes ≤ proposalVotes.length))

/-- Where the providers differ in `FinalizeVotes`. -/
structure VotingProvider (Frame : Type) extends VotingEnv where
  /-- The proposer of a proposal and how many of the counted votes are for it. -/
  tally : (Bytes → Nat) → Frame → Except Fault (Bytes × Nat)
  /-- The proposal to take when none has votes, with the proposer that is kept for it. -/
  fallback : List (Option Frame) → Except Fault (Option (Frame × Bytes))
  frameNumber : Frame → Nat
  /-- The proposer that a vote has to name. -/
  votedFor : Frame → Bytes → Bytes
  /-- Whether a collected vote sets the bit of its voter. -/
  marks : Bytes → FrameVote → Bool
  finalizedFrame : Frame → AggregateSignature → Frame

/-- The values of the maps in the order of the four loops. -/
structure Ranges (Frame : Type) where
  counted : List (Option FrameVote)
  tallied : List (Option Frame)
  fallback : List (Option Frame)
  collected : List (Option FrameVote)

structure SignedVote where
  vote : FrameVote
  signature : Bytes
  address : Bytes

namespace VotingProvider

variable {Frame : Type}

/-- `voteCount`. -/
def countVotes (votes : List (Option FrameVote)) : Except Fault (Bytes → Nat) :=
  votes.foldlM (fun voteCount vote =>
    match vote with
    | none => .error .nilDereference
    | some vote => .ok (Function.update voteCount vote.proposer (voteCount vote.proposer + 1))) fun _ => 0

/-- The loop over the proposals: `winnerCount`, and the chosen proposal with its proposer. -/
def tallyProposals (tally : Frame → Except Fault (Bytes × Nat)) (proposals : List (Option Frame)) :
    Except Fault (Nat × Option (Frame × Bytes)) :=
  proposals.foldlM (fun (winnerCount, chosen) proposal =>
    match proposal with
    | none => .ok (winnerCount, chosen)
    | some frame => do
      let (proposer, count) ← tally frame
      if winnerCount < count then .ok (count, some (frame, proposer)) else .ok (winnerCount, chosen)) (0, none)

def chooseProposal (P : VotingProvider Frame) (r : Ranges Frame) : Except Fault (Option (Frame × Bytes)) := do
  let voteCount ← countVotes r.counted
  let (_, chosen) ← tallyProposals (P.tally voteCount) r.tallied
  match chosen with
  | some chosen => return some chosen
  | none => P.fallback r.fallback

/-- The votes for the proposer at the frame number that carry a signature and an address. -/
def collectSigned (frameNumber : Nat) (proposer : Bytes) (votes : List (Option FrameVote)) :
    Except Fault (List SignedVote) :=
  votes.foldlM (fun signed vote =>
    match vote with
    | none => .ok signed
    | some vote =>
      if vote.frameNumber ≠ frameNumber ∨ vote.proposer ≠ proposer then .ok signed
      else
        match vote.publicKeySignature with
        | none => .error .nilDereference
        | some ⟨some signature, some address⟩ => .ok (signed ++ [⟨vote, signature, address⟩])
        | some _ => .ok signed) []

/-- `proverMap`: a later prover replaces an earlier one of the same address, and an unknown one has no key. -/
def proverKey (provers : List ProverKey) (address : Bytes) : Bytes :=
  ((provers.reverse.find? fun prover => prover.address == address).map ProverKey.publicKey).getD []

/-- `voterMap`: the last vote that was collected for the address. -/
def voterVote (signed : List SignedVote) (address : Bytes) : Option FrameVote :=
  (signed.reverse.find? fun s => s.address == address).map SignedVote.vote

def bitmask (marks : FrameVote → Bool) (provers : List ProverKey) (signed : List SignedVote) : Bytes :=
  provers.zipIdx.foldl (fun mask (prover, i) =>
    if (voterVote signed prover.address).any marks then mask.modify (i / 8) (· ||| 1 <<< UInt8.ofNat (i % 8)) else mask)
    (List.replicate ((provers.length + 7) / 8) 0)

def aggregateVotes (P : VotingProvider Frame) (chosen : Frame × Bytes) (votes : List (Option FrameVote)) :
    Except Fault (Except String AggregateSignature) :=
  match P.getActiveProvers with
  | .error e => .ok (.error (wrapError "finalize votes" e))
  | .ok provers => do
    let signed ← collectSigned (P.frameNumber chosen.1) (P.votedFor chosen.1 chosen.2) votes
    if signed.isEmpty then return .error (wrapError "finalize votes" "no signatures to aggregate")
    else
      match P.aggregate (signed.map fun s => proverKey provers s.address) (signed.map SignedVote.signature) with
      | .error e => return .error (wrapError "finalize votes" e)
      | .ok (signature, publicKey) =>
        return .ok ⟨some signature, some publicKey, some (bitmask (P.marks chosen.2) provers signed)⟩

/-- `FinalizeVotes`: the finalised frame and the proposer. The frame that comes with an error is left out. -/
def finalizeVotes (P : VotingProvider Frame) (r : Ranges Frame) : Except Fault (Except String (Frame × Bytes)) := do
  match ← P.chooseProposal r with
  | none => return .error (wrapError "finalize votes" "no proposals to finalize")
  | some chosen =>
    match ← P.aggregateVotes chosen r.collected with
    | .error e => return .error e
    | .ok signature => return .ok (P.finalizedFrame chosen.1 signature, chosen.2)

end VotingProvider

variable {Bundle : Type}

namespace GlobalVotingProvider

def proposerKey (frame : FrameMessage GlobalFrameHeader Bundle) : Option Bytes :=
  frame.header.bind fun header => header.publicKeySignature.bind AggregateSignature.publicKey

/-- `GlobalVotingProvider`. The fallback takes the last proposal and leaves the proposer empty. -/
def provider (env : VotingEnv) (getAddressFromPublicKey : Bytes → Bytes) :
    VotingProvider (FrameMessage GlobalFrameHeader Bundle) where
  toVotingEnv := env
  tally voteCount frame :=
    match proposerKey frame with
    | none => .error .nilDereference
    | some key => .ok (getAddressFromPublicKey key, voteCount (getAddressFromPublicKey key))
  fallback proposals := .ok ((proposals.reverse.findSome? id).map fun frame => (frame, []))
  frameNumber frame := (frame.header.map GlobalFrameHeader.frameNumber).getD 0
  votedFor _ proposerID := proposerID
  marks _ _ := true
  finalizedFrame frame signature :=
    { frame with header := frame.header.map fun header => { header with publicKeySignature := some signature } }

end GlobalVotingProvider

namespace AppVotingProvider

def prover (frame : FrameMessage FrameHeader Bundle) : Bytes := (frame.header.map FrameHeader.prover).getD []

/-- What the fallback asks of a proposal: its parent is stored and is at the current height. -/
def eligible (frameStore : Bytes → Option Nat) (parentFrame : Option Nat) (header : FrameHeader) : Bool :=
  match frameStore header.parentSelector with
  | none => false
  | some parentNumber => parentFrame.all (· == parentNumber)

def firstEligible (frameStore : Bytes → Option Nat) (parentFrame : Option Nat) :
    List (Option (FrameMessage FrameHeader Bundle)) → Except Fault (Option (FrameMessage FrameHeader Bundle × Bytes))
  | [] => .ok none
  | none :: proposals => firstEligible frameStore parentFrame proposals
  | some frame :: proposals =>
    match frame.header with
    | none => .error .nilDereference
    | some header =>
      if eligible frameStore parentFrame header then .ok (some (frame, header.prover))
      else firstEligible frameStore parentFrame proposals

/-- `AppVotingProvider`. Votes count for proposals whose parent is stored. `frameStore` gives the number of the stored
    frame and `parentFrame` the number of the current one. -/
def provider (env : VotingEnv) (frameStore : Bytes → Option Nat) (parentFrame : Option Nat) :
    VotingProvider (FrameMessage FrameHeader Bundle) where
  toVotingEnv := env
  tally voteCount frame :=
    match frame.header with
    | none => .error .nilDereference
    | some header =>
      .ok (header.prover, if (frameStore header.parentSelector).isSome then voteCount header.prover else 0)
  fallback := firstEligible frameStore parentFrame
  frameNumber frame := (frame.header.map FrameHeader.frameNumber).getD 0
  votedFor frame _ := prover frame
  marks proposerID vote := vote.proposer == proposerID
  finalizedFrame frame signature :=
    { frame with header := frame.header.map fun header => { header with publicKeySignature := some signature } }

end AppVotingProvider

end Quilibrium
