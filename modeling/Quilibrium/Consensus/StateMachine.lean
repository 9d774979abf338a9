import Quilibrium.Lib.Monitor

/-! # The consensus state machine

`StateMachine` of `consensus/state_machine.go`. The behaviours run on the goroutine of the event loop; the receive calls
and `Close` run beside it. A timer that is set is an event that is sent. The providers are asked; what is only logged
and the listeners are left out. -/

namespace Quilibrium

class Unique (α : Type) where
  identity : α → String
  rank : α → UInt64

namespace StateMachine

open Monitor

export Unique (identity rank)

/-- `State`. -/
inductive Phase
  | stopped | starting | loading | collecting | livenessCheck | proving | publishing | voting | finalizing | verifying
  | stopping
  deriving DecidableEq

def Phase.name : Phase → String
  | .stopped => "stopped"
  | .starting => "starting"
  | .loading => "loading"
  | .collecting => "collecting"
  | .livenessCheck => "liveness_check"
  | .proving => "proving"
  | .publishing => "publishing"
  | .voting => "voting"
  | .finalizing => "finalizing"
  | .verifying => "verifying"
  | .stopping => "stopping"

inductive Event
  | start | stop | syncTimeout | induceSync | syncComplete | initComplete | collectionDone | livenessCheckReceived
  | livenessTimeout | proverSignal | proofComplete | publishComplete | publishTimeout | proposalReceived | voteReceived
  | quorumReached | votingTimeout | aggregationDone | aggregationTimeout | confirmationReceived | verificationDone
  | verificationTimeout | cleanupComplete
  deriving DecidableEq

def Event.name : Event → String
  | .start => "start"
  | .stop => "stop"
  | .syncTimeout => "sync_timeout"
  | .induceSync => "induce_sync"
  | .syncComplete => "sync_complete"
  | .initComplete => "init_complete"
  | .collectionDone => "collection_done"
  | .livenessCheckReceived => "liveness_check_received"
  | .livenessTimeout => "liveness_timeout"
  | .proverSignal => "prover_signal"
  | .proofComplete => "proof_complete"
  | .publishComplete => "publish_complete"
  | .publishTimeout => "publish_timeout"
  | .proposalReceived => "proposal_received"
  | .voteReceived => "vote_received"
  | .quorumReached => "quorum_reached"
  | .votingTimeout => "voting_timeout"
  | .aggregationDone => "aggregation_done"
  | .aggregationTimeout => "aggregation_timeout"
  | .confirmationReceived => "confirmation_received"
  | .verificationDone => "verification_done"
  | .verificationTimeout => "verification_timeout"
  | .cleanupComplete => "cleanup_complete"

/-! ### The machine -/

/-- A map of maps, by rank and identity. A rank without a map is one with an empty map. -/
abbrev Table (V : Type) := UInt64 → List (String × V)

namespace Table

variable {V : Type}

def get (t : Table V) (rank : UInt64) (id : String) : Option V := (t rank).lookup id

def put (t : Table V) (rank : UInt64) (id : String) (v : V) : Table V :=
  Function.update t rank ((t rank).filter (fun entry => entry.1 ≠ id) ++ [(id, v)])

def putNew (t : Table V) (rank : UInt64) (id : String) (v : V) : Table V :=
  if (t.get rank id).isSome then t else t.put rank id v

def delete (t : Table V) (rank : UInt64) : Table V := Function.update t rank []

end Table

variable {St Vt Pr Co : Type}

/-- The fields of `StateMachine` that change; `closed` is the cancelled context. `cast` is not in the source: the ranks of
    the active state at which `DecideAndSendVote` has succeeded. -/
structure Machine (St Vt Pr Co : Type) where
  machineState : Phase
  activeState : Option St
  nextState : Option St
  collected : Option Co
  nextProvers : List Pr
  liveness : Table Co
  votes : Table Vt
  proposals : Table St
  confirmations : Table St
  chosenProposer : Option Pr
  closed : Bool
  cast : List UInt64

def Machine.new (initialState : Option St) : Machine St Vt Pr Co where
  machineState := .stopped
  activeState := initialState
  nextState := none
  collected := none
  nextProvers := []
  liveness _ := []
  votes _ := []
  proposals _ := []
  confirmations _ := []
  chosenProposer := none
  closed := false
  cast := []

structure Settings (Pr : Type) where
  id : Pr
  shouldEmitReceiveEventsOnSends : Bool
  hasSyncProvider : Bool

inductive Query (St Vt Co : Type)
  | synchronize (existing : Option St)
  | getNextLeaders (prior : Option St)
  | collect
  | sendLiveness (prior : Option St) (collected : Co)
  | proveNextState (prior : Option St) (collected : Co)
  | sendProposal (proposal : St)
  | decideAndSendVote (proposals : List (String × St))
  | isQuorum (proposalVotes : List (String × Vt))
  | finalizeVotes (proposals : List (String × St)) (proposalVotes : List (String × Vt))
  | sendConfirmation (finalized : St)
  | minimumProvers

inductive Synchronized (St : Type)
  | state (newState : St)
  | error
  | cancelled

/-- What the calls return; an error is `none` or `false`. -/
@[reducible] def Answer (Pr : Type) : Query St Vt Co → Type
  | .synchronize _ => Synchronized St
  | .getNextLeaders _ => Option (List Pr)
  | .collect => Option Co
  | .sendLiveness _ _ => Bool
  | .proveNextState _ _ => Option St
  | .sendProposal _ => Bool
  | .decideAndSendVote _ => Option (Pr × Vt)
  | .isQuorum _ => Option Bool
  | .finalizeVotes _ _ => Option St
  | .sendConfirmation _ => Bool
  | .minimumProvers => Nat

/-- A vote that was sent is noted with the rank of the active state. -/
def observe [Unique St] : (q : Query St Vt Co) → Answer Pr q → Machine St Vt Pr Co → Machine St Vt Pr Co
  | .decideAndSendVote _, some _, s => { s with cast := s.cast ++ s.activeState.toList.map Unique.rank }
  | _, _, s => s

abbrev Code (St Vt Pr Co α : Type) := Program (Machine St Vt Pr Co) (@Answer St Vt Co Pr) Event α

/-! ### Calls of the providers -/

section
variable {St Vt Pr Co : Type}

open Program

def synchronize (existing : Option St) : Code St Vt Pr Co (Synchronized St) := call (Query.synchronize existing)
def getNextLeaders (prior : Option St) : Code St Vt Pr Co (Option (List Pr)) := call (Query.getNextLeaders prior)
def collect : Code St Vt Pr Co (Option Co) := call Query.collect
def sendLiveness (prior : Option St) (collected : Co) : Code St Vt Pr Co Bool := call (Query.sendLiveness prior collected)
def proveNextState (prior : Option St) (collected : Co) : Code St Vt Pr Co (Option St) :=
  call (Query.proveNextState prior collected)
def sendProposal (proposal : St) : Code St Vt Pr Co Bool := call (Query.sendProposal proposal)
def decideAndSendVote (proposals : List (String × St)) : Code St Vt Pr Co (Option (Pr × Vt)) :=
  call (Query.decideAndSendVote proposals)
def isQuorum (proposalVotes : List (String × Vt)) : Code St Vt Pr Co (Option Bool) := call (Query.isQuorum proposalVotes)
def finalizeVotes (proposals : List (String × St)) (proposalVotes : List (String × Vt)) : Code St Vt Pr Co (Option St) :=
  call (Query.finalizeVotes proposals proposalVotes)
def sendConfirmation (finalized : St) : Code St Vt Pr Co Bool := call (Query.sendConfirmation finalized)
def minimumProvers : Code St Vt Pr Co Nat := call Query.minimumProvers

end

section
variable [Unique St] [Unique Vt] [Unique Pr] [Unique Co] (cfg : Settings Pr)

open Program

/-! ### Behaviours -/

def loading : Code St Vt Pr Co Unit := do
  if cfg.hasSyncProvider then
    let existing ← read (·.activeState)
    match ← synchronize existing with
    | .state newState =>
      acquire
      modify fun s => { s with activeState := some newState }
      release
      match ← getNextLeaders (some newState) with
      | none => return
      | some nextLeaders =>
        if nextLeaders.any fun leader => identity leader == identity cfg.id then emit .syncComplete
        else emit .syncTimeout
    | .error => emit .syncTimeout
    | .cancelled => return

def collecting (data : Option St) : Code St Vt Pr Co Unit := do
  match ← collect with
  | none => emit .induceSync
  | some collected =>
    acquire
    modify fun s => { s with nextProvers := [], chosenProposer := none, collected := some collected }
    release
    match ← getNextLeaders data with
    | none => emit .induceSync
    | some nextProvers =>
      acquire
      modify fun s => { s with nextProvers }
      release
      if ← sendLiveness data collected then
        acquire
        if cfg.shouldEmitReceiveEventsOnSends then
          let own ← deref (← read (·.collected))
          modify fun s => { s with liveness := s.liveness.put (rank collected) (identity cfg.id) own }
        release
        if cfg.shouldEmitReceiveEventsOnSends then emit .livenessCheckReceived
        emit .collectionDone
      else emit .induceSync

/-- The part of the liveness check after the leaders are there. -/
def countLiveness (data : Option St) : Code St Vt Pr Co Unit := do
  acquire
  let collected ← deref (← read (·.collected))
  release
  acquire
  let activeState ← deref (← read (·.activeState))
  let livenessLen ← read fun s => (s.liveness (rank activeState + 1)).length
  release
  if (← minimumProvers) ≤ livenessLen then emit .proverSignal
  else
    let _ ← sendLiveness data collected

def livenessCheck (data : Option St) : Code St Vt Pr Co Unit := do
  acquire
  let nextProversLen ← read (·.nextProvers.length)
  release
  if nextProversLen < (← minimumProvers) then
    match ← getNextLeaders data with
    | none => return
    | some nextProvers =>
      acquire
      modify fun s => { s with nextProvers }
      release
      countLiveness data
  else countLiveness data

def proving (data : Option St) : Code St Vt Pr Co Unit := do
  acquire
  let collected ← read (·.collected)
  release
  match collected with
  | none => return
  | some collected =>
    match ← proveNextState data collected with
    | none => return
    | some proposal =>
      acquire
      modify fun s => { s with proposals := s.proposals.put (rank proposal) (identity cfg.id) proposal }
      release
      emit .proofComplete

def publishing (data : Option St) : Code St Vt Pr Co Unit := do
  acquire
  let prior ← deref data
  match ← read fun s => s.proposals.get (rank prior + 1) (identity cfg.id) with
  | none => return
  | some proposal =>
    release
    if ← sendProposal proposal then emit .publishComplete

/-- The branch of the voting behaviour for a machine that has not voted yet. -/
def castVote : Code St Vt Pr Co Unit := do
  let activeState ← deref (← read (·.activeState))
  let proposalsLen ← read fun s => (s.proposals (rank activeState + 1)).length
  if proposalsLen < (← minimumProvers) then release
  else if ← read (·.closed) then release
  else
    let proposals ← read fun s => s.proposals (rank activeState + 1)
    release
    match ← decideAndSendVote proposals with
    | none => return
    | some (selectedPeer, vote) =>
      acquire
      modify fun s => { s with chosenProposer := some selectedPeer }
      if cfg.shouldEmitReceiveEventsOnSends then
        let activeState ← deref (← read (·.activeState))
        modify fun s => { s with votes := s.votes.put (rank activeState + 1) (identity cfg.id) vote }
        release
        emit .voteReceived
      else release

/-- The branch of the voting behaviour for a machine that has voted. -/
def countVotes : Code St Vt Pr Co Unit := do
  let activeState ← deref (← read (·.activeState))
  let proposalVotes ← read fun s => s.votes (rank activeState + 1)
  let proposalsLen ← read fun s => (s.proposals (rank activeState + 1)).length
  let haveEnoughProposals := (← minimumProvers) ≤ proposalsLen
  release
  match ← isQuorum proposalVotes with
  | none => return
  | some isQuorum => if isQuorum ∧ haveEnoughProposals then emit .quorumReached

def voting : Code St Vt Pr Co Unit := do
  acquire
  match ← read (·.chosenProposer) with
  | none => castVote cfg
  | some _ => countVotes

def finalizing : Code St Vt Pr Co Unit := do
  acquire
  let activeState ← deref (← read (·.activeState))
  let proposals ← read fun s => s.proposals (rank activeState + 1)
  let proposalVotes ← read fun s => s.votes (rank activeState + 1)
  release
  match ← finalizeVotes proposals proposalVotes with
  | none => return
  | some finalized =>
    acquire
    modify fun s => { s with nextState := some finalized }
    release
    emit .aggregationDone

def Machine.progress (s : Machine St Vt Pr Co) (next : St) : Machine St Vt Pr Co :=
  { s with
    activeState := some next
    nextState := none
    collected := none
    liveness := s.liveness.delete (rank next)
    proposals := s.proposals.delete (rank next)
    votes := s.votes.delete (rank next)
    confirmations := s.confirmations.delete (rank next) }

/-- The end of the verifying behaviour, with the mutex held. -/
def progress : Code St Vt Pr Co Unit := do
  match ← read (·.nextState) with
  | none => release
  | some next =>
    modify fun s => s.progress next
    release
    emit .verificationDone

def verifying : Code St Vt Pr Co Unit := do
  acquire
  let activeState ← deref (← read (·.activeState))
  let confirmation ← read fun s => s.confirmations.get (rank activeState + 1) (identity cfg.id)
  match confirmation, ← read (·.nextState) with
  | none, some nextState =>
    release
    let _ ← sendConfirmation nextState
    acquire
    progress
  | _, _ => progress

def hasBehavior : Phase → Bool
  | .stopped => false
  | .starting => false
  | _ => true

/-- The behaviour of a phase, on the state that was active when it started. -/
def behavior (data : Option St) : Phase → Code St Vt Pr Co Unit
  | .stopped => return
  | .starting => return
  | .loading => loading cfg
  | .collecting => collecting cfg data
  | .livenessCheck => livenessCheck data
  | .proving => proving cfg data
  | .publishing => publishing cfg data
  | .voting => voting cfg
  | .finalizing => finalizing
  | .verifying => verifying cfg
  | .stopping => emit .cleanupComplete

/-! ### Events -/

def onTimeout : Phase → Option Event
  | .stopped => none
  | .starting => some .initComplete
  | .loading => some .syncTimeout
  | .collecting => some .induceSync
  | .livenessCheck => some .livenessTimeout
  | .proving => some .publishTimeout
  | .publishing => some .publishTimeout
  | .voting => some .votingTimeout
  | .finalizing => some .aggregationTimeout
  | .verifying => some .verificationTimeout
  | .stopping => some .cleanupComplete

/-- `defineTransitions`. -/
def transition : Phase → Event → Option Phase
  | .stopped, .start => some .starting
  | .stopped, _ => none
  | .stopping, .cleanupComplete => some .stopped
  | .stopping, _ => none
  | _, .stop => some .stopping
  | _, .induceSync => some .loading
  | .starting, .initComplete => some .loading
  | .loading, .syncTimeout => some .loading
  | .loading, .syncComplete => some .collecting
  | .collecting, .collectionDone => some .livenessCheck
  | .livenessCheck, .proverSignal => some .proving
  | .livenessCheck, .livenessTimeout => some .livenessCheck
  | .livenessCheck, .livenessCheckReceived => some .livenessCheck
  | .proving, .proofComplete => some .publishing
  | .proving, .publishTimeout => some .voting
  | .publishing, .publishComplete => some .voting
  | .publishing, .publishTimeout => some .voting
  | .voting, .proposalReceived => some .voting
  | .voting, .voteReceived => some .voting
  | .voting, .quorumReached => some .finalizing
  | .voting, .votingTimeout => some .voting
  | .finalizing, .aggregationDone => some .verifying
  | .finalizing, .aggregationTimeout => some .finalizing
  | .verifying, .verificationDone => some .collecting
  | .verifying, .verificationTimeout => some .verifying
  | _, _ => none

/-- The end of `executeTransition`, with the mutex held: the timer is set. -/
def setTimer (target : Phase) : Code St Vt Pr Co Unit := do
  match onTimeout target with
  | none => release
  | some event =>
    emit event
    release

def executeTransition (target : Phase) : Code St Vt Pr Co Unit := do
  acquire
  modify fun s => { s with machineState := target }
  if hasBehavior target then
    release
    let data ← read (·.activeState)
    behavior cfg data target
    acquire
  setTimer target

/-- `handleEvent`: the returned error. -/
def handleEvent (event : Event) : Code St Vt Pr Co (Option String) := do
  acquire
  let currentState ← read (·.machineState)
  match transition currentState event with
  | none =>
    release
    return some ("handle event: no transition for event " ++ event.name ++ " in state " ++ currentState.name)
  | some target =>
    release
    executeTransition cfg target
    return none

/-! ### Calls -/

def receiveLivenessCheck (peer : Pr) (collected : Co) : Code St Vt Pr Co Unit := do
  acquire
  modify fun s => { s with liveness := s.liveness.putNew (rank collected) (identity peer) collected }
  release
  emit .livenessCheckReceived

def receiveProposal (peer : Pr) (proposal : St) : Code St Vt Pr Co Unit := do
  acquire
  modify fun s => { s with proposals := s.proposals.putNew (rank proposal) (identity peer) proposal }
  release
  emit .proposalReceived

/-- `ReceiveVote`: the returned error. The proposer is not read. -/
def receiveVote (voter : Pr) (vote : Vt) : Code St Vt Pr Co (Option String) := do
  acquire
  match ← read fun s => s.votes.get (rank vote) (identity voter) with
  | none =>
    modify fun s => { s with votes := s.votes.put (rank vote) (identity voter) vote }
    release
    emit .voteReceived
    return none
  | some stored =>
    if identity stored ≠ identity vote then
      release
      return some "receive vote: received conflicting vote"
    else
      release
      emit .voteReceived
      return none

def receiveConfirmation (peer : Pr) (confirmation : St) : Code St Vt Pr Co Unit := do
  acquire
  modify fun s => { s with confirmations := s.confirmations.putNew (rank confirmation) (identity peer) confirmation }
  release
  emit .confirmationReceived

def close : Code St Vt Pr Co Unit := do
  acquire
  modify fun s => { s with closed := true, machineState := .stopped }
  release

inductive Call : Code St Vt Pr Co Unit → Prop
  | livenessCheck (peer : Pr) (collected : Co) : Call (receiveLivenessCheck peer collected)
  | proposal (peer : Pr) (proposal : St) : Call (receiveProposal peer proposal)
  | vote (voter : Pr) (vote : Vt) : Call (receiveVote voter vote >>= fun _ => pure ())
  | confirmation (peer : Pr) (confirmation : St) : Call (receiveConfirmation peer confirmation)
  | close : Call close

/-- The machine with `processEvents`, which closes it when a handler panics. -/
def system : System (Machine St Vt Pr Co) (@Answer St Vt Co Pr) Event where
  observe := observe
  handler event := handleEvent cfg event >>= fun _ => pure ()
  recovery := close
  Calls := Call
  Posts event := event = .start ∨ event = .stop ∨ event = .induceSync

end

end StateMachine
end Quilibrium
