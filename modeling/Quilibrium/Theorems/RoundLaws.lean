import Mathlib.Data.List.Nodup
import Quilibrium.Theorems.Rounds

/-! One vote for each rank, and ranks that never decrease: what runs of the consensus state machine keep when they do not
    go back. -/

namespace Quilibrium
open Option
namespace StateMachine
open Monitor

/-! ### One vote for each rank -/

section Votes
variable {St Vt Pr Co : Type} [Unique St] {s s' : Machine St Vt Pr Co}

def Fresh (s : Machine St Vt Pr Co) : Prop := ∀ active ∈ s.activeState, rank active ∉ s.cast

/-- Collecting is entered before the vote of its rank. -/
def StartsFresh (event : Event) (s : Machine St Vt Pr Co) : Prop :=
  transition s.machineState event = some .collecting → Fresh s

instance Fresh.instDecidable : Decidable (Fresh s) :=
  inferInstanceAs (Decidable (∀ active ∈ s.activeState, rank active ∉ s.cast))

instance StartsFresh.instDecidable {event : Event} : Decidable (StartsFresh event s) :=
  inferInstanceAs (Decidable (transition s.machineState event = some .collecting → Fresh s))

def Chosen (s : Machine St Vt Pr Co) : Prop := ∀ active ∈ s.activeState, rank active ∈ s.cast → s.chosenProposer ≠ none

/-- The phases of a round in which the machine may have voted. -/
def Phase.afterCollecting : Phase → Bool
  | .livenessCheck | .proving | .publishing | .voting | .finalizing => true
  | _ => false

structure VotesOnce (phase : Phase) (s : Machine St Vt Pr Co) : Prop where
  nodup : s.cast.Nodup
  fresh : phase = .collecting → Fresh s
  chosen : phase.afterCollecting → Chosen s

/-- The rules of a run in which providers answer anything and no vote is repeated. -/
def votesKept : Rules (Machine St Vt Pr Co) (@Answer St Vt Co Pr) where
  rely := Interferes
  guar s s' := s.cast.Nodup → s'.cast.Nodup
  allowed _ _ _ := True
  observe := observe

theorem Fresh.quiet (h : Fresh s) (hs : Quiet s s') : Fresh s' := by
  rw [Fresh, hs.activeState, hs.cast]
  exact h

theorem Chosen.quiet (h : Chosen s) (hs : Quiet s s') : Chosen s' := by
  rw [Chosen, hs.activeState, hs.cast, hs.chosenProposer]
  exact h

theorem Fresh.chosen (h : Fresh s) : Chosen s := fun active hact hcs => absurd hcs (h active hact)

theorem VotesOnce.quiet {phase : Phase} (h : VotesOnce phase s) (hs : Quiet s s') : VotesOnce phase s' :=
  ⟨hs.cast ▸ h.nodup, fun hph => (h.fresh hph).quiet hs, fun hph => (h.chosen hph).quiet hs⟩

theorem VotesOnce.of_nodup {phase : Phase} (h : s.cast.Nodup) (hc : phase ≠ .collecting)
    (haf : phase.afterCollecting = false) : VotesOnce phase s :=
  ⟨h, fun hph => absurd hph hc, fun hph => absurd hph (by rw [haf]; exact Bool.false_ne_true)⟩

theorem VotesOnce.voted (h : VotesOnce .voting s) (hc : s.chosenProposer = none) : s.voted.cast.Nodup := by
  rw [Machine.voted]
  cases hact : s.activeState with
  | none => simpa using h.nodup
  | some active =>
    have hfr : rank active ∉ s.cast := fun hm => h.chosen rfl active hact hm hc
    simpa using h.nodup.concat hfr

theorem transition_afterCollecting {phase target : Phase} {event : Event} (h : transition phase event = some target)
    (ht : target.afterCollecting) : phase = .collecting ∨ phase.afterCollecting := by
  cases phase with
  | stopped => cases event <;> cases h; cases ht
  | starting | loading | verifying => cases event <;> cases h <;> cases ht
  | stopping => cases event <;> cases h; cases ht
  | collecting => exact .inl rfl
  | _ => exact .inr rfl

theorem VotesOnce.enter {target : Phase} {event : Event} (h : VotesOnce s.machineState s)
    (hs : StartsFresh event s) (ht : transition s.machineState event = some target) : VotesOnce target s := by
  refine ⟨h.nodup, fun heq => hs (heq ▸ ht), fun haf => ?_⟩
  rcases transition_afterCollecting ht haf with hc | hph
  · exact (h.fresh hc).chosen
  · exact h.chosen hph

theorem votesOnce_kept : Kept (votesKept : Rules (Machine St Vt Pr Co) (@Answer St Vt Co Pr)) StartsFresh VotesOnce where
  rely := rfl
  observe := rfl
  quiet hs hnd := hs.cast ▸ hnd
  stable hs h := h.quiet hs
  answers _ _ := trivial
  halt h := .of_nodup h.nodup Phase.noConfusion rfl
  restart h := .of_nodup h.nodup Phase.noConfusion rfl
  enter h hsta htgt := h.enter hsta htgt
  adopt h _ := ⟨id, .of_nodup h.nodup Phase.noConfusion rfl⟩
  clear {s s'} h hs := by
    have hfr : Fresh { s with chosenProposer := none } := h.fresh rfl
    exact ⟨fun hnd => hs.cast ▸ hnd, hs.cast ▸ h.nodup, fun _ => hfr.quiet hs, nofun⟩
  vote h hc _ := h.voted hc
  choose peer h hc hs := ⟨id, hs.cast ▸ h.voted hc, Phase.noConfusion, fun _ active _ _ => some_ne_none peer⟩
  finalize {s s' active votes finalized} h _ hs _ := by
    have hc : Chosen s' := (h.chosen rfl).quiet hs
    exact ⟨id, hs.cast ▸ h.nodup, Phase.noConfusion, fun _ => hc⟩
  progress h _ := ⟨id, .of_nodup h.nodup Phase.noConfusion rfl⟩

variable [Unique Vt] [Unique Pr] [Unique Co]

/-- In every run that enters `Collecting` only before the vote of its rank, one vote is cast for each rank. -/
theorem votes_once (cfg : Settings Pr) (initialState : Option St) {c : Config (Machine St Vt Pr Co) (@Answer St Vt Co Pr) Event}
    (hc : (system cfg).Reaches (fun _ _ _ => True) StartsFresh (Machine.new initialState) c) (r : UInt64) :
    c.shared.cast.count r ≤ 1 := by
  have hnew : (Machine.new initialState : Machine St Vt Pr Co).cast.Nodup := List.nodup_nil
  have hst : Standing VotesOnce (Machine.new initialState : Machine St Vt Pr Co) := .of_nodup hnew Phase.noConfusion rfl
  have hkp : (system cfg : System (Machine St Vt Pr Co) (@Answer St Vt Co Pr) Event).Keeps votesKept StartsFresh
    (Standing VotesOnce) := votesOnce_kept.keeps
  exact List.nodup_iff_count_le_one.mp (hkp.guarantees_run (fun h h' => h' ∘ h) hst .refl hc hnew) r

end Votes

/-- Providers of a lonely machine: they finalise the first proposal and synchronise to the given state; while a next
    state waits they finalise nothing and synchronise to rank 5. -/
def sampleAnswer : (q : Query Ranked Ranked Ranked) → Machine Ranked Ranked Ranked Ranked → Answer Ranked q
  | .synchronize existing, s => .state (if s.nextState.isSome then ⟨5⟩ else existing.getD ⟨0⟩)
  | .getNextLeaders _, _ => some [⟨0⟩]
  | .collect, _ => some ⟨0⟩
  | .sendLiveness _ _, _ => true
  | .proveNextState prior _, _ => prior.map fun state => ⟨state.rank + 1⟩
  | .sendProposal _, _ => true
  | .decideAndSendVote _, _ => some (⟨0⟩, ⟨0⟩)
  | .isQuorum _, _ => some true
  | .finalizeVotes proposals _, s => if s.nextState.isSome then none else proposals.head?.map Prod.snd
  | .sendConfirmation _, _ => true
  | .minimumProvers, _ => (0 : Nat)

def sampleRound : List Event := [.syncComplete, .collectionDone, .proverSignal, .proofComplete, .publishComplete]

def sampleFinalization : List Event := [.votingTimeout, .quorumReached]

def sampleSystem : System (Machine Ranked Ranked Ranked Ranked) (@Answer Ranked Ranked Ranked Ranked) Event :=
  system sampleSettings

theorem sample_posts : ∀ e ∈ [Event.start, .induceSync], sampleSystem.Posts e := by
  rintro e (_ | ⟨_, _ | ⟨_, ⟨⟩⟩⟩)
  · exact .inl rfl
  · exact .inr (.inr rfl)

/-- A synchronisation after the vote leads to the same rank, where the machine votes again. -/
theorem voted_twice : ∃ c, sampleSystem.Reaches (fun _ _ _ => True) (fun _ _ => True) (Machine.new (some ⟨0⟩)) c ∧
    c.shared.cast.count 0 = 2 := by
  have hr : (sampleSystem.drive (fun _ _ _ => True) (fun _ _ => True) sampleAnswer
      ([.start, .initComplete] ++ sampleRound ++ [.induceSync] ++ sampleRound) (.new (some ⟨0⟩)) [.start, .induceSync]).map
        (fun ends => ends.1.cast) = some [0, 0] := by decide +kernel
  obtain ⟨⟨s, sent⟩, hdv, hcs⟩ := map_eq_some_iff.mp hr
  refine ⟨_, System.drive_reaches sample_posts hdv, ?_⟩
  change s.cast.count 0 = 2
  rw [show s.cast = [0, 0] from hcs]
  rfl

theorem votes_once_first_round : ∃ c, sampleSystem.Reaches (fun _ _ _ => True) StartsFresh (Machine.new (some ⟨0⟩)) c ∧
    c.shared.cast = [0] ∧ c.shared.cast.count 0 ≤ 1 := by
  have hrun : (sampleSystem.drive (fun _ _ _ => True) StartsFresh sampleAnswer ([.start, .initComplete] ++ sampleRound)
      (.new (some ⟨0⟩)) [.start, .induceSync]).map (fun ends => ends.1.cast) = some [0] := by decide +kernel
  obtain ⟨⟨s, sent⟩, hdv, hcs⟩ := map_eq_some_iff.mp hrun
  have hr := System.drive_reaches sample_posts hdv
  exact ⟨_, hr, hcs, votes_once sampleSettings (some (⟨0⟩ : Ranked)) hr 0⟩

/-! ### Ranks -/

section Ranks
variable {St Vt Pr Co : Type} [Unique St] {s s' : Machine St Vt Pr Co}

def synchronized : (q : Query St Vt Co) → Answer Pr q → Option St
  | .synchronize _, .state newState => some newState
  | _, _ => none

def finalized : (q : Query St Vt Co) → Answer Pr q → Option (List (String × St) × St)
  | .finalizeVotes proposals _, some finalized => some (proposals, finalized)
  | _, _ => none

/-- `Synchronize` returns no state of a smaller rank, and `FinalizeVotes` one of the rank of a proposal. -/
def Conforms (q : Query St Vt Co) (a : Answer Pr q) (s : Machine St Vt Pr Co) : Prop :=
  (∀ newState ∈ synchronized q a, ∀ active ∈ s.activeState, rank active ≤ rank newState) ∧
    ∀ result ∈ finalized q a, ∃ entry ∈ result.1, rank result.2 = rank entry.2

/-- `Synchronize` returns no higher rank than that of a next state that waits, and votes are finalised below the last
    rank. -/
def Settled (q : Query St Vt Co) (a : Answer Pr q) (s : Machine St Vt Pr Co) : Prop :=
  (∀ newState ∈ synchronized q a, ∀ next ∈ s.nextState, rank newState ≤ rank next) ∧
    ∀ result ∈ finalized q a, ∀ active ∈ s.activeState, rank active < rank active + 1

instance Conforms.instDecidable {q : Query St Vt Co} {a : Answer Pr q} : Decidable (Conforms q a s) :=
  inferInstanceAs (Decidable (_ ∧ _))

instance Settled.instDecidable {q : Query St Vt Co} {a : Answer Pr q} : Decidable (Settled q a s) :=
  inferInstanceAs (Decidable (_ ∧ _))

def Orderly (q : Query St Vt Co) (a : Answer Pr q) (s : Machine St Vt Pr Co) : Prop := Conforms q a s ∧ Settled q a s

instance Orderly.instDecidable {q : Query St Vt Co} {a : Answer Pr q} : Decidable (Orderly q a s) :=
  inferInstanceAs (Decidable (_ ∧ _))

def NotBelow (s s' : Machine St Vt Pr Co) : Prop :=
  ∀ active ∈ s.activeState, ∃ active' ∈ s'.activeState, rank active ≤ rank active'

/-- The next state is not of a smaller rank than the active one, and proposals are filed under their rank. -/
structure RanksOrdered (s : Machine St Vt Pr Co) : Prop where
  next : ∀ next ∈ s.nextState, ∀ active ∈ s.activeState, rank active ≤ rank next
  keyed : s.proposals.Keyed

/-- The rules of a run in which the active rank does not decrease. -/
def ranksKept : Rules (Machine St Vt Pr Co) (@Answer St Vt Co Pr) where
  rely := Interferes
  guar := NotBelow
  allowed := Orderly
  observe := observe

theorem NotBelow.of_eq (h : s'.activeState = s.activeState) : NotBelow s s' :=
  fun active hact => ⟨active, h ▸ hact, UInt64.le_refl _⟩

theorem NotBelow.trans {s₁ s₂ s₃ : Machine St Vt Pr Co} (h : NotBelow s₁ s₂) (h' : NotBelow s₂ s₃) : NotBelow s₁ s₃ := by
  intro active hact
  obtain ⟨active₂, hact₂, hle⟩ := h active hact
  obtain ⟨active₃, hact₃, hle'⟩ := h' active₂ hact₂
  exact ⟨active₃, hact₃, UInt64.le_trans hle hle'⟩

theorem RanksOrdered.quiet (h : RanksOrdered s) (hs : Quiet s s') : RanksOrdered s' :=
  ⟨by rw [hs.nextState, hs.activeState]; exact h.next, hs.keyed h.keyed⟩

theorem ranksOrdered_kept : Kept (ranksKept : Rules (Machine St Vt Pr Co) (@Answer St Vt Co Pr)) (fun _ _ => True)
    fun _ => RanksOrdered where
  rely := rfl
  observe := rfl
  quiet hs := .of_eq hs.activeState
  stable hs h := h.quiet hs
  answers hs h := by
    simp only [ranksKept, Orderly, Conforms, Settled, hs.activeState, hs.nextState]
    exact h
  halt h := h
  restart h := h
  enter h _ _ := h
  adopt {s existing newState} h ha := by
    refine ⟨fun active hact => ⟨newState, rfl, ha.1.1 newState rfl active hact⟩, fun next hnx active hact => ?_, h.keyed⟩
    obtain rfl := some.inj hact
    exact ha.2.1 newState rfl next hnx
  clear {s s'} h hs := by
    have hs' : RanksOrdered { s with chosenProposer := none } := ⟨h.next, h.keyed⟩
    exact ⟨.of_eq hs.activeState, hs'.quiet hs⟩
  vote _ _ := .of_eq rfl
  choose {s s'} peer h _ hs := by
    have hvt : RanksOrdered s.voted := ⟨h.next, h.keyed⟩
    exact ⟨.of_eq rfl, (hvt.quiet hs).next, (hvt.quiet hs).keyed⟩
  finalize {s s' active votes finalized} h hact hs ha := by
    refine ⟨.of_eq rfl, fun next hnx active' hact' => ?_, hs.keyed h.keyed⟩
    obtain rfl := some.inj hnx
    obtain rfl : active = active' := some.inj (hact.symm.trans (hs.activeState.symm.trans hact'))
    obtain ⟨entry, hen, hrn⟩ := ha.1.2 _ rfl
    rw [hrn, h.keyed _ entry hen]
    exact UInt64.le_of_lt (ha.2.2 _ rfl active hact')
  progress {s next} h hnx := by
    refine ⟨fun active hact => ⟨next, rfl, h.next next hnx active hact⟩, fun next' hnx' => ?_, h.keyed.delete⟩
    cases hnx'

variable [Unique Vt] [Unique Pr] [Unique Co]

/-- In every run whose answers conform and are settled, the rank of the active state never decreases. -/
theorem rank_never_decreases (cfg : Settings Pr) (initialState : Option St)
    {c c' : Config (Machine St Vt Pr Co) (@Answer St Vt Co Pr) Event}
    (hc : (system cfg).Reaches Orderly (fun _ _ => True) (Machine.new initialState) c) (hrun : Relation.ReflTransGen
      ((system cfg).Step Orderly fun _ _ => True) c c') : NotBelow c.shared c'.shared := by
  have hst : Standing (fun _ => RanksOrdered) (Machine.new initialState : Machine St Vt Pr Co) :=
    ⟨nofun, nofun⟩
  have hkp : (system cfg : System (Machine St Vt Pr Co) (@Answer St Vt Co Pr) Event).Keeps ranksKept (fun _ _ => True)
    (Standing fun _ => RanksOrdered) := ranksOrdered_kept.keeps
  exact hkp.guarantees_run NotBelow.trans hst hc hrun

end Ranks

/-- Votes are finalised at rank 1, a synchronisation leads to rank 5, and there the old `AggregationDone` brings back the
    state of rank 1. -/
theorem rank_decreases : ∃ c c', sampleSystem.Reaches Conforms (fun _ _ => True) (Machine.new (some ⟨0⟩)) c ∧
    Relation.ReflTransGen (sampleSystem.Step Conforms fun _ _ => True) c c' ∧ ¬ NotBelow c.shared c'.shared := by
  have hr : ((sampleSystem.drive Conforms (fun _ _ => True) sampleAnswer
      ([.start, .initComplete] ++ sampleRound ++ sampleFinalization ++ [.induceSync]) (.new (some ⟨0⟩))
      [.start, .induceSync]).bind fun ends => (sampleSystem.drive Conforms (fun _ _ => True) sampleAnswer
        (sampleRound ++ sampleFinalization ++ [.aggregationDone]) ends.1 ends.2).map
          fun ends' => (ends.1.activeState, ends'.1.activeState)) = some (some ⟨5⟩, some ⟨1⟩) := by decide +kernel
  obtain ⟨⟨s, sent⟩, hdv, hrs⟩ := bind_eq_some_iff.mp hr
  obtain ⟨⟨s', sent'⟩, hdv', hact⟩ := map_eq_some_iff.mp hrs
  refine ⟨_, _, System.drive_reaches sample_posts hdv, System.drive_steps hdv', fun hbl => ?_⟩
  obtain ⟨hact, hact'⟩ := Prod.mk.inj hact
  obtain ⟨active, hm, hle⟩ := hbl ⟨5⟩ hact
  obtain rfl := some.inj (hact'.symm.trans hm)
  exact absurd hle (by decide)

theorem rank_never_decreases_first_round :
    ∃ c c', sampleSystem.Reaches Orderly (fun _ _ => True) (Machine.new (some ⟨0⟩)) c ∧
      Relation.ReflTransGen (sampleSystem.Step Orderly fun _ _ => True) c c' ∧
      c.shared.activeState = some ⟨0⟩ ∧ c'.shared.activeState = some ⟨1⟩ ∧ NotBelow c.shared c'.shared := by
  have hrun : ((sampleSystem.drive Orderly (fun _ _ => True) sampleAnswer
      ([.start, .initComplete] ++ sampleRound) (.new (some ⟨0⟩)) [.start, .induceSync]).bind fun ends =>
        (sampleSystem.drive Orderly (fun _ _ => True) sampleAnswer
          (sampleFinalization ++ [.aggregationDone]) ends.1 ends.2).map
            fun ends' => (ends.1.activeState, ends'.1.activeState)) = some (some ⟨0⟩, some ⟨1⟩) := by decide +kernel
  obtain ⟨⟨s, sent⟩, hdv, hrs⟩ := bind_eq_some_iff.mp hrun
  obtain ⟨⟨s', sent'⟩, hdv', hact⟩ := map_eq_some_iff.mp hrs
  obtain ⟨hact, hact'⟩ := Prod.mk.inj hact
  have hr := System.drive_reaches sample_posts hdv
  have hst := System.drive_steps hdv'
  exact ⟨_, _, hr, hst, hact, hact', rank_never_decreases sampleSettings (some (⟨0⟩ : Ranked)) hr hst⟩

end StateMachine
end Quilibrium
