import Quilibrium.Consensus.StateMachine

/-! What the receive calls and `Close` may do to the machine while a behaviour runs: they add to the tables under the mutex,
    and end the machine. -/

namespace Quilibrium
open Function
namespace StateMachine
open Monitor

/-! ### Tables -/

namespace Table

variable {V : Type} {t : Table V} {r r' : UInt64} {id id' : String} {v : V}

theorem get_isSome_iff : (t.get r id).isSome ↔ ∃ entry ∈ t r, entry.1 = id := by
  rw [get, List.lookup_isSome_iff]
  exact exists_congr fun entry => and_congr_right fun _ => by rw [beq_iff_eq, eq_comm]

theorem mem_put {entry : String × V} (h : entry ∈ t.put r id v r') : entry ∈ t r' ∨ r' = r ∧ entry = (id, v) := by
  by_cases hr : r' = r
  · subst hr
    rw [put, update_self, List.mem_append, List.mem_singleton] at h
    exact h.imp (fun hm => (List.mem_filter.mp hm).1) fun heq => ⟨rfl, heq⟩
  · rw [put, update_of_ne hr] at h
    exact .inl h

theorem get_put_self : ((t.put r id v).get r id).isSome := by
  rw [get_isSome_iff]
  exact ⟨(id, v), by simp [put], rfl⟩

theorem get_put_of_isSome (h : (t.get r' id').isSome) : ((t.put r id v).get r' id').isSome := by
  by_cases hsm : r' = r ∧ id' = id
  · obtain ⟨rfl, rfl⟩ := hsm
    exact get_put_self
  · obtain ⟨entry, hen, rfl⟩ := get_isSome_iff.mp h
    refine get_isSome_iff.mpr ⟨entry, ?_, rfl⟩
    by_cases hr : r' = r
    · subst hr
      have hid : entry.1 ≠ id := fun heq => hsm ⟨rfl, heq⟩
      simp [put, hen, hid]
    · rwa [put, update_of_ne hr]

theorem mem_putNew {entry : String × V} (h : entry ∈ t.putNew r id v r') : entry ∈ t r' ∨ r' = r ∧ entry = (id, v) := by
  rw [putNew] at h
  split_ifs at h
  · exact .inl h
  · exact mem_put h

theorem get_putNew_of_isSome (h : (t.get r' id').isSome) : ((t.putNew r id v).get r' id').isSome := by
  rw [putNew]
  split_ifs
  · exact h
  · exact get_put_of_isSome h

def Keyed [Unique V] (t : Table V) : Prop := ∀ r, ∀ entry ∈ t r, rank entry.2 = r

theorem Keyed.put [Unique V] (h : Keyed t) : Keyed (t.put (rank v) id v) := by
  intro r entry hen
  rcases mem_put hen with hm | ⟨rfl, rfl⟩
  · exact h r entry hm
  · rfl

theorem Keyed.putNew [Unique V] (h : Keyed t) : Keyed (t.putNew (rank v) id v) := by
  intro r entry hen
  rcases mem_putNew hen with hm | ⟨rfl, rfl⟩
  · exact h r entry hm
  · rfl

theorem Keyed.delete [Unique V] (h : Keyed t) : Keyed (t.delete r) := by
  intro r' entry hen
  by_cases hr : r' = r
  · subst hr
    rw [delete, update_self] at hen
    cases hen
  · rw [Table.delete, update_of_ne hr] at hen
    exact h r' entry hen

end Table

/-! ### Interference -/

variable {St Vt Pr Co : Type} [Unique St] [Unique Vt] [Unique Pr] [Unique Co] {s s₁ s₂ s₃ : Machine St Vt Pr Co}

structure Interferes (s s' : Machine St Vt Pr Co) : Prop where
  machineState : s'.machineState = s.machineState ∨ s'.machineState = .stopped
  activeState : s'.activeState = s.activeState
  nextState : s'.nextState = s.nextState
  collected : s'.collected = s.collected
  chosenProposer : s'.chosenProposer = s.chosenProposer
  cast : s'.cast = s.cast
  proposals : ∀ {r id}, (s.proposals.get r id).isSome → (s'.proposals.get r id).isSome
  keyed : s.proposals.Keyed → s'.proposals.Keyed

namespace Interferes

omit [Unique Vt] [Unique Pr] [Unique Co] in
theorem refl (s : Machine St Vt Pr Co) : Interferes s s := ⟨.inl rfl, rfl, rfl, rfl, rfl, rfl, id, id⟩

omit [Unique Vt] [Unique Pr] [Unique Co] in
theorem trans (h : Interferes s₁ s₂) (h' : Interferes s₂ s₃) : Interferes s₁ s₃ where
  machineState := h'.machineState.elim (fun heq => heq ▸ h.machineState) .inr
  activeState := h'.activeState.trans h.activeState
  nextState := h'.nextState.trans h.nextState
  collected := h'.collected.trans h.collected
  chosenProposer := h'.chosenProposer.trans h.chosenProposer
  cast := h'.cast.trans h.cast
  proposals := h'.proposals ∘ h.proposals
  keyed := h'.keyed ∘ h.keyed

end Interferes

omit [Unique Vt] [Unique Pr] [Unique Co] in
theorem close_guards (held : Bool) : Guards Interferes held (close : Code St Vt Pr Co Unit) :=
  ⟨fun _ => ⟨.inr rfl, rfl, rfl, rfl, rfl, rfl, id, id⟩, .inl rfl, fun _ => trivial⟩

theorem Call.guards {p : Code St Vt Pr Co Unit} (h : Call p) : Guards Interferes false p := by
  cases h with
  | livenessCheck peer collected =>
    exact ⟨fun _ => ⟨.inl rfl, rfl, rfl, rfl, rfl, rfl, id, id⟩, .inl rfl, fun _ => trivial⟩
  | proposal peer proposal =>
    exact ⟨fun _ => ⟨.inl rfl, rfl, rfl, rfl, rfl, rfl, Table.get_putNew_of_isSome, Table.Keyed.putNew⟩, .inl rfl,
      fun _ => trivial⟩
  | vote voter vote =>
    refine ⟨fun s => .refl s, .inl rfl, fun s => ?_⟩
    dsimp only [Program.bind]
    split
    · exact ⟨fun _ => ⟨.inl rfl, rfl, rfl, rfl, rfl, rfl, id, id⟩, .inl rfl, fun _ => trivial⟩
    · split_ifs
      · trivial
      · trivial
  | confirmation peer confirmation =>
    exact ⟨fun _ => ⟨.inl rfl, rfl, rfl, rfl, rfl, rfl, id, id⟩, .inl rfl, fun _ => trivial⟩
  | close => exact close_guards false

/-! ### A sample -/

/-- States, votes and provers that are told apart by their rank alone. -/
structure Ranked where
  rank : UInt64
  deriving DecidableEq

instance Ranked.instUnique : Unique Ranked where
  identity _ := ""
  rank r := r.rank

def sampleSettings : Settings Ranked where
  id := ⟨0⟩
  shouldEmitReceiveEventsOnSends := false
  hasSyncProvider := true

end StateMachine
end Quilibrium
