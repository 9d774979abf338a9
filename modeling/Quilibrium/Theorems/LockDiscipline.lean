import Quilibrium.Theorems.Interference

/-! When the mutex of the state machine is given back: not by a behaviour that panics, nor by `Publishing` without a
    proposal. -/

namespace Quilibrium
open Option
namespace StateMachine
open Monitor Program

section Discipline
variable {St Vt Pr Co α β : Type} [Unique St]

/-- Providers that answer anything, beside other goroutines that make calls. -/
def anyAnswer : Rules (Machine St Vt Pr Co) (@Answer St Vt Co Pr) where
  rely := Interferes
  guar _ _ := True
  allowed _ _ _ := True
  observe := observe

def Released (held : Bool) (o : Outcome α) (_ : Machine St Vt Pr Co) : Prop := held = false ∧ ∃ a, o = .done a

def Clean (p : Code St Vt Pr Co α) (s : Machine St Vt Pr Co) : Prop := anyAnswer.wp false p Released s

def CleanHeld (p : Code St Vt Pr Co α) (s : Machine St Vt Pr Co) : Prop := anyAnswer.wp true p Released s

/-! ### Steps -/

variable {s s' : Machine St Vt Pr Co} {f : β → Code St Vt Pr Co α} {g : Unit → Code St Vt Pr Co α}

@[simp] theorem clean_pure (a : α) : Clean (pure a) s := ⟨rfl, a, rfl⟩

@[simp] theorem clean_emit (e : Event) : Clean (emit e) s := ⟨rfl, (), rfl⟩

@[simp] theorem clean_emit_bind (e : Event) : Clean (emit e >>= g) s ↔ Clean (g ()) s := Rules.wp_emit_bind e

@[simp] theorem clean_acquire : Clean (acquire >>= g) s ↔ ∀ s', Interferes s s' → CleanHeld (g ()) s' :=
  Rules.wp_acquire_bind

@[simp] theorem clean_read (r : Machine St Vt Pr Co → β) :
    Clean (read r >>= f) s ↔ ∀ s', Interferes s s' → Clean (f (r s')) s' :=
  forall₂_congr fun _ _ => .of_eq (true_and _)

theorem clean_call (q : Query St Vt Co) {f : Answer Pr q → Code St Vt Pr Co α} :
    Clean (call q >>= f) s ↔ ∀ s' a, Interferes s s' → Clean (f a) (observe q a s') :=
  forall₃_congr fun _ _ _ => true_imp_iff.trans (Iff.of_eq (true_and _))

@[simp] theorem not_cleanHeld_pure (a : α) : ¬ CleanHeld (pure a) s := fun h => Bool.false_ne_true h.1.symm

@[simp] theorem cleanHeld_acquire : ¬ CleanHeld (acquire >>= g) s := fun h => by
  have h := (Rules.wp_acquire_held_bind.mp h).1
  exact Bool.false_ne_true h.symm

@[simp] theorem cleanHeld_release : CleanHeld release s := Rules.wp_release.mpr ⟨rfl, (), rfl⟩

@[simp] theorem cleanHeld_release_bind : CleanHeld (release >>= g) s ↔ Clean (g ()) s := Rules.wp_release_bind

@[simp] theorem cleanHeld_emit_bind (e : Event) : CleanHeld (emit e >>= g) s ↔ CleanHeld (g ()) s := Rules.wp_emit_bind e

@[simp] theorem cleanHeld_read (r : Machine St Vt Pr Co → β) : CleanHeld (read r >>= f) s ↔ CleanHeld (f (r s)) s :=
  (Rules.wp_read_bind r).trans (Iff.of_eq (true_and _))

@[simp] theorem cleanHeld_modify (u : Machine St Vt Pr Co → Machine St Vt Pr Co) :
    CleanHeld (modify u >>= g) s ↔ CleanHeld (g ()) (u s) :=
  (Rules.wp_modify_bind u).trans (Iff.of_eq (true_and _))

@[simp] theorem cleanHeld_deref_none : ¬ CleanHeld (deref none >>= f) s := fun h => by
  obtain ⟨hhl, -⟩ := Rules.wp_deref_bind_none.mp h
  exact Bool.false_ne_true hhl.symm

@[simp] theorem cleanHeld_deref_some (b : β) : CleanHeld (deref (some b) >>= f) s ↔ CleanHeld (f b) s :=
  Rules.wp_deref_bind_some b

@[simp] theorem cleanHeld_minimumProvers {f : Nat → Code St Vt Pr Co α} :
    CleanHeld (minimumProvers >>= f) s ↔ ∀ n, CleanHeld (f n) s := by
  constructor
  · exact fun h n => (h s n rfl trivial).2
  · rintro h _ n rfl -
    exact ⟨trivial, h n⟩

theorem Clean.interferes {p : Code St Vt Pr Co α} (h : Clean p s) (hs : Interferes s s') : Clean p s' :=
  Rules.wp_rely (fun h h' => h.trans h') (fun _ _ _ _ hr => hr) h hs

theorem clean_bind {p : Code St Vt Pr Co β} (hf : ∀ b s, Clean (f b) s) (hhl : ∀ b s, ¬ CleanHeld (f b) s) :
    Clean (p >>= f) s ↔ Clean p s := by
  rw [Clean, Rules.wp_bind]
  constructor
  · refine fun h => Rules.wp_mono h fun held o s' ho => ?_
    cases o with
    | done b =>
      cases held with
      | false => exact ⟨rfl, b, rfl⟩
      | true => exact absurd ho (hhl b s')
    | panicked => simp [Released] at ho
    | blocked => simp [Released] at ho
    | misused => simp [Released] at ho
  · refine fun h => Rules.wp_mono h fun held o s' ho => ?_
    obtain ⟨rfl, b, rfl⟩ := ho
    exact hf b s'

end Discipline

section Phases
variable {St Vt Pr Co : Type} [Unique St] {data : Option St} {s s' : Machine St Vt Pr Co}

/-! ### Behaviours -/

theorem countLiveness_clean_iff : Clean (countLiveness data) s ↔ s.collected.isSome ∧ s.activeState.isSome := by
  rw [countLiveness, clean_acquire]
  constructor
  · intro h
    have hhl := h s (.refl s)
    rw [cleanHeld_read] at hhl
    cases hcl : s.collected with
    | none => simp [hcl] at hhl
    | some collected =>
      rw [hcl, cleanHeld_deref_some, cleanHeld_release_bind, clean_acquire] at hhl
      have hhl := hhl s (.refl s)
      cases hact : s.activeState with
      | none => simp [hact] at hhl
      | some active => exact ⟨rfl, rfl⟩
  · rintro ⟨hcl, hact⟩ s₁ hs₁
    obtain ⟨collected, hcl⟩ := isSome_iff_exists.mp (hs₁.collected ▸ hcl)
    rw [cleanHeld_read, hcl, cleanHeld_deref_some, cleanHeld_release_bind]
    refine clean_acquire.mpr fun s₂ hs₂ => ?_
    obtain ⟨active, hact⟩ := isSome_iff_exists.mp ((hs₁.trans hs₂).activeState ▸ hact)
    rw [cleanHeld_read, hact, cleanHeld_deref_some, cleanHeld_read, cleanHeld_release_bind]
    refine (clean_call _).mpr fun s₃ n hs₃ => ?_
    split_ifs
    · exact clean_emit _
    · exact (clean_call _).mpr fun s₄ sent hs₄ => clean_pure _

theorem livenessCheck_clean_iff : Clean (livenessCheck data) s ↔ s.collected.isSome ∧ s.activeState.isSome := by
  rw [livenessCheck, clean_acquire]
  constructor
  · intro h
    have hcl := h s (.refl s)
    rw [cleanHeld_read, cleanHeld_release_bind] at hcl
    have hcn := (clean_call _).mp hcl s (0 : Nat) (.refl s)
    exact countLiveness_clean_iff.mp hcn
  · intro hrd s₁ hs₁
    rw [cleanHeld_read, cleanHeld_release_bind]
    refine (clean_call _).mpr fun s₂ n hs₂ => ?_
    split_ifs
    · refine (clean_call _).mpr fun s₃ leaders hs₃ => ?_
      cases leaders with
      | none => exact clean_pure _
      | some leaders =>
        refine clean_acquire.mpr fun s₄ hs₄ => ?_
        simp only [cleanHeld_modify, cleanHeld_release_bind]
        have hs := hs₁.trans (hs₂.trans (hs₃.trans hs₄))
        exact countLiveness_clean_iff.mpr (by rwa [hs.collected, hs.activeState])
    · exact (countLiveness_clean_iff.mpr hrd).interferes (hs₁.trans hs₂)

theorem countVotes_cleanHeld (h : s.activeState.isSome) : CleanHeld (countVotes : Code St Vt Pr Co Unit) s := by
  obtain ⟨active, hact⟩ := isSome_iff_exists.mp h
  rw [countVotes, cleanHeld_read, hact, cleanHeld_deref_some, cleanHeld_read, cleanHeld_read, cleanHeld_minimumProvers]
  intro n
  refine (clean_call _).mpr fun s₁ quorum hs₁ => ?_
  cases quorum with
  | none => exact clean_pure _
  | some quorum =>
    dsimp only
    split_ifs
    · exact clean_emit _
    · exact clean_pure _

theorem finalizing_clean_iff : Clean (finalizing : Code St Vt Pr Co Unit) s ↔ s.activeState.isSome := by
  rw [finalizing, clean_acquire]
  constructor
  · intro h
    have hhl := h s (.refl s)
    cases hact : s.activeState with
    | none => simp [hact] at hhl
    | some active => rfl
  · intro hact s₁ hs₁
    obtain ⟨active, hact⟩ := isSome_iff_exists.mp (hs₁.activeState ▸ hact)
    rw [cleanHeld_read, hact, cleanHeld_deref_some, cleanHeld_read, cleanHeld_read, cleanHeld_release_bind]
    refine (clean_call _).mpr fun s₂ finalized hs₂ => ?_
    cases finalized with
    | none => exact clean_pure _
    | some finalized =>
      refine clean_acquire.mpr fun s₃ hs₃ => ?_
      simp

theorem progress_cleanHeld : CleanHeld (progress : Code St Vt Pr Co Unit) s := by
  rw [progress, cleanHeld_read]
  split
  · exact cleanHeld_release
  · simp

variable [Unique Pr] {cfg : Settings Pr}

theorem loading_clean : Clean (loading cfg) s := by
  rw [loading]
  split_ifs
  · refine (clean_read _).mpr fun s₁ hs₁ => (clean_call _).mpr fun s₂ ans hs₂ => ?_
    cases ans with
    | state newState =>
      refine clean_acquire.mpr fun s₃ hs₃ => ?_
      simp only [cleanHeld_modify, cleanHeld_release_bind]
      refine (clean_call _).mpr fun s₄ leaders hs₄ => ?_
      cases leaders with
      | none => exact clean_pure _
      | some leaders =>
        dsimp only
        split_ifs
        · exact clean_emit _
        · exact clean_emit _
    | error => exact clean_emit _
    | cancelled => exact clean_pure _
  · exact clean_pure _

theorem proving_clean : Clean (proving cfg data) s := by
  refine clean_acquire.mpr fun s₁ hs₁ => ?_
  rw [cleanHeld_read, cleanHeld_release_bind]
  split
  · exact clean_pure _
  · refine (clean_call _).mpr fun s₂ proposal hs₂ => ?_
    cases proposal with
    | none => exact clean_pure _
    | some proposal =>
      refine clean_acquire.mpr fun s₃ hs₃ => ?_
      simp

theorem publishing_clean_iff : Clean (publishing cfg data) s ↔
    ∃ prior, data = some prior ∧ (s.proposals.get (rank prior + 1) (identity cfg.id)).isSome := by
  rw [publishing, clean_acquire]
  constructor
  · intro h
    have hhl := h s (.refl s)
    cases data with
    | none => exact absurd hhl cleanHeld_deref_none
    | some prior =>
      rw [cleanHeld_deref_some, cleanHeld_read] at hhl
      cases ho : s.proposals.get (rank prior + 1) (identity cfg.id) with
      | none =>
        rw [ho] at hhl
        exact absurd hhl (not_cleanHeld_pure _)
      | some proposal => exact ⟨prior, rfl, by rw [ho]; rfl⟩
  · rintro ⟨prior, rfl, ho⟩ s₁ hs₁
    obtain ⟨proposal, hprp⟩ := isSome_iff_exists.mp (hs₁.proposals ho)
    rw [cleanHeld_deref_some, cleanHeld_read, hprp]
    refine (clean_call _).mpr fun s₂ sent hs₂ => ?_
    split_ifs
    · exact clean_emit _
    · exact clean_pure _

theorem castVote_cleanHeld (h : s.activeState.isSome) : CleanHeld (castVote cfg) s := by
  obtain ⟨active, hact⟩ := isSome_iff_exists.mp h
  rw [castVote, cleanHeld_read, hact, cleanHeld_deref_some, cleanHeld_read, cleanHeld_minimumProvers]
  intro n
  split
  · exact cleanHeld_release
  · rw [cleanHeld_read]
    split
    · exact cleanHeld_release
    · rw [cleanHeld_read, cleanHeld_release_bind]
      refine (clean_call _).mpr fun s₁ ans hs₁ => ?_
      cases ans with
      | none => exact clean_pure _
      | some ans =>
        refine clean_acquire.mpr fun s₂ hs₂ => ?_
        have hact₂ : s₂.activeState = some active := hs₂.activeState.trans (hs₁.activeState.trans hact)
        rw [cleanHeld_modify]
        split
        · rw [cleanHeld_read, hact₂]
          simp
        · exact cleanHeld_release

theorem voting_clean_iff : Clean (voting cfg) s ↔ s.activeState.isSome := by
  rw [voting, clean_acquire]
  constructor
  · intro h
    have hhl := h s (.refl s)
    rw [cleanHeld_read] at hhl
    cases hact : s.activeState with
    | none =>
      split at hhl
      · simp [castVote, hact] at hhl
      · simp [countVotes, hact] at hhl
    | some active => rfl
  · intro hact s₁ hs₁
    rw [cleanHeld_read]
    have hact₁ : s₁.activeState.isSome := by rwa [hs₁.activeState]
    split
    · exact castVote_cleanHeld hact₁
    · exact countVotes_cleanHeld hact₁

theorem verifying_clean_iff : Clean (verifying cfg) s ↔ s.activeState.isSome := by
  rw [verifying, clean_acquire]
  constructor
  · intro h
    have hhl := h s (.refl s)
    cases hact : s.activeState with
    | none => simp [hact] at hhl
    | some active => rfl
  · intro hact s₁ hs₁
    obtain ⟨active, hact⟩ := isSome_iff_exists.mp (hs₁.activeState ▸ hact)
    rw [cleanHeld_read, hact, cleanHeld_deref_some, cleanHeld_read, cleanHeld_read]
    split
    · rw [cleanHeld_release_bind]
      exact (clean_call _).mpr fun s₂ sent hs₂ => clean_acquire.mpr fun s₃ hs₃ => progress_cleanHeld
    · exact progress_cleanHeld

variable [Unique Co]

theorem collecting_clean : Clean (collecting cfg data) s := by
  refine (clean_call _).mpr fun s₁ collected hs₁ => ?_
  cases collected with
  | none => exact clean_emit _
  | some collected =>
    refine clean_acquire.mpr fun s₂ hs₂ => ?_
    simp only [cleanHeld_modify, cleanHeld_release_bind]
    refine (clean_call _).mpr fun s₃ leaders hs₃ => ?_
    cases leaders with
    | none => exact clean_emit _
    | some leaders =>
      refine clean_acquire.mpr fun s₄ hs₄ => ?_
      simp only [cleanHeld_modify, cleanHeld_release_bind]
      refine (clean_call _).mpr fun s₅ sent hs₅ => ?_
      -- what was collected above is still there
      have hcl : ∀ s₆, Interferes s₅ s₆ → s₆.collected = some collected := fun s₆ hs₆ =>
        hs₆.collected.trans (hs₅.collected.trans (hs₄.collected.trans hs₃.collected))
      split
      · refine clean_acquire.mpr fun s₆ hs₆ => ?_
        split
        · rw [cleanHeld_read, hcl s₆ hs₆]
          simp
        · simp
      · exact clean_emit _

/-- What the behaviour of a phase needs in the tables and the states to give the mutex back. -/
def Ready (cfg : Settings Pr) (data : Option St) (s : Machine St Vt Pr Co) : Phase → Prop
  | .livenessCheck => s.collected.isSome ∧ s.activeState.isSome
  | .publishing => ∃ prior, data = some prior ∧ (s.proposals.get (rank prior + 1) (identity cfg.id)).isSome
  | .voting => s.activeState.isSome
  | .finalizing => s.activeState.isSome
  | .verifying => s.activeState.isSome
  | _ => True

omit [Unique Co] in
theorem Ready.interferes {phase : Phase} (h : Ready cfg data s phase) (hs : Interferes s s') :
    Ready cfg data s' phase := by
  cases phase with
  | livenessCheck => rwa [Ready, hs.collected, hs.activeState]
  | publishing => exact h.imp fun prior hpr => ⟨hpr.1, hs.proposals hpr.2⟩
  | voting | finalizing | verifying => rwa [Ready, hs.activeState]
  | _ => trivial

omit [Unique Co] in
theorem ready_machineState {phase phase' : Phase} :
    Ready cfg data { s with machineState := phase' } phase ↔ Ready cfg data s phase := by
  cases phase <;> rfl

theorem behavior_clean_iff {phase : Phase} : Clean (behavior cfg data phase) s ↔ Ready cfg data s phase := by
  cases phase with
  | stopped | starting => exact iff_of_true (clean_pure _) trivial
  | loading => exact iff_of_true loading_clean trivial
  | collecting => exact iff_of_true collecting_clean trivial
  | livenessCheck => exact livenessCheck_clean_iff
  | proving => exact iff_of_true proving_clean trivial
  | publishing => exact publishing_clean_iff
  | voting => exact voting_clean_iff
  | finalizing => exact finalizing_clean_iff
  | verifying => exact verifying_clean_iff
  | stopping => exact iff_of_true (clean_emit _) trivial

/-! ### Events -/

omit [Unique Pr] [Unique Co] in
theorem setTimer_cleanHeld (target : Phase) : CleanHeld (setTimer target : Code St Vt Pr Co Unit) s := by
  rw [setTimer]
  split
  · exact cleanHeld_release
  · rw [cleanHeld_emit_bind]
    exact cleanHeld_release

theorem executeTransition_clean_iff {target : Phase} :
    Clean (executeTransition cfg target) s ↔ Ready cfg s.activeState s target := by
  have hb : ∀ {data} {s : Machine St Vt Pr Co},
      Clean (behavior cfg data target >>= fun _ => acquire >>= fun _ => setTimer target) s ↔ Ready cfg data s target :=
    (clean_bind (fun _ s => clean_acquire.mpr fun s' _ => setTimer_cleanHeld target) fun _ _ => cleanHeld_acquire).trans
      behavior_clean_iff
  rw [executeTransition, clean_acquire]
  by_cases hh : hasBehavior target
  · simp only [cleanHeld_modify, if_pos hh, cleanHeld_release_bind, clean_read, hb]
    constructor
    · exact fun h => ready_machineState.mp (h s (.refl s) { s with machineState := target } (.refl _))
    · intro h s₁ hs₁ s₂ hs₂
      rw [hs₂.activeState, hs₁.activeState]
      exact (ready_machineState.mpr (h.interferes hs₁)).interferes hs₂
  · simp only [cleanHeld_modify, if_neg hh]
    refine iff_of_true (fun s' _ => setTimer_cleanHeld target) ?_
    cases target with
    | stopped => trivial
    | starting => trivial
    | _ => exact absurd rfl hh

theorem handleEvent_clean_iff {event : Event} : Clean (handleEvent cfg event) s ↔
    ∀ target, transition s.machineState event = some target → Ready cfg s.activeState s target := by
  rw [handleEvent, clean_acquire]
  constructor
  · intro h target ht
    have hhl := h s (.refl s)
    rw [cleanHeld_read, ht] at hhl
    have hcl := (clean_bind (fun _ _ => clean_pure _) fun _ _ => not_cleanHeld_pure _).mp
      (cleanHeld_release_bind.mp hhl)
    exact executeTransition_clean_iff.mp hcl
  · intro h s₁ hs₁
    rw [cleanHeld_read]
    split
    · exact cleanHeld_release_bind.mpr (clean_pure _)
    · rename_i target ht
      refine cleanHeld_release_bind.mpr ?_
      refine (clean_bind (fun _ _ => clean_pure _) fun _ _ => not_cleanHeld_pure _).mpr ?_
      refine executeTransition_clean_iff.mpr ?_
      -- only `Close` changes the phase, and leaves one where nothing can go wrong
      rcases hs₁.machineState with heq | hs
      · rw [heq] at ht
        rw [hs₁.activeState]
        exact (h target ht).interferes hs₁
      · rw [hs] at ht
        cases event with
        | start => cases ht; trivial
        | _ => cases ht

/-! ### Calls -/

omit [Unique Co] in
theorem receiveVote_clean [Unique Vt] (voter : Pr) (vote : Vt) : Clean (receiveVote voter vote) s := by
  refine clean_acquire.mpr fun s₁ hs₁ => ?_
  rw [cleanHeld_read]
  split
  · simp
  · split_ifs
    · simp
    · simp

/-- A behaviour gives the mutex back exactly when what it dereferences is there and, for `Publishing`, the machine
    has a proposal of its own; an event does as the behaviour it leads to, and calls always do. -/
theorem mutex_released_iff [Unique Vt] (cfg : Settings Pr) :
    (∀ (phase : Phase) (data : Option St) (s : Machine St Vt Pr Co),
      Clean (behavior cfg data phase) s ↔ Ready cfg data s phase) ∧
    (∀ (event : Event) (s : Machine St Vt Pr Co), Clean (handleEvent cfg event) s ↔
      ∀ target, transition s.machineState event = some target → Ready cfg s.activeState s target) ∧
    (∀ (peer : Pr) (proposal : St) (s : Machine St Vt Pr Co), Clean (receiveProposal peer proposal) s) ∧
    (∀ (voter : Pr) (vote : Vt) (s : Machine St Vt Pr Co), Clean (receiveVote voter vote) s) ∧
    ∀ (peer : Pr) (confirmation : St) (s : Machine St Vt Pr Co), Clean (receiveConfirmation peer confirmation) s :=
  ⟨fun _ _ _ => behavior_clean_iff, fun _ _ => handleEvent_clean_iff, fun _ _ _ => by simp [receiveProposal],
    fun voter vote _ => receiveVote_clean voter vote, fun _ _ _ => by simp [receiveConfirmation]⟩

end Phases

/-- A machine whose proof is complete and whose proposals are not of the next rank keeps the mutex: the behaviour returns
    with it, and the handler waits for it. -/
theorem publishing_keeps_mutex : let s : Machine Ranked Ranked Ranked Ranked := Machine.new (some ⟨0⟩)
    ¬ Clean (behavior sampleSettings s.activeState .publishing) s ∧
      ¬ Clean (handleEvent sampleSettings .proofComplete) { s with machineState := .proving } := by
  refine ⟨fun h => ?_, fun h => ?_⟩
  · obtain ⟨prior, -, ho⟩ := behavior_clean_iff.mp h
    cases ho
  · obtain ⟨prior, -, ho⟩ := handleEvent_clean_iff.mp h .publishing rfl
    cases ho

end StateMachine
end Quilibrium
