import Quilibrium.Theorems.Interference

/-! What the event loop writes of a round. If these writes keep assertions for the phases (`Kept`), so does the handler. -/

namespace Quilibrium
namespace StateMachine
open Monitor Program

/-! ### Code that leaves an assertion -/

section Base
variable {St Vt Pr Co α β : Type} {T : Rules (Machine St Vt Pr Co) (@Answer St Vt Co Pr)}
  {K : Phase → Machine St Vt Pr Co → Prop} {phase : Phase} {s : Machine St Vt Pr Co}

/-- The assertion of the phase that the machine is in, or was in when it was closed. -/
structure At (K : Phase → Machine St Vt Pr Co → Prop) (phase : Phase) (s : Machine St Vt Pr Co) : Prop where
  holds : K phase s
  machineState : s.machineState = phase ∨ s.machineState = .stopped

def Walks (T : Rules (Machine St Vt Pr Co) (@Answer St Vt Co Pr)) (K : Phase → Machine St Vt Pr Co → Prop) (phase : Phase)
    (held : Bool) (p : Code St Vt Pr Co α) (s : Machine St Vt Pr Co) : Prop :=
  T.wp held p (fun _ o s' => ∀ a, o = .done a → At K phase s') s

variable {held : Bool} {f : β → Code St Vt Pr Co α} {g : Unit → Code St Vt Pr Co α}

theorem walks_pure (hs : At K phase s) (a : α) : Walks T K phase held (pure a) s := fun _ _ => hs

theorem walks_emit (hs : At K phase s) (e : Event) : Walks T K phase held (emit e) s := fun _ _ => hs

theorem walks_release (hs : At K phase s) : Walks T K phase true release s := Rules.wp_release.mpr fun _ _ => hs

theorem walks_release_bind (hg : Walks T K phase false (g ()) s) : Walks T K phase true (release >>= g) s :=
  Rules.wp_release_bind.mpr hg

theorem walks_deref {o : Option β} (hf : ∀ b, o = some b → Walks T K phase held (f b) s) :
    Walks T K phase held (deref o >>= f) s := by
  cases o with
  | none => exact Rules.wp_deref_bind_none.mpr nofun
  | some b => exact (Rules.wp_deref_bind_some b).mpr (hf b rfl)

end Base

section Account
variable {St Vt Pr Co : Type} [Unique St] {s s' s₁ s₂ s₃ : Machine St Vt Pr Co}

structure Quiet (s s' : Machine St Vt Pr Co) : Prop where
  activeState : s'.activeState = s.activeState
  nextState : s'.nextState = s.nextState
  chosenProposer : s'.chosenProposer = s.chosenProposer
  cast : s'.cast = s.cast
  keyed : s.proposals.Keyed → s'.proposals.Keyed

theorem Quiet.refl (s : Machine St Vt Pr Co) : Quiet s s := ⟨rfl, rfl, rfl, rfl, id⟩

theorem Quiet.trans (h : Quiet s₁ s₂) (h' : Quiet s₂ s₃) : Quiet s₁ s₃ where
  activeState := h'.activeState.trans h.activeState
  nextState := h'.nextState.trans h.nextState
  chosenProposer := h'.chosenProposer.trans h.chosenProposer
  cast := h'.cast.trans h.cast
  keyed := h'.keyed ∘ h.keyed

theorem Interferes.quiet (h : Interferes s s') : Quiet s s' :=
  ⟨h.activeState, h.nextState, h.chosenProposer, h.cast, h.keyed⟩

def Machine.voted (s : Machine St Vt Pr Co) : Machine St Vt Pr Co :=
  { s with cast := s.cast ++ s.activeState.toList.map rank }

/-- What the event loop writes keeps the assertions `K` of the phases and is in `T.guar`, if it starts as `starts`
    allows. -/
structure Kept (T : Rules (Machine St Vt Pr Co) (@Answer St Vt Co Pr)) (starts : Event → Machine St Vt Pr Co → Prop)
    (K : Phase → Machine St Vt Pr Co → Prop) : Prop where
  rely : T.rely = Interferes
  observe : T.observe = StateMachine.observe
  quiet : ∀ {s s'}, Quiet s s' → T.guar s s'
  stable : ∀ {phase s s'}, Quiet s s' → K phase s → K phase s'
  answers : ∀ {q a s s'}, Quiet s s' → T.allowed q a s → T.allowed q a s'
  halt : ∀ {phase s}, K phase s → K .stopped s
  restart : ∀ {s}, K .stopped s → K .starting s
  enter : ∀ {event s target}, K s.machineState s → starts event s → transition s.machineState event = some target →
    K target s
  adopt : ∀ {s existing newState}, K .loading s → T.allowed (.synchronize existing) (.state newState) s →
    T.guar s { s with activeState := some newState } ∧ K .loading { s with activeState := some newState }
  clear : ∀ {s s'}, K .collecting s → Quiet { s with chosenProposer := none } s' → T.guar s s' ∧ K .collecting s'
  vote : ∀ {s}, K .voting s → s.chosenProposer = none → T.guar s s.voted
  choose : ∀ {s s'} (peer : Pr), K .voting s → s.chosenProposer = none → Quiet s.voted s' →
    T.guar s' { s' with chosenProposer := some peer } ∧ K .voting { s' with chosenProposer := some peer }
  finalize : ∀ {s s' active votes finalized}, K .finalizing s → s.activeState = some active → Quiet s s' →
    T.allowed (.finalizeVotes (s.proposals (rank active + 1)) votes) (some finalized) s' →
    T.guar s' { s' with nextState := some finalized } ∧ K .finalizing { s' with nextState := some finalized }
  progress : ∀ {s next}, K .verifying s → s.nextState = some next →
    T.guar s (s.progress next) ∧ K .verifying (s.progress next)

/-! ### Steps -/

variable {α β : Type} {T : Rules (Machine St Vt Pr Co) (@Answer St Vt Co Pr)} {starts : Event → Machine St Vt Pr Co → Prop}
  {K : Phase → Machine St Vt Pr Co → Prop} {phase : Phase}

theorem At.quiet (h : Kept T starts K) (hs : At K phase s) (hqt : Quiet s s')
    (hm : s'.machineState = s.machineState) : At K phase s' :=
  ⟨h.stable hqt hs.holds, hm ▸ hs.machineState⟩

theorem Interferes.inPhase (hrl : Interferes s s') (hs : s.machineState = phase ∨ s.machineState = .stopped) :
    s'.machineState = phase ∨ s'.machineState = .stopped :=
  hrl.machineState.elim (fun heq => heq ▸ hs) .inr

theorem At.interferes (h : Kept T starts K) (hs : At K phase s) (hrl : Interferes s s') : At K phase s' :=
  ⟨h.stable hrl.quiet hs.holds, hrl.inPhase hs.machineState⟩

theorem At.inv (h : Kept T starts K) (hs : At K phase s) : K s.machineState s := by
  rcases hs.machineState with heq | hsto
  · exact heq ▸ hs.holds
  · exact hsto ▸ h.halt hs.holds

variable {held : Bool} {f : β → Code St Vt Pr Co α} {g : Unit → Code St Vt Pr Co α}

variable (h : Kept T starts K)
include h

theorem walks_acquire (hs : At K phase s) (hg : ∀ s', Interferes s s' → At K phase s' → Walks T K phase true (g ()) s') :
    Walks T K phase false (acquire >>= g) s := by
  refine Rules.wp_acquire_bind.mpr fun s' hs' => ?_
  rw [h.rely] at hs'
  exact hg s' hs' (hs.interferes h hs')

theorem walks_read {r : Machine St Vt Pr Co → β} (hf : Walks T K phase true (f (r s)) s) :
    Walks T K phase true (read r >>= f) s :=
  (Rules.wp_read_bind r).mpr ⟨h.quiet (.refl s), hf⟩

theorem walks_read_free {r : Machine St Vt Pr Co → β} (hs : At K phase s)
    (hf : ∀ s', Interferes s s' → At K phase s' → Walks T K phase false (f (r s')) s') :
    Walks T K phase false (read r >>= f) s := by
  refine (Rules.wp_bind _ _ _).mpr fun s' hs' => ⟨h.quiet (.refl s'), ?_⟩
  rw [Rules.near_false, h.rely] at hs'
  exact hf s' hs' (hs.interferes h hs')

theorem walks_modify {u : Machine St Vt Pr Co → Machine St Vt Pr Co} (hs : At K phase s) (hqt : Quiet s (u s))
    (hm : (u s).machineState = s.machineState) (hg : At K phase (u s) → Walks T K phase true (g ()) (u s)) :
    Walks T K phase true (modify u >>= g) s :=
  (Rules.wp_modify_bind u).mpr ⟨h.quiet hqt, hg (hs.quiet h hqt hm)⟩

theorem walks_call {q : Query St Vt Co} {f : Answer Pr q → Code St Vt Pr Co α}
    (ho : ∀ (a : Answer Pr q) (s : Machine St Vt Pr Co), observe q a s = s) (hs : At K phase s)
    (hf : ∀ s' a, Interferes s s' → At K phase s' → T.allowed q a s' → Walks T K phase false (f a) s') :
    Walks T K phase false (call q >>= f) s := by
  refine (Rules.wp_call_bind q).mpr fun s' a hs' ha => ?_
  rw [h.observe, ho]
  rw [Rules.near_false, h.rely] at hs'
  exact ⟨h.quiet (.refl s'), hf s' a hs' (hs.interferes h hs') ha⟩

theorem walks_minimumProvers {f : Nat → Code St Vt Pr Co α} (hf : ∀ n, Walks T K phase true (f n) s) :
    Walks T K phase true (minimumProvers >>= f) s := by
  refine (Rules.wp_call_bind Query.minimumProvers).mpr fun s' n hs' _ => ?_
  obtain rfl := Rules.near_true.mp hs'
  rw [h.observe]
  exact ⟨h.quiet (.refl s'), hf n⟩

/-! ### Behaviours -/

theorem livenessCheck_walks {data : Option St} (hs : At K .livenessCheck s) :
    Walks T K .livenessCheck false (livenessCheck data : Code St Vt Pr Co Unit) s := by
  have hcn : ∀ s, At K .livenessCheck s → Walks T K .livenessCheck false (countLiveness data : Code St Vt Pr Co Unit) s := by
    intro s hs
    refine walks_acquire h hs fun s₁ _ hs₁ => walks_read h (walks_deref fun collected _ => walks_release_bind ?_)
    refine walks_acquire h hs₁ fun s₂ _ hs₂ => walks_read h (walks_deref fun active _ => walks_read h ?_)
    refine walks_release_bind (walks_call h (fun _ _ => rfl) hs₂ fun s₃ n _ hs₃ _ => ?_)
    split
    · exact walks_emit hs₃ _
    · exact walks_call h (fun _ _ => rfl) hs₃ fun s₄ sent _ hs₄ _ => walks_pure hs₄ _
  refine walks_acquire h hs fun s₁ _ hs₁ => walks_read h (walks_release_bind ?_)
  refine walks_call h (fun _ _ => rfl) hs₁ fun s₂ n _ hs₂ _ => ?_
  split
  · refine walks_call h (fun _ _ => rfl) hs₂ fun s₃ leaders _ hs₃ _ => ?_
    cases leaders with
    | none => exact walks_pure hs₃ _
    | some leaders =>
      refine walks_acquire h hs₃ fun s₄ _ hs₄ => walks_modify h hs₄ ⟨rfl, rfl, rfl, rfl, id⟩ rfl fun hs₅ => ?_
      exact walks_release_bind (hcn _ hs₅)
  · exact hcn _ hs₂

theorem finalizing_walks (hs : At K .finalizing s) :
    Walks T K .finalizing false (finalizing : Code St Vt Pr Co Unit) s := by
  refine walks_acquire h hs fun s₁ _ hs₁ => walks_read h (walks_deref fun active hact => ?_)
  refine walks_read h (walks_read h (walks_release_bind (walks_call h (fun _ _ => rfl) hs₁ fun s₂ finalized hrl hs₂ ha => ?_)))
  cases finalized with
  | none => exact walks_pure hs₂ _
  | some finalized =>
    refine walks_acquire h hs₂ fun s₃ hrl' hs₃ => ?_
    obtain ⟨hgr, hK⟩ := h.finalize hs₁.holds hact (hrl.trans hrl').quiet (h.answers hrl'.quiet ha)
    refine (Rules.wp_modify_bind _).mpr ⟨hgr, walks_release_bind (walks_emit ⟨hK, hs₃.machineState⟩ _)⟩

theorem progress_walks (hs : At K .verifying s) : Walks T K .verifying true (progress : Code St Vt Pr Co Unit) s := by
  refine walks_read h ?_
  split
  · exact walks_release hs
  · rename_i next hnx
    obtain ⟨hgr, hK⟩ := h.progress hs.holds hnx
    exact (Rules.wp_modify_bind _).mpr ⟨hgr, walks_release_bind (walks_emit ⟨hK, hs.machineState⟩ _)⟩

theorem countVotes_walks (hs : At K .voting s) : Walks T K .voting true (countVotes : Code St Vt Pr Co Unit) s := by
  refine walks_read h (walks_deref fun active _ => walks_read h (walks_read h (walks_minimumProvers h fun n => ?_)))
  refine walks_release_bind (walks_call h (fun _ _ => rfl) hs fun s₁ quorum _ hs₁ _ => ?_)
  cases quorum with
  | none => exact walks_pure hs₁ _
  | some quorum =>
    dsimp only
    split
    · exact walks_emit hs₁ _
    · exact walks_pure hs₁ _

variable [Unique Pr] {cfg : Settings Pr} {data : Option St}

theorem loading_walks (hs : At K .loading s) : Walks T K .loading false (loading cfg) s := by
  rw [loading]
  split
  · refine walks_read_free h hs fun s₁ _ hs₁ => walks_call h (fun _ _ => rfl) hs₁ fun s₂ ans _ hs₂ ha => ?_
    cases ans with
    | state newState =>
      refine walks_acquire h hs₂ fun s₃ hrl hs₃ => ?_
      obtain ⟨hgr, hK⟩ := h.adopt hs₃.holds (h.answers hrl.quiet ha)
      refine (Rules.wp_modify_bind _).mpr ⟨hgr, walks_release_bind ?_⟩
      refine walks_call h (fun _ _ => rfl) ⟨hK, hs₃.machineState⟩ fun s₄ leaders _ hs₄ _ => ?_
      cases leaders with
      | none => exact walks_pure hs₄ _
      | some leaders =>
        dsimp only
        split
        · exact walks_emit hs₄ _
        · exact walks_emit hs₄ _
    | error => exact walks_emit hs₂ _
    | cancelled => exact walks_pure hs₂ _
  · exact walks_pure hs _

theorem proving_walks (hs : At K .proving s) : Walks T K .proving false (proving cfg data) s := by
  refine walks_acquire h hs fun s₁ _ hs₁ => walks_read h (walks_release_bind ?_)
  split
  · exact walks_pure hs₁ _
  · refine walks_call h (fun _ _ => rfl) hs₁ fun s₂ proposal _ hs₂ _ => ?_
    cases proposal with
    | none => exact walks_pure hs₂ _
    | some proposal =>
      refine walks_acquire h hs₂ fun s₃ _ hs₃ => walks_modify h hs₃ ⟨rfl, rfl, rfl, rfl, Table.Keyed.put⟩ rfl fun hs₄ => ?_
      exact walks_release_bind (walks_emit hs₄ _)

theorem publishing_walks (hs : At K .publishing s) : Walks T K .publishing false (publishing cfg data) s := by
  refine walks_acquire h hs fun s₁ _ hs₁ => walks_deref fun prior _ => walks_read h ?_
  split
  · exact walks_pure hs₁ _
  · refine walks_release_bind (walks_call h (fun _ _ => rfl) hs₁ fun s₂ sent _ hs₂ _ => ?_)
    split
    · exact walks_emit hs₂ _
    · exact walks_pure hs₂ _

theorem castVote_walks (hs : At K .voting s) (hc : s.chosenProposer = none) :
    Walks T K .voting true (castVote cfg) s := by
  refine walks_read h (walks_deref fun active hact => walks_read h (walks_minimumProvers h fun n => ?_))
  split
  · exact walks_release hs
  · refine walks_read h ?_
    split
    · exact walks_release hs
    · refine walks_read h (walks_release_bind ((Rules.wp_call_bind _).mpr fun s₁ ans hrl _ => ?_))
      rw [Rules.near_false, h.rely] at hrl
      have hs₁ := hs.interferes h hrl
      rw [h.observe]
      cases ans with
      | none => exact ⟨h.quiet (.refl s₁), walks_pure hs₁ _⟩
      | some ans =>
        have hc₁ : s₁.chosenProposer = none := hrl.chosenProposer.trans hc
        refine ⟨h.vote hs₁.holds hc₁, ?_⟩
        -- between the vote and the choice the assertion of the phase need not hold
        refine Rules.wp_acquire_bind.mpr fun s₂ hrl' => ?_
        rw [h.rely] at hrl'
        obtain ⟨hgr, hK⟩ := h.choose ans.1 hs₁.holds hc₁ hrl'.quiet
        have hs₃ : At K .voting { s₂ with chosenProposer := some ans.1 } := ⟨hK, hrl'.inPhase hs₁.machineState⟩
        refine (Rules.wp_modify_bind _).mpr ⟨hgr, ?_⟩
        split
        · refine walks_read h (walks_deref fun active' _ => ?_)
          refine walks_modify h hs₃ ⟨rfl, rfl, rfl, rfl, id⟩ rfl fun hs₄ => ?_
          exact walks_release_bind (walks_emit hs₄ _)
        · exact walks_release hs₃

theorem verifying_walks (hs : At K .verifying s) : Walks T K .verifying false (verifying cfg) s := by
  refine walks_acquire h hs fun s₁ _ hs₁ => walks_read h (walks_deref fun active _ => walks_read h (walks_read h ?_))
  split
  · refine walks_release_bind (walks_call h (fun _ _ => rfl) hs₁ fun s₂ sent _ hs₂ _ => ?_)
    exact walks_acquire h hs₂ fun s₃ _ hs₃ => progress_walks h hs₃
  · exact progress_walks h hs₁

variable [Unique Co]

theorem collecting_walks (hs : At K .collecting s) : Walks T K .collecting false (collecting cfg data) s := by
  refine walks_call h (fun _ _ => rfl) hs fun s₁ collected _ hs₁ _ => ?_
  cases collected with
  | none => exact walks_emit hs₁ _
  | some collected =>
    refine walks_acquire h hs₁ fun s₂ _ hs₂ => ?_
    have hqt : Quiet { s₂ with chosenProposer := none }
        { s₂ with nextProvers := [], chosenProposer := none, collected := some collected } := ⟨rfl, rfl, rfl, rfl, id⟩
    obtain ⟨hgr, hK⟩ := h.clear hs₂.holds hqt
    refine (Rules.wp_modify_bind _).mpr ⟨hgr, walks_release_bind ?_⟩
    refine walks_call h (fun _ _ => rfl) ⟨hK, hs₂.machineState⟩ fun s₃ leaders _ hs₃ _ => ?_
    cases leaders with
    | none => exact walks_emit hs₃ _
    | some leaders =>
      refine walks_acquire h hs₃ fun s₄ _ hs₄ => walks_modify h hs₄ ⟨rfl, rfl, rfl, rfl, id⟩ rfl fun hs₅ => ?_
      refine walks_release_bind (walks_call h (fun _ _ => rfl) hs₅ fun s₆ sent _ hs₆ _ => ?_)
      split
      · refine walks_acquire h hs₆ fun s₇ _ hs₇ => ?_
        split
        · refine walks_read h (walks_deref fun own _ => walks_modify h hs₇ ⟨rfl, rfl, rfl, rfl, id⟩ rfl fun hs₈ => ?_)
          exact walks_release_bind ((Rules.wp_emit_bind _).mpr (walks_emit hs₈ _))
        · exact walks_release_bind (walks_emit hs₇ _)
      · exact walks_emit hs₆ _

theorem behavior_walks (hs : At K phase s) : Walks T K phase false (behavior cfg data phase) s := by
  cases phase with
  | stopped => exact walks_pure hs _
  | starting => exact walks_pure hs _
  | loading => exact loading_walks h hs
  | collecting => exact collecting_walks h hs
  | livenessCheck => exact livenessCheck_walks h hs
  | proving => exact proving_walks h hs
  | publishing => exact publishing_walks h hs
  | voting =>
    refine walks_acquire h hs fun s₁ _ hs₁ => walks_read h ?_
    split
    · exact castVote_walks h hs₁ ‹_›
    · exact countVotes_walks h hs₁
  | finalizing => exact finalizing_walks h hs
  | verifying => exact verifying_walks h hs
  | stopping => exact walks_emit hs _

/-! ### Events -/

def Standing (K : Phase → Machine St Vt Pr Co → Prop) (s : Machine St Vt Pr Co) : Prop := K s.machineState s

omit [Unique Pr] [Unique Co] in
theorem setTimer_ends (hs : At K phase s) : T.wp true (setTimer phase : Code St Vt Pr Co Unit) (System.Ends (Standing K)) s := by
  rw [setTimer]
  split
  · exact Rules.wp_release.mpr fun _ => ⟨rfl, hs.inv h⟩
  · exact (Rules.wp_emit_bind _).mpr (Rules.wp_release.mpr fun _ => ⟨rfl, hs.inv h⟩)

theorem executeTransition_ends (hs : K phase s) :
    T.wp false (executeTransition cfg phase) (System.Ends (Standing K)) s := by
  refine Rules.wp_acquire_bind.mpr fun s₁ hrl => ?_
  rw [h.rely] at hrl
  have hqt : Quiet s₁ { s₁ with machineState := phase } := ⟨rfl, rfl, rfl, rfl, id⟩
  have hs₁ : At K phase { s₁ with machineState := phase } := ⟨h.stable (hrl.quiet.trans hqt) hs, .inl rfl⟩
  refine (Rules.wp_modify_bind _).mpr ⟨h.quiet hqt, ?_⟩
  split
  · refine Rules.wp_release_bind.mpr ((Rules.wp_bind _ _ _).mpr fun s₂ hs₂ => ⟨h.quiet (.refl s₂), ?_⟩)
    rw [Rules.near_false, h.rely] at hs₂
    refine (Rules.wp_bind _ _ _).mpr (Rules.wp_mono (behavior_walks h (hs₁.interferes h hs₂)) fun held o s₃ ho => ?_)
    cases o with
    | done a =>
      cases held with
      | false =>
        refine Rules.wp_acquire_bind.mpr fun s₄ hs₄ => ?_
        rw [h.rely] at hs₄
        exact setTimer_ends h ((ho a rfl).interferes h hs₄)
      | true => exact Rules.wp_acquire_held_bind.mpr nofun
    | panicked | blocked | misused => exact nofun
  · exact setTimer_ends h hs₁

theorem handleEvent_ends {event : Event} (hs : Standing K s) (hsta : starts event s) :
    T.wp false (handleEvent cfg event >>= fun _ => pure ()) (System.Ends (Standing K)) s := by
  refine (Rules.wp_bind _ _ _).mpr (Rules.wp_acquire_bind.mpr fun s₁ hrl => ?_)
  rw [h.rely] at hrl
  have hs₁ : At K s.machineState s₁ := At.interferes h ⟨hs, .inl rfl⟩ hrl
  refine (Rules.wp_read_bind _).mpr ⟨h.quiet (.refl s₁), ?_⟩
  split
  · exact Rules.wp_release_bind.mpr fun _ => ⟨rfl, hs₁.inv h⟩
  · rename_i target ht
    have hK : K target s₁ := by
      rcases hrl.machineState with heq | hsto
      · rw [heq] at ht
        exact h.stable hrl.quiet (h.enter hs hsta ht)
      · -- `Close` came first: the machine can only start again
        rw [hsto] at ht
        cases event with
        | start => cases ht; exact h.restart (h.halt hs₁.holds)
        | _ => cases ht
    refine Rules.wp_release_bind.mpr ((Rules.wp_bind _ _ _).mpr ?_)
    refine Rules.wp_mono (executeTransition_ends h hK) fun held o s₂ ho => ?_
    cases o with
    | done a => exact fun _ => ho rfl
    | panicked | blocked | misused => exact nofun

theorem Kept.keeps [Unique Vt] : (system cfg).Keeps T starts (Standing K) where
  observe := h.observe
  refl s := by rw [h.rely]; exact .refl s
  trans hrl hrl' := by rw [h.rely] at *; exact hrl.trans hrl'
  guar hrl := by rw [h.rely] at hrl; exact h.quiet hrl.quiet
  stable {s s'} hrl hs := by
    rw [h.rely] at hrl
    have hs' : At K s.machineState s' := At.interferes h ⟨hs, .inl rfl⟩ hrl
    exact hs'.inv h
  handler _ _ hs hsta := handleEvent_ends h hs hsta
  calls p hp := h.rely ▸ hp.guards
  recovery held := h.rely ▸ close_guards held

end Account

end StateMachine
end Quilibrium
