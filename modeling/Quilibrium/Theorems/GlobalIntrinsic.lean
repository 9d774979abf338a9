import Quilibrium.Execution.GlobalIntrinsic
import Quilibrium.Theorems.Bundles

/-! Pausing and resuming an allocation appends to the changeset and leaves the committed sets alone. -/

namespace Quilibrium
open Except HypergraphState

structure HypergraphState.Staged (c : Crypto) (s s' : HypergraphState) : Prop where
  changeset : s.changeset <+: s'.changeset
  sets : ∀ {B}, Sets c s.hypergraph none B → Sets c s'.hypergraph none B

namespace HypergraphState

variable {c : Crypto} {s s₁ s' : HypergraphState}

theorem staged_of_eq (hhg : s'.hypergraph = s.hypergraph) (hcs : s'.changeset = s.changeset) : s.Staged c s' := by
  refine ⟨hcs ▸ List.prefix_rfl, fun h => ?_⟩
  rw [hhg]
  exact h

theorem Staged.trans (h : s.Staged c s₁) (h' : s₁.Staged c s') : s.Staged c s' :=
  ⟨h.changeset.trans h'.changeset, fun hst => h'.sets (h.sets hst)⟩

theorem staged_get (domain address : Bytes) (disc : Discriminator) :
    s.Staged c (s.get c domain address disc).1 := by
  refine ⟨(changeset_of_get rfl).symm ▸ List.prefix_rfl, fun h => ?_⟩
  unfold get
  split
  · exact h
  · split
    · have hs := (h.getVertexData (copy32 domain) (copy32 address)).2
      generalize s.hypergraph.getVertexData c _ _ = found at hs ⊢
      rcases found with ⟨hypergraph, e | data⟩ <;> exact hs
    · have hs := (h.getHyperedge (copy32 domain) (copy32 address)).2
      generalize s.hypergraph.getHyperedge c _ _ = found at hs ⊢
      rcases found with ⟨hypergraph, e | hyperedge⟩ <;> exact hs
    · exact h

end HypergraphState

namespace IntrinsicM

variable {α β : Type} {c : Crypto} {m : IntrinsicM α} {f : α → IntrinsicM β} {s s' : HypergraphState}

def Runs (m : IntrinsicM α) (s : HypergraphState) (r : Except String α) (s' : HypergraphState) : Prop :=
  m.run.run s = .ok (r, s')

theorem runs_bind {r : Except String β} (h : (m >>= f).Runs s r s') :
    (∃ a s₁, m.Runs s (.ok a) s₁ ∧ (f a).Runs s₁ r s') ∨ ∃ e, m.Runs s (.error e) s' ∧ r = .error e := by
  obtain ⟨⟨x, s₁⟩, hm, hrs⟩ := bind_eq_ok.mp h
  cases x with
  | ok a => exact .inl ⟨a, s₁, hm, hrs⟩
  | error e =>
    cases hrs
    exact .inr ⟨e, hm, rfl⟩

theorem Runs.bind {a : α} {s₁ : HypergraphState} {r : Except String β} (hm : m.Runs s (.ok a) s₁) (hf : (f a).Runs s₁ r s') :
    (m >>= f).Runs s r s' :=
  bind_eq_ok.mpr ⟨_, hm, hf⟩

def Stages (c : Crypto) (m : IntrinsicM α) : Prop := ∀ ⦃s r s'⦄, m.Runs s r s' → s.Staged c s'

def Writes (m : IntrinsicM α) : Prop := ∀ ⦃s a s'⦄, m.Runs s (.ok a) s' → s.changeset.length < s'.changeset.length

theorem Stages.bind (hm : m.Stages c) (hf : ∀ a, (f a).Stages c) : (m >>= f).Stages c := by
  intro s r s' h
  obtain ⟨a, s₁, hr, hrs⟩ | ⟨e, hr, -⟩ := runs_bind h
  · exact (hm hr).trans (hf a hrs)
  · exact hm hr

theorem Writes.bind_left (hm : m.Writes) (hf : ∀ a, (f a).Stages c) : (m >>= f).Writes := by
  intro s b s' h
  obtain ⟨a, s₁, hrun, hrs⟩ | ⟨e, -, hr⟩ := runs_bind h
  · exact (hm hrun).trans_le (hf a hrs).changeset.length_le
  · cases hr

theorem Writes.bind_right (hm : m.Stages c) (hf : ∀ a, (f a).Writes) : (m >>= f).Writes := by
  intro s b s' h
  obtain ⟨a, s₁, hrun, hrs⟩ | ⟨e, -, hr⟩ := runs_bind h
  · exact (hm hrun).changeset.length_le.trans_lt (hf a hrs)
  · cases hr

theorem stages_pure (a : α) : (pure a : IntrinsicM α).Stages c := by
  intro s r s' h
  cases h
  exact staged_of_eq rfl rfl

theorem stages_throw (e : String) : (throw e : IntrinsicM α).Stages c := by
  intro s r s' h
  cases h
  exact staged_of_eq rfl rfl

theorem stages_ofError (x : Except String α) : (ofError x).Stages c := by
  cases x with
  | ok a => exact stages_pure a
  | error e => exact stages_throw e

theorem stages_get : (get : IntrinsicM HypergraphState).Stages c := by
  intro s r s' h
  cases h
  exact staged_of_eq rfl rfl

theorem stages_ofFault (x : Except Fault α) : (ofFault x).Stages c := by
  intro s r s' h
  rcases x with fault | a
  · cases h
  · cases h
    exact staged_of_eq rfl rfl

theorem Stages.wrapped (hm : m.Stages c) (msg : String) : (wrapped msg m).Stages c := by
  intro s r s' h
  obtain ⟨⟨r', s₁⟩, hr, hrs⟩ := bind_eq_ok.mp h
  cases hrs
  exact hm hr

theorem stages_allocate (tree : VectorCommitmentTree) : (allocate tree).Stages c := by
  intro s r s' h
  cases h
  exact staged_of_eq rfl rfl

theorem stages_lookup (c : Crypto) (domain address : Bytes) (disc : Discriminator) :
    (lookup c domain address disc).Stages c := by
  intro s r s' h
  cases h
  exact staged_get domain address disc

theorem stages_fetch (c : Crypto) (address : Bytes) (notFound : String) : (fetch c address notFound).Stages c := by
  refine Stages.bind (stages_lookup _ _ _ _) fun got => ?_
  rcases got with _ | (_ | _) | _ | _
  · exact stages_throw _
  · exact stages_throw _
  · exact stages_pure _
  · exact stages_allocate _
  · exact stages_throw _

theorem stages_prior (c : Crypto) (address : Bytes) : (prior c address).Stages c := by
  refine Stages.bind (stages_lookup _ _ _ _) fun got => ?_
  rcases got with _ | _ | _ | _
  · exact stages_pure _
  · exact stages_pure _
  · exact Stages.bind (stages_allocate _) fun _ => stages_pure _
  · exact stages_pure _

variable {f : HypergraphState → HypergraphState × Option String}

theorem runs_call_iff {r : Except String Unit} :
    (call f).Runs s r s' ↔ s' = (f s).1 ∧ r = (f s).2.elim (.ok ()) .error := by
  rcases hf : f s with ⟨s₁, err⟩
  constructor
  · intro h
    obtain ⟨a, s₂, hget, hrs⟩ | ⟨e, hget, -⟩ := runs_bind h
    · cases hget
      rw [hf] at hrs
      obtain ⟨a, s₃, hs, hrs⟩ | ⟨e, hs, -⟩ := runs_bind hrs
      · cases hs
        cases err with
        | none | some err =>
          cases hrs
          exact ⟨rfl, rfl⟩
      · cases hs
    · cases hget
  · rintro ⟨rfl, rfl⟩
    have hget : (get : IntrinsicM HypergraphState).Runs s (.ok s) s := rfl
    refine hget.bind ?_
    rw [hf]
    cases err <;> rfl

theorem runs_call {r : Except String Unit}
    (h : (call f).Runs s r s') : s' = (f s).1 ∧ (r = .ok () → (f s).2 = none) := by
  obtain ⟨hs', rfl⟩ := runs_call_iff.mp h
  refine ⟨hs', fun hr => ?_⟩
  cases herr : (f s).2 with
  | none => rfl
  | some err =>
    rw [herr] at hr
    cases hr

theorem stages_call (hf : ∀ s : HypergraphState, s.Staged c (f s).1) : (call f).Stages c := by
  intro s r s' h
  obtain ⟨rfl, -⟩ := runs_call h
  exact hf s

section
variable (c : Crypto) (address : Address) (frameNumber : Nat) (old : Option Nat) (data : Nat)

theorem stages_setVertex : (setVertex c address frameNumber old data).Stages c :=
  stages_call fun _ => ⟨(called_set ..).grows.1, (called_set ..).sets⟩

theorem writes_setVertex : (setVertex c address frameNumber old data).Writes := by
  intro s a s' h
  obtain ⟨rfl, herr⟩ := runs_call h
  exact (called_set ..).grows.2 (herr rfl)

end

theorem runs_of_outcome {m : IntrinsicM Unit} {err : Option String} (h : m.outcome s = .ok (s', err)) :
    ∃ r, m.Runs s r s' ∧ (err = none → r = .ok ()) := by
  obtain ⟨⟨r, s₁⟩, hr, hrs⟩ := bind_eq_ok.mp h
  cases r with
  | ok a =>
    cases hrs
    exact ⟨.ok (), hr, fun _ => rfl⟩
  | error e =>
    cases hrs
    exact ⟨.error e, hr, nofun⟩

end IntrinsicM

namespace GlobalIntrinsic
open IntrinsicM

variable (g : GlobalIntrinsic)

theorem stages_readField (field : RdfField) (tree : Nat) : (readField field tree).Stages g.crypto :=
  Stages.bind stages_get fun _ => Stages.bind (stages_ofFault _) fun _ => stages_ofError _

theorem stages_writeField (field : RdfField) (value : Bytes) (tree : Nat) : (g.writeField field value tree).Stages g.crypto :=
  Stages.bind stages_get fun _ => Stages.bind (stages_ofFault _) fun _ => stages_call fun _ => staged_of_eq rfl rfl

theorem stages_read (tree : VectorCommitmentTree) : (allocationStatus.read tree).Stages g.crypto := by
  refine Stages.bind (stages_ofFault _) fun value => ?_
  cases value with
  | error e => exact stages_pure _
  | ok value => exact stages_pure _

theorem stages_allocationStatus (key : Bytes) : (g.allocationStatus key).Stages g.crypto := by
  unfold allocationStatus
  by_cases hkey : key.take 32 ≠ globalIntrinsicAddress
  · rw [if_pos hkey]
    exact stages_throw _
  · rw [if_neg hkey]
    refine Stages.bind (stages_lookup _ _ _ _) fun got => ?_
    rcases got with _ | (_ | _) | _ | _
    · exact stages_pure _
    · exact stages_throw _
    · exact Stages.bind stages_get fun _ => g.stages_read _
    · exact g.stages_read _
    · exact stages_throw _

theorem stages_mapM {α β : Type} {f : α → IntrinsicM β} (hf : ∀ a, (f a).Stages g.crypto) (l : List α) :
    (l.mapM f).Stages g.crypto := by
  induction l with
  | nil => exact stages_pure _
  | cons a l ih =>
    rw [List.mapM_cons]
    exact Stages.bind (hf a) fun _ => Stages.bind ih fun _ => stages_pure _

theorem stages_updateAggregateProverStatus (proverAddress : Bytes) (frameNumber : Nat) (prover : Nat) :
    (g.updateAggregateProverStatus proverAddress frameNumber prover).Stages g.crypto := by
  refine Stages.bind (stages_lookup _ _ _ _) fun got => ?_
  rcases got with _ | _ | _ | value
  · exact g.stages_writeField _ _ _
  · exact stages_throw _
  · exact stages_throw _
  · dsimp only
    rcases WireNode.toNode value.extTree with _ | root
    · exact stages_ofFault _
    · refine Stages.bind (g.stages_mapM (fun _ => g.stages_allocationStatus _) _) fun statuses => ?_
      refine Stages.bind (Stages.wrapped (g.stages_writeField _ _ _) _) fun _ => ?_
      refine Stages.bind (stages_lookup _ _ _ _) fun got => ?_
      cases got with
      | error e => exact stages_ofFault _
      | ok got =>
        exact Stages.bind (stages_ofFault _) fun _ => Stages.wrapped (stages_setVertex _ _ _ _ _) _

section
variable (change : AllocationChange) (p : ProverRequest) (frameNumber : Nat)

theorem stages_changeAllocation : (g.changeAllocation change p frameNumber).Stages g.crypto := by
  refine Stages.bind (stages_fetch _ _ _) fun prover => ?_
  refine Stages.bind (g.stages_readField _ _) fun pk => ?_
  refine Stages.bind (stages_ofError _) fun allocationAddress => ?_
  refine Stages.bind (stages_fetch _ _ _) fun alloc => ?_
  refine Stages.bind (g.stages_writeField _ _ _) fun _ => ?_
  refine Stages.bind (g.stages_writeField _ _ _) fun _ => ?_
  refine Stages.bind (stages_prior _ _) fun old => ?_
  exact Stages.bind (stages_setVertex _ _ _ _ _) fun _ => g.stages_updateAggregateProverStatus _ _ _

theorem writes_changeAllocation : (g.changeAllocation change p frameNumber).Writes := by
  refine Writes.bind_right (stages_fetch _ _ _) fun prover => ?_
  refine Writes.bind_right (g.stages_readField _ _) fun pk => ?_
  refine Writes.bind_right (stages_ofError (c := g.crypto) _) fun allocationAddress => ?_
  refine Writes.bind_right (stages_fetch _ _ _) fun alloc => ?_
  refine Writes.bind_right (g.stages_writeField _ _ _) fun _ => ?_
  refine Writes.bind_right (g.stages_writeField _ _ _) fun _ => ?_
  refine Writes.bind_right (stages_prior _ _) fun old => ?_
  exact Writes.bind_left (writes_setVertex _ _ _ _ _) fun _ => g.stages_updateAggregateProverStatus _ _ _

theorem staged_invokeStep {s s' : HypergraphState} {err : Option String}
    (h : g.invokeStep change p frameNumber s = .ok (s', err)) :
    s.Staged g.crypto s' ∧ (err = none → s.changeset.length < s'.changeset.length) := by
  obtain ⟨err, hrun, rfl⟩ := Outcome.wrap_eq_ok.mp h
  obtain ⟨verified, -, hrs⟩ := bind_eq_ok.mp hrun
  rw [wrap_eq_none]
  cases verified with
  | some e =>
    cases hrs
    exact ⟨staged_of_eq rfl rfl, nofun⟩
  | none =>
    obtain ⟨err, ho, rfl⟩ := Outcome.wrap_eq_ok.mp hrs
    obtain ⟨r, hrn, hr⟩ := runs_of_outcome ho
    refine ⟨g.stages_changeAllocation change p frameNumber hrn, fun hnn => ?_⟩
    rw [hr (wrap_eq_none.mp hnn)] at hrn
    exact g.writes_changeAllocation change p frameNumber hrn

end

/-- The intrinsics of the global engine, given those of its other operations. A panic of `Verify` comes with the step. -/
def intrinsics (rest : Intrinsics ProverRequest) : Intrinsics ProverRequest where
  prepare op s := match changeOf op.request.kind with
    | none => rest.prepare op s
    | some change =>
      match g.verify change op.request.payload op.frameNumber s.hypergraph with
      | .ok err => err.map ("validate: " ++ ·)
      | .error _ => none
  invoke op s := match changeOf op.request.kind with
    | none => rest.invoke op s
    | some change => g.invokeStep change op.request.payload op.frameNumber s
  invoke_extends hrun := by
    split at hrun
    · exact rest.invoke_extends hrun
    · exact (g.staged_invokeStep _ _ _ hrun).1.changeset
  invoke_writes hrun := by
    split at hrun
    · exact rest.invoke_writes hrun
    · exact (g.staged_invokeStep _ _ _ hrun).2 rfl

end GlobalIntrinsic

end Quilibrium
