import Quilibrium.Execution.ComputeIntrinsic
import Quilibrium.Theorems.Undo

/-! The domain of the changes of an operation: no check ties the one that a message names to the address of the
    intrinsic. -/

namespace Quilibrium
open Except HypergraphState

/-! ### Changes that are added -/

namespace HypergraphState

variable {c : Crypto} {s s₁ s' : HypergraphState} {domain address : Bytes} {disc : Discriminator}
  {value : MaterializedState} {err : Option String}

/-- The changeset is continued by changes of the domain, one at least. -/
def Adds (s s' : HypergraphState) (domain : Bytes) : Prop :=
  ∃ added, added ≠ [] ∧ s'.changeset = s.changeset ++ added ∧ ∀ change ∈ added, change.domain = domain

theorem Called.adds (h : s.Called c domain s' none) : s.Adds s' domain := by
  cases h with
  | appended hs heap next hd => exact ⟨_, List.cons_ne_nil _ _, rfl, by simpa using hd⟩

theorem adds_of_set (h : s.set c domain address disc value = (s', none)) : s.Adds s' domain := by
  have hcl := called_set (c := c) (s := s) domain address disc value
  rw [h] at hcl
  exact hcl.adds

theorem Adds.congr (h : s₁.changeset = s.changeset) (had : s₁.Adds s' domain) : s.Adds s' domain := by
  obtain ⟨added, hne, happ, hall⟩ := had
  exact ⟨added, hne, h ▸ happ, hall⟩

theorem Adds.trans (h : s.Adds s₁ domain) (h' : s₁.Adds s' domain) : s.Adds s' domain := by
  obtain ⟨added, hne, happ, hall⟩ := h
  obtain ⟨added', -, happ', hall'⟩ := h'
  refine ⟨added ++ added', by simp [hne], by rw [happ', happ, List.append_assoc], fun change hm => ?_⟩
  exact (List.mem_append.mp hm).elim (hall change) (hall' change)

theorem Adds.all_iff (h : s.Adds s' domain) {domain' : Bytes} :
    (∀ change ∈ s'.changeset.drop s.changeset.length, change.domain = domain') ↔ domain = domain' := by
  obtain ⟨added, hne, happ, hall⟩ := h
  rw [happ, List.drop_left]
  constructor
  · intro hall'
    obtain ⟨change, hm⟩ := List.exists_mem_of_ne_nil _ hne
    exact (hall change hm).symm.trans (hall' change hm)
  · rintro rfl
    exact hall

def IsRemoved (c : Crypto) (hg : HypergraphCRDT) (a b : Address) : Prop :=
  (hg.getVertex c a b).2 = .error ("get vertex: " ++ ErrRemoved)

section
variable {a b : Address} {frameNumber : Nat} {prior : Option Nat} {data : Nat}

theorem set_removed (h : IsRemoved c s.hypergraph a b) :
    (s.set c a.bytes b.bytes .vertexAdds (.vertexAdd a b frameNumber prior data)).1.changeset = s.changeset := by
  rw [IsRemoved] at h
  simp only [set, copy32_bytes]
  generalize s.hypergraph.getVertex c a b = found at h ⊢
  obtain ⟨hypergraph, e | v⟩ := found
  · cases h
    dsimp only
    rw [if_pos rfl]
  · cases h

theorem adds_of_not_removed (h : ¬IsRemoved c s.hypergraph a b) :
    s.Adds (s.set c a.bytes b.bytes .vertexAdds (.vertexAdd a b frameNumber prior data)).1 a.bytes := by
  refine adds_of_set (Prod.ext rfl ?_)
  rw [IsRemoved] at h
  simp only [set, copy32_bytes]
  generalize s.hypergraph.getVertex c a b = found at h ⊢
  obtain ⟨hypergraph, e | v⟩ := found
  · dsimp only
    rw [if_neg fun he => h (congrArg error he)]
  · rfl

end

end HypergraphState

/-! ### The hypergraph intrinsic -/

section
variable {Data : Type} {h : HypergraphIntrinsic Data} {frameNumber : Nat} {feePaid feeMultiplier : Int}
  {s s₁ s' : HypergraphState}

theorem HypergraphIntrinsic.adds_invokeStep {op : HypergraphOperation Data}
    (hr : h.invokeStep frameNumber feePaid feeMultiplier op s = .ok (s', none)) : s.Adds s' op.domain.bytes := by
  have hr' := Outcome.ok_of_wrap hr
  split at hr'
  · cases hr'
  · split_ifs at hr'
    · cases hr'
    · obtain ⟨s₁, msg, err, hs, hcl, herr⟩ := called_materialize hr'
      obtain rfl := wrap_eq_none.mp herr.symm
      exact .congr hs hcl.adds

end

/-! ### The compute intrinsic -/

theorem HypergraphCRDT.snd_getVertex_congr {c : Crypto} {hg hg' : HypergraphCRDT} (hset : hg'.set = hg.set)
    (hsr : hg'.store = hg.store) (a b : Address) : (hg'.getVertex c a b).2 = (hg.getVertex c a b).2 := by
  have hst : (hg'.getOrCreateIdSet .vertex (shardKeyOf c.shake a) .vertex hg'.coveredPrefix).2 =
      (hg.getOrCreateIdSet .vertex (shardKeyOf c.shake a) .vertex hg.coveredPrefix).2 := by
    rw [getOrCreateIdSet_eq, getOrCreateIdSet_eq, hset]
  have hs : (hg'.getOrCreateIdSet .vertex (shardKeyOf c.shake a) .vertex hg'.coveredPrefix).1.store =
      (hg.getOrCreateIdSet .vertex (shardKeyOf c.shake a) .vertex hg.coveredPrefix).1.store := hsr
  unfold HypergraphCRDT.getVertex
  generalize hg'.getOrCreateIdSet .vertex (shardKeyOf c.shake a) .vertex hg'.coveredPrefix = p at hst hs ⊢
  generalize hg.getOrCreateIdSet .vertex (shardKeyOf c.shake a) .vertex hg.coveredPrefix = q at hst hs ⊢
  obtain ⟨hg₁, adds, removes⟩ := p
  obtain ⟨hg₂, adds', removes'⟩ := q
  cases hst
  dsimp only at hs ⊢
  rw [hs]
  split_ifs
  · rfl
  · generalize LazyVectorCommitmentTree.get _ _ _ = found
    obtain err | value := found
    · rfl
    · dsimp only
      generalize atomFromBytes value = atom
      obtain _ | _ | _ := atom <;> rfl

namespace ComputeIntrinsic

variable {c : ComputeIntrinsic} {r r' : MapRanges} {frameNumber : Nat} {feePaid feeMultiplier : Int}
  {s s' : HypergraphState} {domain dataAddress : Address}

theorem adds_setVertex {items : List (Bytes × Bytes)}
    (hr : c.setVertex domain dataAddress frameNumber items s = .ok (s', none)) : s.Adds s' domain.bytes := by
  obtain ⟨tree, -, hrs⟩ := bind_eq_ok.mp hr
  cases tree with
  | error err => cases hrs
  | ok tree => exact adds_of_set (s := s.allocate tree) (ok.inj hrs)

theorem adds_materializeDeployment {op : CodeDeployment}
    (hr : c.materializeDeployment frameNumber op s = .ok (s', none)) : s.Adds s' op.domain.bytes := by
  have hr' := Outcome.ok_of_wrap hr
  split at hr'
  · cases hr'
  · exact adds_setVertex hr'

theorem adds_materializeFinalize {op : CodeFinalize}
    (hrun : c.materializeFinalize frameNumber op s = .ok (s', none)) : s.Adds s' c.domain.bytes := by
  obtain ⟨e, -, herr⟩ | ⟨s₁, hc, hr⟩ := Outcome.andThen_eq_ok (Outcome.ok_of_wrap hrun)
  · cases herr
  · have hc' := Outcome.ok_of_wrap hc
    rw [storeExecutionResults] at hr
    split at hc'
    · cases hc'
    · split at hc'
      · cases hc'
      · split at hr
        · cases hr
        · split at hr
          · cases hr
          · exact (adds_setVertex hc').trans (adds_setVertex hr)

theorem materializeExecute_cases {op : CodeExecute} (hrun : c.materializeExecute r frameNumber op s = .ok (s', none)) :
    IsRemoved c.crypto s.hypergraph op.domain op.rendezvous ∧ s'.changeset = s.changeset ∨
      ¬IsRemoved c.crypto s.hypergraph op.domain op.rendezvous ∧ s.Adds s' op.domain.bytes := by
  obtain ⟨dag, -, hrs⟩ := bind_eq_ok.mp hrun
  cases dag with
  | error err => cases hrs
  | ok dag =>
    obtain ⟨tree, -, hrs⟩ := bind_eq_ok.mp hrs
    cases tree with
    | error err => cases hrs
    | ok tree =>
      cases hrs
      by_cases hr : IsRemoved c.crypto s.hypergraph op.domain op.rendezvous
      · exact .inl ⟨hr, set_removed (s := s.allocate tree) hr⟩
      · exact .inr ⟨hr, adds_of_not_removed (s := s.allocate tree) hr⟩

theorem executeCost_reads {op : CodeExecute} {hg hg' : HypergraphCRDT} {cost : Except String Int}
    (h : c.executeCost op hg = .ok (hg', cost)) : hg'.set = hg.set ∧ hg'.store = hg.store := by
  refine List.foldlM_inv_of_ok (fun acc : HypergraphCRDT × Except String Int => acc.1.set = hg.set ∧ acc.1.store = hg.store)
    h ⟨rfl, rfl⟩ fun executeOp _ b b' hb hst => ?_
  obtain ⟨hg₁, err | total⟩ := b
  · cases hst
    exact hb
  · obtain ⟨⟨hg₂, cost⟩, hcs, hrs⟩ := bind_eq_ok.mp hst
    have hhg₂ : hg₂.set = hg₁.set ∧ hg₂.store = hg₁.store := by
      unfold operationCost at hcs
      split at hcs
      · cases hcs
        exact ⟨rfl, rfl⟩
      · split_ifs at hcs <;> (cases hcs; exact ⟨rfl, rfl⟩)
      · split_ifs at hcs
        · cases hcs
          exact ⟨rfl, rfl⟩
        · have hfst := fst_getVertexData (c := c.crypto) hg₁ op.domain
            (HypergraphState.copy32 executeOp.address)
          generalize hg₁.getVertexData c.crypto op.domain (HypergraphState.copy32 executeOp.address) = found at hcs hfst
          obtain ⟨hg₃, err | circuitData⟩ := found
          · cases hcs
            subst hfst
            exact ⟨HypergraphCRDT.set_create .., rfl⟩
          · obtain ⟨got, -, hrs⟩ := bind_eq_ok.mp hcs
            subst hfst
            cases got <;> (cases hrs; exact ⟨HypergraphCRDT.set_create .., rfl⟩)
      · cases hcs
        exact ⟨rfl, rfl⟩
    have hb' : b'.1 = hg₂ := by
      cases cost <;> (cases hrs; rfl)
    rw [hb']
    exact ⟨hhg₂.1.trans hb.1, hhg₂.2.trans hb.2⟩

theorem payFor_ok {materialize : HypergraphState → Outcome} {cost : Except String Int}
    (hr : payFor feePaid feeMultiplier s materialize cost = .ok (s', none)) : materialize s = .ok (s', none) := by
  cases cost with
  | error err => cases hr
  | ok cost =>
    rw [payFor] at hr
    split_ifs at hr
    · cases hr
    · exact hr

end ComputeIntrinsic

/-! ### Loaded intrinsics -/

variable {Data : Type}

/-- An operation and the intrinsic that it is given to. The ranges are those of the graphs of a code execution. -/
inductive DomainStep (Data : Type) where
  | hypergraph (h : HypergraphIntrinsic Data) (op : HypergraphOperation Data)
  | compute (c : ComputeIntrinsic) (r r' : MapRanges) (op : ComputeOperation)

namespace DomainStep

/-- The intrinsic was loaded for the address. Only code finalizations read it. -/
def LoadedFor (D : Address) : DomainStep Data → Prop
  | .hypergraph _ _ => True
  | .compute c _ _ _ => c.domain = D

def invokeStep (frameNumber : Nat) (feePaid feeMultiplier : Int) (s : HypergraphState) : DomainStep Data → Outcome
  | .hypergraph h op => h.invokeStep frameNumber feePaid feeMultiplier op s
  | .compute c r r' op => c.invokeStep r r' frameNumber feePaid feeMultiplier op s

/-- The message names the domain, or it would write nothing elsewhere: a finalization has no domain of its own, and
    an execution at a removed vertex is not written. -/
def StaysIn (D : Address) (s : HypergraphState) : DomainStep Data → Prop
  | .hypergraph _ op => op.domain = D
  | .compute _ _ _ (.codeDeployment op) => op.domain = D
  | .compute c _ _ (.codeExecute op) =>
    op.domain = D ∨ HypergraphState.IsRemoved c.crypto s.hypergraph op.domain op.rendezvous
  | .compute _ _ _ (.codeFinalize _) => True

end DomainStep

/-- The changes of an accepted operation have the domain of the intrinsic if and only if the message names it. -/
theorem accepted_changes_in_domain_iff {D : Address} {step : DomainStep Data} {frameNumber : Nat}
    {feePaid feeMultiplier : Int} {s s' : HypergraphState} (hload : step.LoadedFor D)
    (hrun : step.invokeStep frameNumber feePaid feeMultiplier s = .ok (s', none)) :
    (∀ change ∈ s'.changeset.drop s.changeset.length, change.domain = D.bytes) ↔ step.StaysIn D s := by
  cases step with
  | hypergraph h op =>
    rw [(HypergraphIntrinsic.adds_invokeStep hrun).all_iff]
    exact Address.ext_iff.symm
  | compute c r r' op =>
    have hr' := Outcome.ok_of_wrap hrun
    cases op with
    | codeDeployment op =>
      dsimp only at hr'
      split at hr'
      · cases hr'
      · rw [(ComputeIntrinsic.adds_materializeDeployment (ComputeIntrinsic.payFor_ok hr')).all_iff]
        exact Address.ext_iff.symm
    | codeExecute op =>
      obtain ⟨err, -, hrs⟩ := bind_eq_ok.mp hr'
      cases err with
      | some err => cases hrs
      | none =>
        obtain ⟨⟨hypergraph, cost⟩, hco, hpay⟩ := bind_eq_ok.mp hrs
        obtain ⟨hs, hst⟩ := ComputeIntrinsic.executeCost_reads hco
        have hsm := HypergraphCRDT.snd_getVertex_congr (c := c.crypto) hs hst op.domain op.rendezvous
        have hcs := ComputeIntrinsic.materializeExecute_cases (ComputeIntrinsic.payFor_ok hpay)
        simp only [IsRemoved, hsm] at hcs
        obtain ⟨hr, hkp⟩ | ⟨hr, had⟩ := hcs
        · rw [hkp, List.drop_length]
          exact iff_of_true nofun (.inr hr)
        · rw [(had.congr rfl).all_iff]
          exact Address.ext_iff.symm.trans (or_iff_left hr).symm
    | codeFinalize op =>
      dsimp only at hr'
      split at hr'
      · cases hr'
      · rw [(ComputeIntrinsic.adds_materializeFinalize (ComputeIntrinsic.payFor_ok hr')).all_iff]
        exact iff_of_true (congrArg Address.bytes hload) trivial

/-! ### An intrinsic of another application -/

def sampleComputeIntrinsic (D : Address) : ComputeIntrinsic where
  crypto := Crypto.plain
  domain := D
  poseidon _ := .ok .zero
  validateCircuit _ := none
  simpleVerify _ _ _ := true
  validateSignature _ _ _ := .ok true
  discriminators := []
  transitionBytes _ := .ok []
  resultBytes _ := .ok []
  finalizeBytes _ := .ok []

def sampleRanges : MapRanges := ⟨fun _ l => l, fun _ _ => .refl _⟩

def otherAddress : Address := HypergraphState.copy32 [1]

def addStep : DomainStep Unit := .hypergraph sampleHypergraphIntrinsic (.vertexAdd .zero .zero [()] [])

def deployStep (D : Address) : DomainStep Unit :=
  .compute (sampleComputeIntrinsic D) sampleRanges sampleRanges (.codeDeployment ⟨[7], .zero⟩)

open HypergraphState in
theorem accepted_changes_in_domain_iff_own : ∃ s s', addStep.invokeStep 1 55 1 vacant = .ok (s, none) ∧
    (deployStep .zero).invokeStep 1 1 1 vacant = .ok (s', none) ∧
    (∀ change ∈ s.changeset.drop vacant.changeset.length, change.domain = Address.zero.bytes) ∧
    ∀ change ∈ s'.changeset.drop vacant.changeset.length, change.domain = Address.zero.bytes := by
  have hadd : addStep.invokeStep 1 55 1 vacant = .ok (_, none) := rfl
  have hd : (deployStep .zero).invokeStep 1 1 1 vacant = .ok (_, none) := rfl
  have hld : addStep.LoadedFor .zero := trivial
  have hld' : (deployStep .zero).LoadedFor .zero := rfl
  exact ⟨_, _, hadd, hd, (accepted_changes_in_domain_iff hld hadd).mpr rfl,
    (accepted_changes_in_domain_iff hld' hd).mpr rfl⟩

open HypergraphState in
/-- Intrinsics of another application accept the same operations. -/
theorem accepted_changes_in_other_domain : addStep.LoadedFor otherAddress ∧ (deployStep otherAddress).LoadedFor otherAddress ∧
    ∃ s s', addStep.invokeStep 1 55 1 vacant = .ok (s, none) ∧
      (deployStep otherAddress).invokeStep 1 1 1 vacant = .ok (s', none) ∧
      (∃ change ∈ s.changeset.drop vacant.changeset.length, change.domain ≠ otherAddress.bytes) ∧
      ∃ change ∈ s'.changeset.drop vacant.changeset.length, change.domain ≠ otherAddress.bytes := by
  have hadd : addStep.invokeStep 1 55 1 vacant = .ok (_, none) := rfl
  have hd : (deployStep otherAddress).invokeStep 1 1 1 vacant = .ok (_, none) := rfl
  exact ⟨trivial, rfl, _, _, hadd, hd, ⟨_, List.mem_singleton_self _, by decide +kernel⟩, _,
    List.mem_singleton_self _, by decide +kernel⟩

end Quilibrium
