import Quilibrium.Execution.HypergraphIntrinsic
import Quilibrium.Theorems.Atomicity
import Mathlib.Data.List.ReduceOption

/-! What a bundle that fails leaves behind, and the fees that its operations are given. -/

namespace Quilibrium
open Except List Option HypergraphState

variable {Payload : Type}

/-! ### The changeset -/

namespace MaterializedState

def pointers : MaterializedState → List Nat
  | .vertexAdd _ _ _ prior data => data :: prior.toList
  | .vertexRemove _ _ prior => prior.toList
  | .hyperedgeAdd _ _ extTree _ prior => extTree :: prior.toList
  | .hyperedgeRemove _ _ extTree _ prior => extTree :: prior.toList

end MaterializedState

namespace HypergraphState

variable {c : Crypto} {s s₁ s' : HypergraphState}

/-- The committed hypergraph and the pending changes with their trees are the same. -/
structure Untouched (s s' : HypergraphState) : Prop where
  contents : s.SameContents s'
  changeset : s'.changeset = s.changeset
  trees : ∀ change ∈ s.changeset, ∀ p ∈ change.value.pointers, s'.heap p = s.heap p

theorem untouched_refl : s.Untouched s := ⟨⟨rfl, fun _ => rfl, rfl⟩, rfl, fun _ _ _ _ => rfl⟩

theorem Untouched.trans (h : s.Untouched s₁) (h' : s₁.Untouched s') : s.Untouched s' where
  contents := ⟨h'.contents.store.trans h.contents.store, fun tree => (h'.contents.trees tree).trans (h.contents.trees tree),
    h'.contents.size.trans h.contents.size⟩
  changeset := h'.changeset.trans h.changeset
  trees change hm p hp := (h'.trees change (h.changeset ▸ hm) p hp).trans (h.trees change hm p hp)

theorem Untouched.symm (h : s.Untouched s') : s'.Untouched s where
  contents := ⟨h.contents.store.symm, fun tree => (h.contents.trees tree).symm, h.contents.size.symm⟩
  changeset := h.changeset.symm
  trees change hm p hp := (h.trees change (h.changeset ▸ hm) p hp).symm

theorem Untouched.congr (h : s.Untouched s₁) : s.Untouched s' ↔ s₁.Untouched s' := ⟨h.symm.trans, h.trans⟩

theorem not_untouched_of_lt (h : s.changeset.length < s'.changeset.length) : ¬s.Untouched s' := fun hu => by
  rw [hu.changeset] at h
  exact lt_irrefl _ h

theorem changeset_commit {fuel : Nat} {err : Option String} (h : s.commit c fuel = .ok (s', err)) :
    s'.changeset = s.changeset := by
  obtain ⟨⟨heap, hypergraph, txn, err'⟩, -, hrs⟩ := bind_eq_ok.mp h
  cases err' with
  | some err' =>
    cases hrs
    rfl
  | none =>
    obtain ⟨hypergraph', -, hrs⟩ := bind_eq_ok.mp hrs
    cases hrs
    rfl

theorem fst_getVertex (hg : HypergraphCRDT) (a b : Address) :
    (hg.getVertex c a b).1 = hg.create .vertex (shardKeyOf c.shake a) := by
  have heq := hg.getOrCreateIdSet_eq .vertex (shardKeyOf c.shake a)
  generalize hg.create .vertex _ = hg' at heq ⊢
  simp only [HypergraphCRDT.getVertex, heq]
  split
  · rfl
  · split
    · rfl
    · split <;> rfl

theorem fst_getVertexData (hg : HypergraphCRDT) (a b : Address) :
    (hg.getVertexData c a b).1 = hg.create .vertex (shardKeyOf c.shake a) := by
  have heq := hg.getOrCreateIdSet_eq .vertex (shardKeyOf c.shake a)
  generalize hg.create .vertex _ = hg' at heq ⊢
  simp only [HypergraphCRDT.getVertexData, heq]
  split <;> rfl

theorem untouched_create (m : AtomType) (key : ShardKey) : s.Untouched { s with hypergraph := s.hypergraph.create m key } :=
  ⟨⟨rfl, fun tree => by rw [HypergraphCRDT.set_create], rfl⟩, rfl, fun _ _ _ _ => rfl⟩

theorem untouched_getVertex (a b : Address) : s.Untouched { s with hypergraph := (s.hypergraph.getVertex c a b).1 } := by
  rw [fst_getVertex]
  exact untouched_create ..

end HypergraphState

/-! ### Operations -/

variable {msg : String} {o : Outcome} {err : Option String}

theorem Outcome.wrap_eq_ok {s : HypergraphState} :
    Outcome.wrap msg o = .ok (s, err) ↔ ∃ err', o = .ok (s, err') ∧ err = Quilibrium.wrap msg err' := by
  rcases o with fault | ⟨s', err'⟩
  · exact ⟨nofun, fun ⟨_, h, _⟩ => (by cases h)⟩
  · constructor
    · rintro ⟨⟩
      exact ⟨err', rfl, rfl⟩
    · rintro ⟨_, ⟨⟩, rfl⟩
      rfl

theorem wrap_eq_none : wrap msg err = none ↔ err = none := map_eq_none_iff

theorem Outcome.ok_of_wrap {s : HypergraphState} (h : Outcome.wrap msg o = .ok (s, none)) : o = .ok (s, none) := by
  obtain ⟨err, ho, herr⟩ := Outcome.wrap_eq_ok.mp h
  rw [ho, wrap_eq_none.mp herr.symm]

theorem Outcome.andThen_eq_ok {next : HypergraphState → Outcome} {s' : HypergraphState}
    (h : Outcome.andThen o next = .ok (s', err)) :
    (∃ e, o = .ok (s', some e) ∧ err = some e) ∨ ∃ s₁, o = .ok (s₁, none) ∧ next s₁ = .ok (s', err) := by
  obtain ⟨⟨s₁, _ | e⟩, ho, hrs⟩ := bind_eq_ok.mp h
  · exact .inr ⟨s₁, ho, hrs⟩
  · cases hrs
    exact .inl ⟨e, ho, rfl⟩

/-- An operation appends, with success it has appended, and it changes nothing exactly if it is refused. -/
structure Account (s : HypergraphState) (refused : Prop) (s' : HypergraphState) (err : Option String) : Prop where
  kept : s.changeset <+: s'.changeset
  grown : err = none → s.changeset.length < s'.changeset.length
  untouched : s.Untouched s' ↔ refused

namespace Account

variable {s s₁ s' : HypergraphState} {refused : Prop} {err : Option String}

theorem wrap (h : Account s refused s' err) (msg : String) : Account s refused s' (Quilibrium.wrap msg err) :=
  ⟨h.kept, fun hnn => h.grown (wrap_eq_none.mp hnn), h.untouched⟩

theorem of_untouched (h : s.Untouched s') (hr : refused) (e : String) : Account s refused s' (some e) :=
  ⟨h.changeset ▸ prefix_rfl, nofun, iff_of_true h hr⟩

theorem commit (h : Account s refused s₁ none) {c : Crypto} {fuel : Nat} (hc : s₁.commit c fuel = .ok (s', err)) :
    Account s refused s' err := by
  have hlt := h.grown rfl
  have hnot : ¬refused := fun hr => not_untouched_of_lt hlt (h.untouched.mpr hr)
  rw [← changeset_commit hc] at hlt
  exact ⟨changeset_commit hc ▸ h.kept, fun _ => hlt, iff_of_false (not_untouched_of_lt hlt) hnot⟩

theorem andThen_commit {o : Outcome} {c : Crypto} {fuel : Nat} (hop : ∀ s₁ e, o = .ok (s₁, e) → Account s refused s₁ e)
    (h : Outcome.andThen o (fun s => Outcome.wrap "commit" (s.commit c fuel)) = .ok (s', err)) : Account s refused s' err := by
  obtain ⟨e, ho, rfl⟩ | ⟨s₁, ho, hcom⟩ := Outcome.andThen_eq_ok h
  · exact hop s' (some e) ho
  · obtain ⟨err, hc, rfl⟩ := Outcome.wrap_eq_ok.mp hcom
    exact ((hop s₁ none ho).commit hc).wrap _

theorem trans (hu : s.Untouched s₁) (h : Account s₁ refused s' err) : Account s refused s' err :=
  ⟨hu.changeset ▸ h.kept, hu.changeset ▸ h.grown, hu.congr.trans h.untouched⟩

end Account

namespace Intrinsics

variable (I : Intrinsics Payload) (op : Operation Payload) (s : HypergraphState)

def FailsUnwritten : Prop := ∃ s' err, I.invoke op s = .ok (s', some err) ∧ s.Untouched s'

/-- The operation is refused before its step, or the step fails and has written nothing. -/
def Refuses : Prop := I.prepare op s ≠ none ∨ I.FailsUnwritten op s

variable {I op s} {s' : HypergraphState} {err : Option String}

theorem invoke_account (h : I.invoke op s = .ok (s', err)) : Account s (I.FailsUnwritten op s) s' err := by
  refine ⟨I.invoke_extends h, fun hnn => I.invoke_writes (hnn ▸ h), fun hu => ?_, ?_⟩
  · cases err with
    | none => exact absurd hu (not_untouched_of_lt (I.invoke_writes h))
    | some err => exact ⟨s', err, h, hu⟩
  · rintro ⟨s'', err', h', hu⟩
    cases h.symm.trans h'
    exact hu

theorem step_account (h : I.step op s = .ok (s', err)) : Account s (I.Refuses op s) s' err := by
  rw [step] at h
  cases hpre : I.prepare op s with
  | some e =>
    rw [hpre] at h
    cases h
    exact .of_untouched untouched_refl (.inl (hpre ▸ some_ne_none e)) e
  | none =>
    rw [hpre] at h
    obtain ⟨hkp, hgr, hu⟩ := invoke_account h
    exact ⟨hkp, hgr, hu.trans (or_iff_right fun hsm => hsm hpre).symm⟩

end Intrinsics

/-! ### Bundles of the global engine -/

def MessageBundle.first (bundle : MessageBundle Payload) (isOwnOp : RequestKind → Bool) : Option (MessageRequest Payload) :=
  bundle.requests.reduceOption.find? fun op => isOwnOp op.kind

namespace GlobalExecutionEngine

variable {env : ExecutionEnv Payload} {frameNumber : Nat} {feeMultiplier : Int} {address : Bytes} {s s' : HypergraphState}

/-- The address is not the global one, or the intrinsic refuses the request. -/
def Refuses (env : ExecutionEnv Payload) (frameNumber : Nat) (feeMultiplier : Int) (address : Bytes) (s : HypergraphState)
    (op : MessageRequest Payload) : Prop :=
  address ≠ globalIntrinsicAddress ∨ env.global.Refuses ⟨frameNumber, 0, feeMultiplier, address, op⟩ s

theorem processIndividualMessage_account {op : MessageRequest Payload} {err : Option String} (ho : isGlobalOp op.kind = true)
    (h : processIndividualMessage env frameNumber feeMultiplier address op s = .ok (s', err)) :
    Account s (Refuses env frameNumber feeMultiplier address s op) s' err := by
  obtain ⟨err, hr, rfl⟩ := Outcome.wrap_eq_ok.mp h
  rw [ho, Bool.not_true, if_neg Bool.false_ne_true] at hr
  apply Account.wrap
  split_ifs at hr with hadr
  · cases hr
    exact .of_untouched untouched_refl (.inl hadr) _
  · have href : Refuses env frameNumber feeMultiplier address s op ↔ env.global.Refuses _ s := or_iff_right hadr
    rw [href]
    exact .andThen_commit (fun _ _ hst => Intrinsics.step_account hst) hr

theorem handleOps_kept {ops : List (Option (MessageRequest Payload))} {processed : Bool} {r : Except String Bool}
    (h : handleOps env frameNumber feeMultiplier address ops processed s = .ok (s', r)) : s.changeset <+: s'.changeset := by
  induction ops generalizing processed s with
  | nil =>
    cases h
    exact prefix_rfl
  | cons op ops ih =>
    cases op with
    | none => cases h
    | some op =>
      rw [handleOps] at h
      split_ifs at h with hfgn
      · exact ih h
      · obtain ⟨⟨s₁, err⟩, hop, hrs⟩ := bind_eq_ok.mp h
        have hac := processIndividualMessage_account (by simpa using hfgn) hop
        cases err with
        | some err =>
          cases hrs
          exact hac.kept
        | none => exact hac.kept.trans (ih hrs)

theorem handleOps_untouched {ops : List (Option (MessageRequest Payload))} {processed : Bool} {err : String}
    (h : handleOps env frameNumber feeMultiplier address ops processed s = .ok (s', .error err)) :
    s.Untouched s' ↔ ∃ op, ops.reduceOption.find? (fun op => isGlobalOp op.kind) = some op ∧
      Refuses env frameNumber feeMultiplier address s op := by
  induction ops generalizing processed with
  | nil => cases h
  | cons op ops ih =>
    cases op with
    | none => cases h
    | some op =>
      rw [handleOps] at h
      rw [reduceOption_cons_of_some]
      split_ifs at h with hfgn
      · rw [find?_cons_of_neg (by simpa using hfgn)]
        exact ih h
      · have ho : isGlobalOp op.kind = true := by simpa using hfgn
        rw [find?_cons, ho]
        obtain ⟨⟨s₁, err'⟩, hop, hrs⟩ := bind_eq_ok.mp h
        have hac := processIndividualMessage_account ho hop
        cases err' with
        | some err' =>
          cases hrs
          simpa using hac.untouched
        | none =>
          -- the first operation was appended for good
          have hlt := hac.grown rfl
          have hnot := not_untouched_of_lt hlt
          rw [hac.untouched] at hnot
          simpa [hnot] using not_untouched_of_lt (hlt.trans_le (handleOps_kept hrs).length_le)

end GlobalExecutionEngine

/-! ### Bundles of the engines that charge fees -/

namespace FeeEngine

variable {E : FeeEngine Payload} {env : ExecutionEnv Payload} {frameNumber : Nat} {feeMultiplier : Int} {address : Bytes}
  {s s₁ s' : HypergraphState}

/-- A deployment that fails has written nothing; another operation is not allowed or refused by the intrinsic. -/
def Refuses (E : FeeEngine Payload) (env : ExecutionEnv Payload) (op : Operation Payload) (s : HypergraphState) : Prop :=
  if E.isDeploy op.request.kind then (E.intrinsics env).FailsUnwritten op s
  else ∃ s₁ err, checkMode env op.address true s = .ok (s₁, err) ∧ (err ≠ none ∨ (E.intrinsics env).Refuses op s₁)

/-- The first operation for the engine with its fee: the requests before it have taken theirs. -/
def firstOperation (E : FeeEngine Payload) (env : ExecutionEnv Payload) (frameNumber : Nat) (feeMultiplier : Int) (address : Bytes)
    (ops : List (MessageRequest Payload)) (feeQueue : List Int) : Option (Operation Payload) :=
  let consumes := (defaultFeeMarket env.quilTokenAddress).consumes
  let before := ops.takeWhile fun op => !E.isOwnOp op.kind
  (ops.find? fun op => E.isOwnOp op.kind).map fun op =>
    ⟨frameNumber, if consumes op.kind then (popFee (feeQueue.drop (before.countP fun op => consumes op.kind))).1 else 0,
      feeMultiplier, E.domain address op, op⟩

variable {op : MessageRequest Payload} {err : Option String} {ops : List (MessageRequest Payload)} {i : Nat}
  {feeQueue : List Int} {processed : Bool}

theorem untouched_checkMode {domain : Bytes} {fromBundle : Bool}
    (h : checkMode env domain fromBundle s = .ok (s₁, err)) : s.Untouched s₁ := by
  rw [checkMode] at h
  split_ifs at h with hmd
  · cases h
    exact untouched_refl
  · obtain ⟨a, -, h⟩ := bind_eq_ok.mp h
    obtain ⟨b, -, h⟩ := bind_eq_ok.mp h
    cases h
    exact untouched_getVertex a b

theorem performStep_account {op : Operation Payload} (hd : ¬E.isDeploy op.request.kind = true)
    (h : E.performStep env op true s = .ok (s', err)) : Account s (E.Refuses env op s) s' err := by
  rw [Refuses, if_neg hd]
  obtain ⟨e, hmd, rfl⟩ | ⟨s₁, hmd, hst⟩ := Outcome.andThen_eq_ok h
  · exact .of_untouched (untouched_checkMode hmd) ⟨s', some e, hmd, .inl (some_ne_none e)⟩ e
  · obtain ⟨hkp, hgr, hu⟩ := Account.trans (untouched_checkMode hmd) (Intrinsics.step_account hst)
    refine ⟨hkp, hgr, hu.trans ⟨fun hr => ⟨s₁, none, hmd, .inr hr⟩, ?_⟩⟩
    rintro ⟨s₂, err', hmd', hr⟩
    cases hmd.symm.trans hmd'
    exact hr.resolve_left fun hnn => hnn rfl

theorem processIndividualMessage_account {feePaid : Int} (ho : E.isOwnOp op.kind = true)
    (h : E.processIndividualMessage env frameNumber feePaid feeMultiplier address op true s = .ok (s', err)) :
    Account s (E.Refuses env ⟨frameNumber, feePaid, feeMultiplier, E.domain address op, op⟩ s) s' err := by
  simp only [processIndividualMessage, ho, Bool.not_true, Bool.false_eq_true, if_false, if_true] at h
  split_ifs at h with hd hcm
  · rw [Refuses, if_pos hd]
    exact Intrinsics.invoke_account h
  · obtain ⟨err, hr, rfl⟩ := Outcome.wrap_eq_ok.mp h
    exact (Account.andThen_commit (fun _ _ hst => performStep_account hd hst) hr).wrap _
  · obtain ⟨err, hr, rfl⟩ := Outcome.wrap_eq_ok.mp h
    exact (performStep_account hd hr).wrap _

theorem popFee_snd (feeQueue : List Int) : (popFee feeQueue).2 = feeQueue.drop 1 := by
  cases feeQueue <;> rfl

def feesAfter (env : ExecutionEnv Payload) (op : MessageRequest Payload) (feeQueue : List Int) : List Int :=
  if (defaultFeeMarket env.quilTokenAddress).consumes op.kind then (popFee feeQueue).2 else feeQueue

def feeFor (env : ExecutionEnv Payload) (op : MessageRequest Payload) (feeQueue : List Int) : Int :=
  if (defaultFeeMarket env.quilTokenAddress).consumes op.kind then (popFee feeQueue).1 else 0

theorem firstOperation_cons_own (ops : List (MessageRequest Payload)) (feeQueue : List Int)
    (ho : E.isOwnOp op.kind = true) : E.firstOperation env frameNumber feeMultiplier address (op :: ops) feeQueue =
      some ⟨frameNumber, feeFor env op feeQueue, feeMultiplier, E.domain address op, op⟩ := by
  simp [firstOperation, feeFor, ho]

theorem firstOperation_cons_foreign (ops : List (MessageRequest Payload)) (feeQueue : List Int)
    (ho : E.isOwnOp op.kind = false) : E.firstOperation env frameNumber feeMultiplier address (op :: ops) feeQueue =
      E.firstOperation env frameNumber feeMultiplier address ops (feesAfter env op feeQueue) := by
  simp only [firstOperation, find?_cons, ho, takeWhile_cons, Bool.not_false, if_true, countP_cons, feesAfter]
  split_ifs with hc
  · simp [popFee_snd]
  · rfl

/-- The loop passes a foreign operation; an own one has no fee left, or fails, or the loop goes on after it. -/
theorem handleOps_cons {r : Except String Bool}
    (h : E.handleOps env frameNumber feeMultiplier (op :: ops) i feeQueue address processed s = .ok (s', r)) :
    (E.isOwnOp op.kind = false ∧ E.handleOps env frameNumber feeMultiplier ops (i + 1) (feesAfter env op feeQueue) address
      processed s = .ok (s', r)) ∨ E.isOwnOp op.kind = true ∧
    (((defaultFeeMarket env.quilTokenAddress).consumes op.kind = true ∧ feeQueue = [] ∧ s' = s ∧ ∃ e, r = .error e) ∨
    ∃ s₁ err, E.processIndividualMessage env frameNumber (feeFor env op feeQueue) feeMultiplier address op true s =
        .ok (s₁, err) ∧ ((s' = s₁ ∧ ∃ e, r = .error e) ∨ err = none ∧ ∃ address',
        E.handleOps env frameNumber feeMultiplier ops (i + 1) (feesAfter env op feeQueue) address' true s₁ = .ok (s', r))) := by
  have hsp : (if (defaultFeeMarket env.quilTokenAddress).consumes op.kind then popFee feeQueue else (0, feeQueue)) =
      (feeFor env op feeQueue, feesAfter env op feeQueue) := by
    rw [feeFor, feesAfter]
    split_ifs <;> rfl
  cases ho : E.isOwnOp op.kind with
  | false =>
    simp only [handleOps, ho, Bool.not_false, if_true] at h
    exact .inl ⟨rfl, h⟩
  | true =>
    simp only [handleOps, ho, Bool.not_true, Bool.false_eq_true, if_false, hsp] at h
    refine .inr ⟨rfl, ?_⟩
    split_ifs at h with hfee
    · rw [Bool.and_eq_true, List.isEmpty_iff] at hfee
      cases h
      exact .inl ⟨hfee.1, hfee.2, rfl, _, rfl⟩
    · obtain ⟨⟨s₁, err⟩, hop, hrs⟩ := bind_eq_ok.mp h
      refine .inr ⟨s₁, err, hop, ?_⟩
      cases err with
      | some err =>
        cases hrs
        exact .inl ⟨rfl, _, rfl⟩
      | none =>
        dsimp only at hrs
        split at hrs
        · cases hrs
          exact .inl ⟨rfl, _, rfl⟩
        · exact .inr ⟨rfl, _, hrs⟩

theorem handleOps_kept {r : Except String Bool}
    (h : E.handleOps env frameNumber feeMultiplier ops i feeQueue address processed s = .ok (s', r)) :
    s.changeset <+: s'.changeset := by
  induction ops generalizing i feeQueue address processed s with
  | nil =>
    cases h
    exact prefix_rfl
  | cons op ops ih =>
    obtain ⟨-, hrs⟩ | ⟨ho, ⟨-, -, rfl, -⟩ | ⟨s₁, err, hop, ⟨rfl, -⟩ | ⟨-, address', hrs⟩⟩⟩ := handleOps_cons h
    · exact ih hrs
    · exact prefix_rfl
    · exact (processIndividualMessage_account ho hop).kept
    · exact (processIndividualMessage_account ho hop).kept.trans (ih hrs)

theorem handleOps_untouched {err : String}
    (hfs : countFeeConsumers (defaultFeeMarket env.quilTokenAddress) ops ≤ feeQueue.length)
    (h : E.handleOps env frameNumber feeMultiplier ops i feeQueue address processed s = .ok (s', .error err)) :
    s.Untouched s' ↔
      ∃ op, E.firstOperation env frameNumber feeMultiplier address ops feeQueue = some op ∧ E.Refuses env op s := by
  induction ops generalizing i feeQueue with
  | nil => cases h
  | cons op ops ih =>
    rw [countFeeConsumers, countP_cons] at hfs
    obtain ⟨ho, hrs⟩ | ⟨ho, ⟨hc, rfl, -⟩ | ⟨s₁, err', hop, hrs⟩⟩ := handleOps_cons h
    · rw [firstOperation_cons_foreign ops feeQueue ho]
      refine ih ?_ hrs
      rw [countFeeConsumers, feesAfter]
      split_ifs at hfs ⊢ with hc
      · rw [popFee_snd, length_drop]
        omega
      · exact hfs
    · rw [if_pos hc] at hfs
      exact absurd hfs (Nat.not_succ_le_zero _)
    · have hac := processIndividualMessage_account ho hop
      rw [firstOperation_cons_own ops feeQueue ho]
      simp only [some.injEq, exists_eq_left']
      obtain ⟨rfl, -⟩ | ⟨rfl, address', hrs⟩ := hrs
      · exact hac.untouched
      · -- the first operation was appended for good
        have hlt := hac.grown rfl
        refine iff_of_false ?_ fun hr => not_untouched_of_lt hlt (hac.untouched.mpr hr)
        exact not_untouched_of_lt (hlt.trans_le (handleOps_kept hrs).length_le)

/-- The fees do not suffice, or the first operation for the engine is refused. -/
def RefusesBundle (E : FeeEngine Payload) (env : ExecutionEnv Payload) (frameNumber : Nat) (feeMultiplier : Int) (address : Bytes)
    (bundle : MessageBundle Payload) (s : HypergraphState) : Prop :=
  let policy := defaultFeeMarket env.quilTokenAddress
  let ops := bundle.requests.reduceOption
  (collectBundleFees policy ops).length < countFeeConsumers policy ops ∨
    ∃ op, E.firstOperation env frameNumber feeMultiplier address ops (collectBundleFees policy ops) = some op ∧
      E.Refuses env op s

theorem reduceOption_of_mapM {α : Type} {l : List (Option α)} {l' : List α} (h : l.mapM id = some l') : l.reduceOption = l' := by
  induction l generalizing l' with
  | nil =>
    cases h
    rfl
  | cons a l ih =>
    simp only [mapM_cons, id_eq, bind_eq_bind, bind_eq_some_iff, Option.pure_def, some.injEq] at h
    obtain ⟨a, rfl, l'', hl, rfl⟩ := h
    rw [reduceOption_cons_of_some, ih hl]

theorem mapM_id_of_some {α : Type} {l : List (Option α)} (h : ∀ r ∈ l, ∃ a, r = some a) : l.mapM id = some l.reduceOption := by
  induction l with
  | nil => rfl
  | cons r l ih =>
    obtain ⟨a, rfl⟩ := h r mem_cons_self
    rw [mapM_cons, ih fun r hr => h r (mem_cons_of_mem _ hr), reduceOption_cons_of_some]
    rfl

theorem handleBundle_cases {bundle : MessageBundle Payload} {r : Except String Bool}
    (h : E.handleBundle env frameNumber feeMultiplier address (some bundle) s = .ok (s', r)) :
    let policy := defaultFeeMarket env.quilTokenAddress
    let ops := bundle.requests.reduceOption
    ((collectBundleFees policy ops).length < countFeeConsumers policy ops ∧ s' = s ∧ ∃ e, r = .error e) ∨
      ¬(collectBundleFees policy ops).length < countFeeConsumers policy ops ∧
        E.handleOps env frameNumber feeMultiplier ops 0 (collectBundleFees policy ops) address false s = .ok (s', r) := by
  rw [handleBundle] at h
  cases hrq : bundle.requests.mapM id with
  | none =>
    rw [hrq] at h
    cases h
  | some reqs =>
    simp only [hrq, sanityCheck] at h
    rw [reduceOption_of_mapM hrq]
    split_ifs at h with hfs
    · cases h
      exact .inl ⟨hfs, rfl, _, rfl⟩
    · exact .inr ⟨hfs, h⟩

theorem handleBundle_untouched {bundle : MessageBundle Payload} {err : String}
    (h : E.handleBundle env frameNumber feeMultiplier address (some bundle) s = .ok (s', .error err)) :
    s.Untouched s' ↔ E.RefusesBundle env frameNumber feeMultiplier address bundle s := by
  rw [RefusesBundle]
  obtain ⟨hfs, rfl, -⟩ | ⟨hfs, h⟩ := handleBundle_cases h
  · exact iff_of_true untouched_refl (.inl hfs)
  · rw [handleOps_untouched (not_lt.mp hfs) h, or_iff_right hfs]

end FeeEngine

/-! ### The hypergraph intrinsic -/

def HypergraphOperation.domain {Data : Type} : HypergraphOperation Data → Address
  | .vertexAdd domain _ _ _ => domain
  | .vertexRemove domain _ _ => domain
  | .hyperedgeAdd domain _ _ => domain
  | .hyperedgeRemove domain _ _ => domain

namespace HypergraphState

def Grows (s s' : HypergraphState) (err : Option String) : Prop :=
  s.changeset <+: s'.changeset ∧ (err = none → s.changeset.length < s'.changeset.length)

variable {c : Crypto} {s s' : HypergraphState} {domain address : Bytes} {disc : Discriminator}
  {value : MaterializedState} {err : Option String}

theorem grows_of_eq (h : s'.changeset = s.changeset) (e : String) : s.Grows s' (some e) :=
  ⟨h ▸ prefix_rfl, nofun⟩

theorem Called.grows (h : s.Called c domain s' err) : s.Grows s' err := by
  cases h with
  | refused => exact grows_of_eq rfl _
  | appended => exact ⟨prefix_append .., fun _ => by simp⟩

theorem changeset_of_get {got : Except String Got} (h : s.get c domain address disc = (s', got)) :
    s'.changeset = s.changeset := by
  unfold get at h
  split at h
  · cases h
    rfl
  · split at h
    · generalize s.hypergraph.getVertexData c _ _ = found at h
      rcases found with ⟨hypergraph, _ | _⟩ <;> (cases h; rfl)
    · generalize s.hypergraph.getHyperedge c _ _ = found at h
      rcases found with ⟨hypergraph, _ | _⟩ <;> (cases h; rfl)
    · cases h
      rfl

theorem Grows.wrap (h : s.Grows s' err) (msg : String) : s.Grows s' (Quilibrium.wrap msg err) :=
  ⟨h.1, fun hnn => h.2 (wrap_eq_none.mp hnn)⟩

end HypergraphState

namespace HypergraphIntrinsic

variable {Data : Type} {h : HypergraphIntrinsic Data} {frameNumber : Nat} {op : HypergraphOperation Data}
  {s s' : HypergraphState} {err : Option String}

theorem changeset_priorExtrinsics {got : Except String HypergraphState.Got} {prior : Option Nat}
    (h : priorExtrinsics s got = .ok (s', prior)) : s'.changeset = s.changeset := by
  rcases got with e | _ | _ | he
  · cases h
    rfl
  · cases h
  · cases h
  · rw [priorExtrinsics] at h
    split at h
    · cases h
    · cases h
      rfl

theorem called_materialize (hr : h.materialize frameNumber op s = .ok (s', err)) : ∃ (s₁ : HypergraphState) (msg : String) (err' : Option String),
    s₁.changeset = s.changeset ∧ s₁.Called h.crypto op.domain.bytes s' err' ∧ err = wrap msg err' := by
  cases op with
  | vertexAdd domain dataAddress data sig =>
    rw [materialize] at hr
    rcases hget : s.get h.crypto domain.bytes dataAddress.bytes .vertexAdds with ⟨s₁, got⟩
    rcases hpr : priorData s₁ got with ⟨s₂, prior⟩
    simp only [hget, hpr] at hr
    obtain ⟨rfl, rfl⟩ := Prod.mk.inj (ok.inj hr)
    have hch : s₂.changeset = s₁.changeset := by rcases got with e | _ | _ | _ <;> (cases hpr; rfl)
    exact ⟨s₂.allocate _, _, _, hch.trans (changeset_of_get hget), called_set .., rfl⟩
  | hyperedgeAdd domain value sig =>
    rw [materialize] at hr
    rcases hget : s.get h.crypto domain.bytes value.dataAddress.bytes .hyperedgeAdds with ⟨s₁, got⟩
    rw [hget] at hr
    obtain ⟨⟨s₂, prior⟩, hpr, hrs⟩ := bind_eq_ok.mp hr
    dsimp only at hrs
    obtain ⟨rfl, rfl⟩ := Prod.mk.inj (ok.inj hrs)
    exact ⟨s₂.allocate _, _, _, (changeset_priorExtrinsics hpr).trans (changeset_of_get hget), called_set .., rfl⟩
  | vertexRemove domain _ sig | hyperedgeRemove domain _ sig =>
    obtain ⟨err', hd, rfl⟩ := Outcome.wrap_eq_ok.mp hr
    exact ⟨s, _, err', rfl, called_delete hd, rfl⟩

theorem grows_materialize (hr : h.materialize frameNumber op s = .ok (s', err)) : s.Grows s' err := by
  obtain ⟨s₁, msg, err', hs, hcl, rfl⟩ := called_materialize hr
  have hgr := hcl.grows
  rw [Grows, hs] at hgr
  exact Grows.wrap hgr msg

theorem grows_invokeStep {feePaid feeMultiplier : Int}
    (hr : h.invokeStep frameNumber feePaid feeMultiplier op s = .ok (s', err)) : s.Grows s' err := by
  obtain ⟨e, hr', rfl⟩ := Outcome.wrap_eq_ok.mp hr
  apply Grows.wrap
  split at hr'
  · cases hr'
    exact grows_of_eq rfl _
  · split_ifs at hr'
    · cases hr'
      exact grows_of_eq rfl _
    · exact grows_materialize hr'

def intrinsics (h : HypergraphIntrinsic Data) (deploy : Intrinsics (HypergraphOperation Data)) :
    Intrinsics (HypergraphOperation Data) where
  prepare := deploy.prepare
  invoke op s := if HypergraphExecutionEngine.isDeploy op.request.kind then deploy.invoke op s
    else h.invokeStep op.frameNumber op.feePaid op.feeMultiplier op.request.payload s
  invoke_extends hrun := by
    split_ifs at hrun
    · exact deploy.invoke_extends hrun
    · exact (grows_invokeStep hrun).1
  invoke_writes hrun := by
    split_ifs at hrun
    · exact deploy.invoke_writes hrun
    · exact (grows_invokeStep hrun).2 rfl

end HypergraphIntrinsic

/-! ### A bundle that adds a vertex and removes another -/

def Intrinsics.refusing : Intrinsics Payload where
  prepare _ _ := none
  invoke _ s := .ok (s, some "refused")
  invoke_extends h := by
    cases h
    exact List.prefix_rfl
  invoke_writes h := by cases h

def sampleHypergraphIntrinsic : HypergraphIntrinsic Unit where
  crypto := Crypto.plain
  verifyData _ := true
  dataBytes _ := []
  vertexTree _ := ⟨.leaf ⟨⟨[0], [], [], 1⟩, []⟩⟩
  validateSignature _ _ _ _ := .ok true

def sampleExecution : ExecutionEnv (HypergraphOperation Unit) where
  crypto := Crypto.plain
  fuel := treeFuel
  globalMode := false
  quilTokenAddress := [1]
  global := .refusing
  token := .refusing
  hypergraph := sampleHypergraphIntrinsic.intrinsics .refusing
  compute := .refusing

def feeRequest : MessageRequest (HypergraphOperation Unit) :=
  ⟨.transaction, [1], [[200], [200], [200]], .vertexRemove .zero .zero []⟩

def addRequest : MessageRequest (HypergraphOperation Unit) := ⟨.vertexAdd, [], [], .vertexAdd .zero .zero [()] []⟩

def removeRequest : MessageRequest (HypergraphOperation Unit) :=
  ⟨.vertexRemove, [], [], .vertexRemove .zero HypergraphState.farAddress []⟩

/-! ### All engines -/

/-- It does not decode, its fees do not suffice, or its first operation for the engine is refused. -/
def EngineName.RefusesBundle (env : ExecutionEnv Payload) (engine : EngineName) (frameNumber : Nat) (feeMultiplier : Int)
    (address : Bytes) (bundle : Option (MessageBundle Payload)) (s : HypergraphState) : Prop :=
  match bundle, engine with
  | none, _ => True
  | some bundle, .global => ∃ op, bundle.first GlobalExecutionEngine.isGlobalOp = some op ∧
      GlobalExecutionEngine.Refuses env frameNumber feeMultiplier address s op
  | some bundle, .token => TokenExecutionEngine.engine.RefusesBundle env frameNumber feeMultiplier address bundle s
  | some bundle, .hypergraph => HypergraphExecutionEngine.engine.RefusesBundle env frameNumber feeMultiplier address bundle s
  | some bundle, .compute => ComputeExecutionEngine.engine.RefusesBundle env frameNumber feeMultiplier address bundle s

namespace FeeEngine

variable {E : FeeEngine Payload} {env : ExecutionEnv Payload} {frameNumber : Nat} {feeMultiplier : Int} {address : Bytes}
  {s s' : HypergraphState} {op : MessageRequest Payload} {ops requests : List (MessageRequest Payload)} {i : Nat}
  {fees : List Int} {processed : Bool}

/-- The loop over the requests where the fee of an operation is given by its number. -/
def matchedOps (E : FeeEngine Payload) (env : ExecutionEnv Payload) (frameNumber : Nat) (feeMultiplier : Int) (fee : Nat → Int) :
    List (MessageRequest Payload) → Nat → Bytes → Bool → HypergraphState → BundleOutcome
  | [], _, _, processed, s => .ok (s, .ok processed)
  | op :: ops, i, address, processed, s =>
    if !E.isOwnOp op.kind then E.matchedOps env frameNumber feeMultiplier fee ops (i + 1) address processed s
    else do
      let feeForOp := if (defaultFeeMarket env.quilTokenAddress).consumes op.kind then fee i else 0
      match ← E.processIndividualMessage env frameNumber feeForOp feeMultiplier address op true s with
      | (s', some err) => return (s', .error ("handle bundle: operation " ++ toString i ++ " failed: " ++ err))
      | (s', none) =>
        match E.nextAddress op s.changeset.length s' address with
        | .error err => return (s', .error err)
        | .ok address => E.matchedOps env frameNumber feeMultiplier fee ops (i + 1) address true s'

/-- How many requests take a fee before this one. -/
def feeIndex (env : ExecutionEnv Payload) (requests : List (MessageRequest Payload)) (i : Nat) : Nat :=
  countFeeConsumers (defaultFeeMarket env.quilTokenAddress) (requests.take i)

theorem feeIndex_succ (hop : requests[i]? = some op) : feeIndex env requests (i + 1) =
    feeIndex env requests i + if (defaultFeeMarket env.quilTokenAddress).consumes op.kind then 1 else 0 := by
  rw [feeIndex, take_add_one, hop, toList_some, countFeeConsumers, countP_append, countP_singleton]
  rfl

theorem feeIndex_lt (hop : requests[i]? = some op) (hc : (defaultFeeMarket env.quilTokenAddress).consumes op.kind = true)
    {k : Nat} (hk : i < k) : feeIndex env requests i < feeIndex env requests k := by
  have hle : feeIndex env requests (i + 1) ≤ feeIndex env requests k := ((take_isPrefix_take.mpr (.inl hk)).sublist).countP_le
  rwa [feeIndex_succ hop, if_pos hc] at hle

theorem handleOps_matched (hfs : countFeeConsumers (defaultFeeMarket env.quilTokenAddress) requests ≤ fees.length)
    (hops : requests.drop i = ops) :
    E.handleOps env frameNumber feeMultiplier ops i (fees.drop (feeIndex env requests i)) address processed s =
      E.matchedOps env frameNumber feeMultiplier (fun i => fees.getD (feeIndex env requests i) 0) ops i address processed s := by
  induction ops generalizing i address processed s with
  | nil => rfl
  | cons op ops ih =>
    have hop : requests[i]? = some op := by rw [← head?_drop, hops, head?_cons]
    have ih := fun address processed s => @ih address s (i + 1) processed (by rw [← tail_drop, hops, tail_cons])
    rw [feeIndex_succ hop] at ih
    simp only [handleOps, matchedOps]
    cases hc : (defaultFeeMarket env.quilTokenAddress).consumes op.kind with
    | false =>
      simp only [hc, Bool.false_eq_true, if_false, add_zero] at ih
      simp only [ih, Bool.false_and, Bool.false_eq_true, if_false]
      all_goals rfl
    | true =>
      have hlt : feeIndex env requests i < fees.length := by
        refine (feeIndex_lt hop hc (List.getElem?_eq_some_iff.mp hop).1).trans_le ?_
        rwa [feeIndex, take_length]
      have hget : fees.getD (feeIndex env requests i) 0 = fees[feeIndex env requests i] := by simp [hlt]
      simp only [hc, if_true] at ih
      rw [drop_eq_getElem_cons hlt]
      simp only [popFee, ih, isEmpty_cons, Bool.and_false, Bool.false_eq_true, if_false, if_true, hget]
      all_goals rfl

theorem matchedOps_error {fee : Nat → Int} {e : String}
    (h : E.matchedOps env frameNumber feeMultiplier fee ops i address processed s = .ok (s', .error e)) :
    (∃ rest, e = "handle bundle: operation " ++ rest) ∨ ∃ op n s address, E.nextAddress op n s address = .error e := by
  induction ops generalizing i address processed s with
  | nil => cases h
  | cons op ops ih =>
    simp only [matchedOps] at h
    cases ho : E.isOwnOp op.kind with
    | false =>
      rw [ho] at h
      exact ih h
    | true =>
      rw [ho] at h
      obtain ⟨⟨s₁, _ | err⟩, -, hrs⟩ := bind_eq_ok.mp h
      · dsimp only at hrs
        split at hrs
        next he =>
          cases hrs
          exact .inr ⟨_, _, _, _, he⟩
        · exact ih hrs
      · cases hrs
        exact .inl ⟨toString i ++ (" failed: " ++ err), by simp only [String.append_assoc]⟩

/-- Each operation is given the fee with the number of the operations before it that take one, and there is such a fee. -/
theorem fees_matched_by_position {bundle : MessageBundle Payload}
    (hE : E ∈ [TokenExecutionEngine.engine, HypergraphExecutionEngine.engine, ComputeExecutionEngine.engine])
    (hrq : bundle.requests = requests.map some) :
    let policy := defaultFeeMarket env.quilTokenAddress
    let fees := collectBundleFees policy requests
    sanityCheck fees (countFeeConsumers policy requests) = none →
    E.handleBundle env frameNumber feeMultiplier address (some bundle) s = E.matchedOps env frameNumber feeMultiplier
      (fun i => fees.getD (feeIndex env requests i) 0) requests 0 address false s ∧
    (∀ i op, requests[i]? = some op → policy.consumes op.kind = true → feeIndex env requests i < fees.length ∧
      ∀ k > i, feeIndex env requests i < feeIndex env requests k) ∧
    ∀ s' (i : Nat), E.handleBundle env frameNumber feeMultiplier address (some bundle) s ≠
      .ok (s', .error ("handle bundle: op " ++ toString i ++ " required a fee but none left: fee underflow")) := by
  intro policy fees hfs
  have hle : countFeeConsumers policy requests ≤ fees.length := by
    by_contra hlt
    rw [sanityCheck, if_pos (not_le.mp hlt)] at hfs
    cases hfs
  have hsome : bundle.requests.mapM id = some requests := by
    rw [hrq, mapM_map]
    exact mapM_pure.trans (congrArg some (map_id _))
  have hb : E.handleBundle env frameNumber feeMultiplier address (some bundle) s =
      E.matchedOps env frameNumber feeMultiplier (fun i => fees.getD (feeIndex env requests i) 0) requests 0 address false s := by
    simp only [handleBundle, hsome, policy, fees, hfs]
    exact handleOps_matched (i := 0) hle rfl
  refine ⟨hb, fun i op hop hc => ⟨?_, fun k => feeIndex_lt hop hc⟩, fun s' i h => ?_⟩
  · refine (feeIndex_lt hop hc (List.getElem?_eq_some_iff.mp hop).1).trans_le ?_
    rwa [feeIndex, take_length]
  · obtain ⟨rest, he⟩ | ⟨op, n, s, address, he⟩ := matchedOps_error (hb.symm.trans h)
    · simp [String.ext_iff] at he
    · simp only [mem_cons, not_mem_nil, or_false] at hE
      obtain rfl | rfl | rfl := hE
      · cases he
      · cases he
      · simp only [ComputeExecutionEngine.engine, ComputeExecutionEngine.movingAddress] at he
        split_ifs at he
        simp [String.ext_iff] at he

theorem fees_matched_by_position_remove : HypergraphExecutionEngine.engine.handleBundle sampleExecution 1 1 zeroBytes
      (some ⟨[some feeRequest, some removeRequest, some addRequest], 0⟩) .vacant ≠
    .ok (.vacant, .error ("handle bundle: op " ++ toString 1 ++ " required a fee but none left: fee underflow")) :=
  (fees_matched_by_position (.tail _ (.head _)) (show _ = [feeRequest, removeRequest, addRequest].map some from rfl)
    (by decide)).2.2 _ 1

end FeeEngine

end Quilibrium
