import Quilibrium.Theorems.BlockSafety
import Quilibrium.Theorems.GlobalIntrinsic

/-! What `Collect` of the global engine does to the committed hypergraph: the engines commit an operation at once. -/

namespace Quilibrium
open Except HypergraphState

variable {Payload : Type}

/-- The same atoms in all sets, the same vertex data and change records, and the same size. -/
structure HypergraphCRDT.Agrees (c : Crypto) (hg hg' : HypergraphCRDT) : Prop where
  sets : ∀ B, Sets c hg none B → Sets c hg' none B
  rest : ∀ k, (∀ tree : TreeId, ¬tree.Owns k) → hg'.store.get k = hg.store.get k
  size : hg'.size = hg.size

/-- What was read, and nothing else. -/
structure HypergraphState.OnlyRead (c : Crypto) (s s' : HypergraphState) : Prop where
  untouched : s.Untouched s'
  staged : s.Staged c s'

namespace HypergraphState.OnlyRead

variable {c : Crypto} {s s₁ s' : HypergraphState}

theorem refl : s.OnlyRead c s := ⟨untouched_refl, staged_of_eq rfl rfl⟩

theorem trans (h : s.OnlyRead c s₁) (h' : s₁.OnlyRead c s') : s.OnlyRead c s' :=
  ⟨h.untouched.trans h'.untouched, h.staged.trans h'.staged⟩

theorem getVertex (a b : Address) : s.OnlyRead c { s with hypergraph := (s.hypergraph.getVertex c a b).1 } :=
  ⟨untouched_getVertex a b, List.prefix_rfl, fun h => h.getVertex a b⟩

theorem getVertexData (a b : Address) : s.OnlyRead c { s with hypergraph := (s.hypergraph.getVertexData c a b).1 } := by
  refine ⟨?_, List.prefix_rfl, fun h => (h.getVertexData a b).2⟩
  rw [fst_getVertexData]
  exact untouched_create ..

end HypergraphState.OnlyRead

def Intrinsics.Stages (c : Crypto) (I : Intrinsics Payload) : Prop :=
  ∀ ⦃op s s' err⦄, I.invoke op s = .ok (s', err) → s.Staged c s'

theorem Intrinsics.Stages.step {c : Crypto} {I : Intrinsics Payload} (hI : I.Stages c) {op : Operation Payload}
    {s s' : HypergraphState} {err : Option String} (h : I.step op s = .ok (s', err)) : s.Staged c s' := by
  rw [Intrinsics.step] at h
  split at h
  · cases h
    exact staged_of_eq rfl rfl
  · exact hI h

theorem Outcome.staged_of_untouched {c : Crypto} {fuel : Nat} {o : Outcome} {s s' : HypergraphState} {err : Option String}
    (hs : ∀ s₁ e, o = .ok (s₁, e) → s.Staged c s₁)
    (hgr : ∀ s₁, o = .ok (s₁, none) → s.changeset.length < s₁.changeset.length)
    (h : Outcome.andThen o (fun s => Outcome.wrap "commit" (s.commit c fuel)) = .ok (s', err)) (hu : s.Untouched s') :
    s.Staged c s' := by
  obtain ⟨e, ho, rfl⟩ | ⟨s₁, ho, hcom⟩ := Outcome.andThen_eq_ok h
  · exact hs s' _ ho
  · obtain ⟨err, hc, rfl⟩ := Outcome.wrap_eq_ok.mp hcom
    have hlt := hgr s₁ ho
    rw [← changeset_commit hc] at hlt
    exact absurd hu (not_untouched_of_lt hlt)

/-! ### The global engine -/

namespace GlobalExecutionEngine

variable {env : ExecutionEnv Payload} {frameNumber : Nat} {feeMultiplier : Int} {address : Bytes} {s s' : HypergraphState}

theorem staged_of_untouched (hI : env.global.Stages env.crypto) {op : MessageRequest Payload} {err : Option String}
    (h : processIndividualMessage env frameNumber feeMultiplier address op s = .ok (s', err)) (hu : s.Untouched s') :
    s.Staged env.crypto s' := by
  obtain ⟨err, hr, rfl⟩ := Outcome.wrap_eq_ok.mp h
  split_ifs at hr
  · cases hr
    exact staged_of_eq rfl rfl
  · cases hr
    exact staged_of_eq rfl rfl
  · exact Outcome.staged_of_untouched (fun _ _ hst => hI.step hst)
      (fun _ hst => (Intrinsics.step_account hst).grown rfl) hr hu

theorem handleOps_refused (hI : env.global.Stages env.crypto) {ops : List (Option (MessageRequest Payload))} {processed : Bool}
    {op : MessageRequest Payload} {r : Except String Bool}
    (hfr : ops.reduceOption.find? (fun op => isGlobalOp op.kind) = some op)
    (hr : Refuses env frameNumber feeMultiplier address s op)
    (h : handleOps env frameNumber feeMultiplier address ops processed s = .ok (s', r)) :
    (∃ e, r = .error e) ∧ s.OnlyRead env.crypto s' := by
  induction ops generalizing processed with
  | nil => cases hfr
  | cons o ops ih =>
    cases o with
    | none => cases h
    | some o =>
      rw [handleOps] at h
      rw [List.reduceOption_cons_of_some] at hfr
      split_ifs at h with hfgn
      · rw [List.find?_cons_of_neg (by simpa using hfgn)] at hfr
        exact ih hfr h
      · have ho : isGlobalOp o.kind = true := by simpa using hfgn
        rw [List.find?_cons, ho] at hfr
        cases hfr
        obtain ⟨⟨s₁, err⟩, hop, hrs⟩ := bind_eq_ok.mp h
        have hac := processIndividualMessage_account ho hop
        have hu := hac.untouched.mpr hr
        cases err with
        | some err =>
          cases hrs
          exact ⟨⟨_, rfl⟩, hu, staged_of_untouched hI hop hu⟩
        | none => exact absurd hu (not_untouched_of_lt (hac.grown rfl))

end GlobalExecutionEngine

/-! ### The engines that charge fees -/

namespace FeeEngine

variable {E : FeeEngine Payload} {env : ExecutionEnv Payload} {frameNumber : Nat} {feeMultiplier : Int} {address : Bytes}
  {s s₁ s' : HypergraphState}

variable {fromBundle : Bool} {err : Option String}

theorem onlyRead_checkMode {domain : Bytes}
    (h : checkMode env domain fromBundle s = .ok (s₁, err)) : s.OnlyRead env.crypto s₁ := by
  rw [checkMode] at h
  split_ifs at h with hmd
  · cases h
    exact .refl
  · obtain ⟨a, -, h⟩ := bind_eq_ok.mp h
    obtain ⟨b, -, h⟩ := bind_eq_ok.mp h
    cases h
    exact .getVertex a b

section
variable (hI : (E.intrinsics env).Stages env.crypto)
include hI

theorem performStep_staged {op : Operation Payload} (h : E.performStep env op fromBundle s = .ok (s', err)) :
    s.Staged env.crypto s' ∧ (err = none → s.changeset.length < s'.changeset.length) := by
  obtain ⟨e, hmd, rfl⟩ | ⟨s₁, hmd, hst⟩ := Outcome.andThen_eq_ok h
  · exact ⟨(onlyRead_checkMode hmd).staged, nofun⟩
  · have hrd := onlyRead_checkMode hmd
    refine ⟨hrd.staged.trans (hI.step hst), fun hnn => ?_⟩
    rw [← hrd.untouched.changeset]
    exact (Intrinsics.step_account hst).grown hnn

theorem staged_of_untouched {op : MessageRequest Payload} {feePaid : Int}
    (h : E.processIndividualMessage env frameNumber feePaid feeMultiplier address op fromBundle s = .ok (s', err))
    (hu : s.Untouched s') : s.Staged env.crypto s' := by
  simp only [processIndividualMessage] at h
  split_ifs at h with hfgn hd hb hcm
  · cases h
    exact staged_of_eq rfl rfl
  · exact hI h
  · cases h
    exact staged_of_eq rfl rfl
  · obtain ⟨err, hr, rfl⟩ := Outcome.wrap_eq_ok.mp h
    exact Outcome.staged_of_untouched (fun _ _ hst => (performStep_staged hI hst).1)
      (fun _ hst => (performStep_staged hI hst).2 rfl) hr hu
  · obtain ⟨err, hr, rfl⟩ := Outcome.wrap_eq_ok.mp h
    exact (performStep_staged hI hr).1

theorem handleOps_refused {ops : List (MessageRequest Payload)} {i : Nat} {queue : List Int} {processed : Bool}
    {op : Operation Payload} {r : Except String Bool}
    (hfr : E.firstOperation env frameNumber feeMultiplier address ops queue = some op) (href : E.Refuses env op s)
    (h : E.handleOps env frameNumber feeMultiplier ops i queue address processed s = .ok (s', r)) :
    (∃ e, r = .error e) ∧ s.OnlyRead env.crypto s' := by
  induction ops generalizing i queue with
  | nil => cases hfr
  | cons o ops ih =>
    obtain ⟨ho, hrs⟩ | ⟨ho, hown⟩ := handleOps_cons h
    · rw [firstOperation_cons_foreign ops queue ho] at hfr
      exact ih hfr hrs
    · rw [firstOperation_cons_own ops queue ho] at hfr
      cases hfr
      obtain ⟨-, -, rfl, hr⟩ | ⟨s₁, err, hop, hrs⟩ := hown
      · exact ⟨hr, .refl⟩
      · have hac := processIndividualMessage_account ho hop
        have hu := hac.untouched.mpr href
        obtain ⟨rfl, hr⟩ | ⟨rfl, -⟩ := hrs
        · exact ⟨hr, hu, staged_of_untouched hI hop hu⟩
        · exact absurd hu (not_untouched_of_lt (hac.grown rfl))

theorem handleBundle_refused {bundle : MessageBundle Payload} {r : Except String Bool}
    (hr : E.RefusesBundle env frameNumber feeMultiplier address bundle s)
    (h : E.handleBundle env frameNumber feeMultiplier address (some bundle) s = .ok (s', r)) : (∃ e, r = .error e)
    ∧ s.OnlyRead env.crypto s' := by
  obtain ⟨-, rfl, he⟩ | ⟨hfs, h⟩ := handleBundle_cases h
  · exact ⟨he, .refl⟩
  · obtain ⟨op, hfr, hr⟩ := hr.resolve_left hfs
    exact handleOps_refused hI hfr hr h

end

end FeeEngine

/-! ### Messages -/

section
variable {env : BlockEnv Payload} {frameNumber : Nat} {feeMultiplier : Int} {address : Bytes} {s s' : HypergraphState}
  {engine : EngineName}

/-- A bundle is refused as above; a request on its own fails and has written nothing. -/
def EngineName.RefusesMessage (env : ExecutionEnv Payload) (engine : EngineName) (frameNumber : Nat) (feeMultiplier : Int)
    (address : Bytes) (message : ExecutionMessage Payload) (s : HypergraphState) : Prop :=
  match message with
  | .bundle bundle => engine.RefusesBundle env frameNumber feeMultiplier address bundle s
  | .request (some request) => ∃ s' err,
      engine.handleRequest env frameNumber feeMultiplier address request s = .ok (s', some err) ∧ s.Untouched s'
  | _ => True

/-- The message is left out before it writes: its cost or its engine is not found, or the engine refuses it. -/
def BlockEnv.Rejects (env : BlockEnv Payload) (frameNumber : Nat) (scale : Int) (address : Bytes)
    (message : ExecutionMessage Payload) (s : HypergraphState) : Prop :=
  ∀ costBasis fee s₁ engine, env.getCost message = .ok (.ok costBasis) → env.feeMultiplier s costBasis = .ok fee →
    env.route frameNumber address s = .ok (s₁, .ok engine) →
    engine.RefusesMessage env.execution frameNumber (fee * scale) address message s₁

section
variable (hI : (engine.intrinsics env.execution).Stages env.execution.crypto)
include hI

theorem EngineName.handleBundle_refused {bundle : Option (MessageBundle Payload)} {r : Except String Bool}
    (hr : engine.RefusesBundle env.execution frameNumber feeMultiplier address bundle s)
    (h : engine.handleBundle env.execution frameNumber feeMultiplier address bundle s = .ok (s', r)) :
    (∃ e, r = .error e) ∧ s.OnlyRead env.execution.crypto s' := by
  cases bundle with
  | none => cases engine <;> (cases h; exact ⟨⟨_, rfl⟩, .refl⟩)
  | some bundle =>
    cases engine with
    | global =>
      obtain ⟨op, hfr, hr⟩ := hr
      exact GlobalExecutionEngine.handleOps_refused hI hfr hr h
    | token | hypergraph | compute => exact FeeEngine.handleBundle_refused hI hr h

theorem EngineName.handleRequest_staged {req : MessageRequest Payload} {err : Option String}
    (h : engine.handleRequest env.execution frameNumber feeMultiplier address req s = .ok (s', err))
    (hu : s.Untouched s') : s.Staged env.execution.crypto s' := by
  cases engine with
  | global => exact GlobalExecutionEngine.staged_of_untouched hI h hu
  | token => exact FeeEngine.staged_of_untouched hI h hu
  | hypergraph =>
    cases h
    exact staged_of_eq rfl rfl
  | compute => exact FeeEngine.staged_of_untouched hI h hu

theorem EngineName.processMessage_refused {msg : ExecutionMessage Payload} {r : Except String Bool}
    (hr : engine.RefusesMessage env.execution frameNumber feeMultiplier address msg s)
    (h : engine.processMessage env.execution frameNumber feeMultiplier address msg s = .ok (s', r)) :
    (∃ e, r = .error e) ∧ s.OnlyRead env.execution.crypto s' := by
  cases msg with
  | tooShort | other =>
    cases h
    exact ⟨⟨_, rfl⟩, .refl⟩
  | bundle bundle =>
    obtain ⟨⟨s₁, r₁⟩, hb, hrs⟩ := bind_eq_ok.mp h
    cases hrs
    obtain ⟨⟨e, rfl⟩, hrd⟩ := EngineName.handleBundle_refused hI hr hb
    exact ⟨⟨_, rfl⟩, hrd⟩
  | request req =>
    cases req with
    | none =>
      cases h
      exact ⟨⟨_, rfl⟩, .refl⟩
    | some req =>
      obtain ⟨s₁, err, hrq, hu⟩ := hr
      rw [EngineName.processMessage, hrq, ok_bind] at h
      cases h
      exact ⟨⟨_, rfl⟩, hu, EngineName.handleRequest_staged hI hrq hu⟩

end

theorem BlockEnv.onlyRead_route {r : Except String EngineName} (h : env.route frameNumber address s = .ok (s', r)) :
    s.OnlyRead env.execution.crypto s' := by
  rw [ManagerEnv.route] at h
  by_cases hgl : address = globalIntrinsicAddress
  · rw [if_pos hgl] at h
    cases h
    exact .refl
  · rw [if_neg hgl] at h
    split_ifs at h
    · cases h
      exact .refl
    · cases h
      exact .refl
    · obtain ⟨⟨s₁, domain⟩, hty, hrs⟩ := bind_eq_ok.mp h
      cases hrs
      obtain ⟨a, -, hty⟩ := bind_eq_ok.mp hty
      obtain ⟨b, -, hty⟩ := bind_eq_ok.mp hty
      have hrd := OnlyRead.getVertexData (c := env.execution.crypto) (s := s) a b
      generalize s.hypergraph.getVertexData env.execution.crypto a b = found at hrd hty
      rcases found with ⟨hypergraph, e | tree⟩
      · cases hty
        exact hrd
      · obtain ⟨value, -, hty⟩ := bind_eq_ok.mp hty
        cases hty
        exact hrd

/-! ### The loop -/

variable {scale : Int}

section
variable (hI : ∀ engine : EngineName, (engine.intrinsics env.execution).Stages env.execution.crypto)
include hI

theorem runMessage_rejected {msg : ExecutionMessage Payload} {b b' : BlockState} {r : MessageResult}
    (hst : b.hasState = true) (hrj : env.Rejects frameNumber scale address msg b.state)
    (h : env.runMessage frameNumber scale address msg b = .ok (b', r)) :
    r ≠ .accepted ∧ b'.hasState = true ∧ b.state.OnlyRead env.execution.crypto b'.state := by
  obtain ⟨cost, hcs, h⟩ := bind_eq_ok.mp h
  cases cost with
  | error err =>
    cases h
    exact ⟨nofun, hst, .refl⟩
  | ok cost =>
    obtain ⟨fee, hfee, h⟩ := bind_eq_ok.mp h
    obtain ⟨⟨s₂, r₂⟩, hpr, h⟩ := bind_eq_ok.mp h
    obtain ⟨⟨s₁, route⟩, hrt, hpr⟩ := bind_eq_ok.mp hpr
    have hrd := BlockEnv.onlyRead_route hrt
    cases route with
    | error err =>
      cases hpr
      cases h
      exact ⟨nofun, hst, hrd⟩
    | ok engine =>
      dsimp only at hpr
      rw [hst, if_pos rfl] at hpr
      obtain ⟨⟨e, rfl⟩, hrd'⟩ := EngineName.processMessage_refused (hI engine) (hrj cost fee s₁ engine hcs hfee hrt) hpr
      cases h
      exact ⟨nofun, hst, hrd.trans hrd'⟩

/-- Every message is rejected in the state in which `Collect` takes it up. -/
def RejectsAll (env : BlockEnv Payload) (frameNumber : Nat) (messages : List (Bytes × ExecutionMessage Payload))
    (s : HypergraphState) : Prop :=
  ∀ done message rest run, messages = done ++ message :: rest →
    done.foldlM (env.collectMessage frameNumber 1) (⟨.new s.hypergraph s.heap s.next, true⟩, []) = .ok run →
    env.Rejects frameNumber 1 message.1 message.2 run.1.state

theorem RejectsAll.run {msgs : List (Bytes × ExecutionMessage Payload)}
    {run : BlockState × List (Bytes × ExecutionMessage Payload)} (hrj : RejectsAll env frameNumber msgs s)
    (h : msgs.foldlM (env.collectMessage frameNumber 1) (⟨.new s.hypergraph s.heap s.next, true⟩, []) = .ok run) :
    run.2 = [] ∧ run.1.hasState = true ∧
      (new s.hypergraph s.heap s.next).OnlyRead env.execution.crypto run.1.state := by
  -- from the last message back: what was run before it left the state and accepted nothing
  induction msgs using List.reverseRecOn generalizing run with
  | nil =>
    cases h
    exact ⟨rfl, rfl, .refl⟩
  | append_singleton done msg ih =>
    rw [List.foldlM_append] at h
    obtain ⟨run₁, hdn, hls⟩ := bind_eq_ok.mp h
    obtain ⟨hacd, hst, hrd⟩ := ih (fun before msg' rest run' heq hrun =>
      hrj before msg' (rest ++ [msg]) run' (by rw [heq, List.append_assoc, List.cons_append]) hrun) hdn
    obtain ⟨run₂, hm, hnil⟩ := bind_eq_ok.mp hls
    cases hnil
    obtain ⟨⟨b, r⟩, hrun, hrs⟩ := bind_eq_ok.mp hm
    obtain ⟨hr, hst', hrd'⟩ := runMessage_rejected hI hst (hrj done msg [] run₁ rfl hdn) hrun
    cases r with
    | accepted => exact absurd rfl hr
    | skipped | failed err =>
      cases hrs
      exact ⟨hacd, hst', hrd.trans hrd'⟩

end

theorem HypergraphState.OnlyRead.agrees {c : Crypto} {B : Bindings} {hg : HypergraphCRDT} {fuel : Nat} (hfl : pathLength 64 < fuel)
    (h : s.OnlyRead c s') (hst : Sets c s.hypergraph none B) (hc : s'.hypergraph.commit c fuel = .ok hg) :
    s.hypergraph.Agrees c hg := by
  have hl : ∀ B, Sets c s.hypergraph none B → Leaves c s'.hypergraph none hg none B ∧ hg.size = s'.hypergraph.size := by
    intro B hB
    obtain ⟨hg', hc', hL⟩ := (h.staged.sets hB).commit hfl
    cases hc.symm.trans hc'
    exact hL
  refine ⟨fun B hB => (hl B hB).1.sets, fun k hk => ?_, ?_⟩
  · rw [(hl B hst).1.now k hk, h.untouched.contents.store]
  · rw [(hl B hst).2, h.untouched.contents.size]

theorem materialize_nil {B : Bindings} (hfl : pathLength 64 < env.execution.fuel)
    (hqt : ∀ s n, s.changeset = [] → env.processStateTransition s n = .ok none)
    (hst : Sets env.execution.crypto s.hypergraph none B) :
    ∃ s', GlobalConsensusEngine.materialize env frameNumber [] s = .ok (s', none) := by
  have hst' : Sets env.execution.crypto (s.hypergraph.commitTxn (some [])) none B := hst
  obtain ⟨hg, hc, -⟩ := hst'.commit hfl
  refine ⟨⟨hg, [], s.heap, s.next⟩, ?_⟩
  simp only [GlobalConsensusEngine.materialize, BlockEnv.materialize, BlockEnv.materializeRequests, ok_bind,
    BlockEnv.finish, Bool.not_true, Bool.false_eq_true, if_false, commit, new, List.map_nil,
    MaterializedState.commitAll, hc, hqt ⟨s.hypergraph, [], s.heap, s.next⟩ frameNumber rfl]
  rfl

end

/-! ### A pause that is collected -/

theorem Intrinsics.stages_refusing (c : Crypto) : (Intrinsics.refusing : Intrinsics Payload).Stages c := by
  intro op s s' err h
  cases h
  exact staged_of_eq rfl rfl

theorem GlobalIntrinsic.stages_intrinsics (g : GlobalIntrinsic) {rest : Intrinsics ProverRequest} (hrs : rest.Stages g.crypto) :
    (g.intrinsics rest).Stages g.crypto := by
  intro op s s' err h
  rw [intrinsics] at h
  dsimp only at h
  split at h
  · exact hrs h
  · exact (g.staged_invokeStep _ _ _ h).1

def sampleGlobalIntrinsic : GlobalIntrinsic where
  crypto := Crypto.plain
  typeHash _ := .ok [7]
  allocationAddress _ _ := .ok .zero
  validateSignature _ _ _ _ := .ok true

/-- A node that pauses and resumes provers and refuses everything else. -/
def pausingBlocks : BlockEnv ProverRequest where
  execution := ⟨Crypto.plain, treeFuel, false, [1], sampleGlobalIntrinsic.intrinsics .refusing, .refusing, .refusing, .refusing⟩
  network := 1
  includeGlobal := true
  computeDomain := [2]
  hypergraphDomain := [3]
  tokenDomain := [4]
  engineCost _ := .ok (.ok 64)
  pomw _ _ _ := 1
  withoutState _ _ _ _ _ s := .ok (s, .ok false)
  difficulty := 1
  processStateTransition _ _ := .ok none
  collectCommitments _ := none
  validate _ := none
  requestsRoot _ := none

def pauseBundle : MessageBundle ProverRequest :=
  ⟨[some ⟨.pause, [], [], ⟨[], 1, Address.zero.bytes, []⟩⟩, some ⟨.vertexRemove, [], [], ⟨[], 0, [], []⟩⟩], 1⟩

open HypergraphState in
/-- A committed hypergraph with a prover and its active allocation in one vertex. -/
def withProver : Except Fault HypergraphState := do
  let (tree, _) ← sampleGlobalIntrinsic.rdfSet .publicKey [9] ⟨.nil⟩
  let (tree, _) ← sampleGlobalIntrinsic.rdfSet .allocationStatus [1] tree
  let s ← HypergraphState.calls Crypto.plain (.new (.new OrdMap.empty []) (fun _ => tree) 1)
    [.set globalIntrinsicAddress zeroBytes .vertexAdds (.vertexAdd (copy32 globalIntrinsicAddress) .zero 1 none 0)]
  let (s, _) ← s.commit Crypto.plain treeFuel
  return .new s.hypergraph s.heap s.next

end Quilibrium
