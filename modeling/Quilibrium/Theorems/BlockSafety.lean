import Quilibrium.Consensus.Blocks
import Quilibrium.Theorems.Bundles

/-! When the processing of a block returns. The loops divide by costs and by the size of the world, and a bundle without
    an operation for its engine takes the state away. -/

namespace Quilibrium
open Except List HypergraphState

variable {Payload : Type}

namespace EngineName

def intrinsics (env : ExecutionEnv Payload) : EngineName → Intrinsics Payload
  | .global => env.global
  | .token => env.token
  | .hypergraph => env.hypergraph
  | .compute => env.compute

def isOwnOp : EngineName → RequestKind → Bool
  | .global => GlobalExecutionEngine.isGlobalOp
  | .token => TokenExecutionEngine.isTokenOp
  | .hypergraph => HypergraphExecutionEngine.isHypergraphOp
  | .compute => ComputeExecutionEngine.isComputeOp

end EngineName

/-- What the loops call returns, for sound states and benign requests. -/
structure Returns (env : BlockEnv Payload) (Sound : HypergraphState → Prop) (Benign : MessageRequest Payload → Prop) : Prop where
  engineCost : ∀ {request}, Benign request → ∃ cost, env.engineCost request = .ok cost
  domain : ∀ {request}, Benign request → request.kind.paysFees = true → 32 ≤ request.domain.length
  invoke : ∀ (engine : EngineName) {op s}, Benign op.request → Sound s →
    ∃ s' err, (engine.intrinsics env.execution).invoke op s = .ok (s', err) ∧ Sound s'
  changes : ∀ {s}, Sound s → ∀ change ∈ s.changeset, 32 ≤ change.domain.length
  getVertex : ∀ {s} a b, Sound s → Sound { s with hypergraph := (s.hypergraph.getVertex env.execution.crypto a b).1 }
  getVertexData : ∀ {s} a b, Sound s → Sound { s with hypergraph := (s.hypergraph.getVertexData env.execution.crypto a b).1 }
  typeDomain : ∀ {s a b tree}, Sound s → (s.hypergraph.getVertexData env.execution.crypto a b).2 = .ok tree →
    ∃ domain, tree.get (List.replicate 32 0xff) = .ok domain
  commit : ∀ {s}, Sound s → ∃ s' err, s.commit env.execution.crypto env.execution.fuel = .ok (s', err) ∧ Sound s'
  commitSets : ∀ {s}, Sound s → ∃ hg, s.hypergraph.commit env.execution.crypto env.execution.fuel = .ok hg
  transition : ∀ {s} frameNumber, Sound s → ∃ err, env.processStateTransition s frameNumber = .ok err

/-- A bundle that a loop may take up in this state. -/
structure Safe (env : BlockEnv Payload) (Benign : MessageRequest Payload → Prop) (frameNumber : Nat) (address : Bytes)
    (bundle : MessageBundle Payload) (s : HypergraphState) : Prop where
  length_address : 32 ≤ address.length
  requests : ∀ r ∈ bundle.requests, ∃ op, r = some op ∧ Benign op
  /-- The cost is not 0, and neither is the size of the world before or after, as 64 bits. -/
  cost : ∀ cost, env.getCost (.bundle (some bundle)) = .ok (.ok cost) →
    cost ≠ 0 ∧ uint64 s.hypergraph.getSize ≠ 0 ∧ (uint64 s.hypergraph.getSize + uint64 cost) % 2 ^ 64 ≠ 0
  own : ∀ s' engine, env.route frameNumber address s = .ok (s', .ok engine) →
    ∃ op ∈ bundle.requests.reduceOption, engine.isOwnOp op.kind = true

section
variable {env : BlockEnv Payload} {Sound : HypergraphState → Prop} {Benign : MessageRequest Payload → Prop}
  {frameNumber : Nat} {feeMultiplier : Int} {address : Bytes} {s : HypergraphState}

/-! ### Costs and fees -/

theorem quo_returns (x : Int) {y : Int} (h : y ≠ 0) : ∃ q, quo x y = .ok q := ⟨x.tdiv y, if_neg h⟩

theorem int64_ne_zero {n : Nat} (h : n ≠ 0) (hn : n < 2 ^ 64) : int64 n ≠ 0 := by
  intro hzr
  have hofNat : BitVec.ofNat 64 n = 0#64 := BitVec.eq_of_toInt_eq (hzr.trans BitVec.toInt_zero.symm)
  have := congrArg BitVec.toNat hofNat
  rw [BitVec.toNat_ofNat, BitVec.toNat_ofNat, Nat.mod_eq_of_lt hn] at this
  exact h this

theorem pomwBasis_returns (env : BlockEnv Payload) {world : Nat} (units : Nat) (h : world ≠ 0) :
    ∃ basis, env.pomwBasis env.difficulty world units = .ok basis := ⟨_, if_neg h⟩

theorem feeMultiplier_returns (env : BlockEnv Payload) {cost : Int} (hcs : cost ≠ 0) (hwr : uint64 s.hypergraph.getSize ≠ 0)
    (hs : (uint64 s.hypergraph.getSize + uint64 cost) % 2 ^ 64 ≠ 0) : ∃ fee, env.feeMultiplier s cost = .ok fee := by
  obtain ⟨current, hc⟩ := pomwBasis_returns env 8000000000 hwr
  obtain ⟨affected, haff⟩ := pomwBasis_returns env 8000000000 hs
  obtain ⟨lhs, hl⟩ := quo_returns ((current - affected) ^ 2) (int64_ne_zero hwr (Nat.mod_lt _ (Nat.two_pow_pos 64)))
  rw [BlockEnv.feeMultiplier, ManagerEnv.getBaselineFee, hc, ok_bind, haff, ok_bind, hl]
  exact quo_returns _ hcs

theorem Returns.sumCosts (h : Returns env Sound Benign) {reqs : List (Option (MessageRequest Payload))}
    (hrq : ∀ r ∈ reqs, ∃ op, r = some op ∧ Benign op) (sum : Int) :
    ∃ cost, env.sumCosts reqs sum = .ok cost := by
  induction reqs generalizing sum with
  | nil => exact ⟨_, rfl⟩
  | cons r reqs ih =>
    obtain ⟨op, rfl, hop⟩ := hrq r mem_cons_self
    have ho : ∃ cost, env.getRequestCost (some op) = .ok cost := by
      rw [ManagerEnv.getRequestCost]
      split_ifs
      · exact ⟨_, rfl⟩
      · exact h.engineCost hop
    obtain ⟨cost, hcs⟩ := ho
    rw [ManagerEnv.sumCosts, hcs, ok_bind]
    cases cost with
    | error err => exact ⟨_, rfl⟩
    | ok cost => exact ih (fun r hr => hrq r (mem_cons_of_mem _ hr)) _

/-! ### Operations -/

def Outcome.Yields (Sound : HypergraphState → Prop) (o : Outcome) : Prop := ∃ s' err, o = .ok (s', err) ∧ Sound s'

theorem Outcome.Yields.wrap {o : Outcome} (h : o.Yields Sound) (msg : String) : (Outcome.wrap msg o).Yields Sound := by
  obtain ⟨s', err, rfl, hs'⟩ := h
  exact ⟨s', _, rfl, hs'⟩

theorem Outcome.Yields.andThen {o : Outcome} {next : HypergraphState → Outcome} (h : o.Yields Sound)
    (hnx : ∀ s, Sound s → (next s).Yields Sound) : (Outcome.andThen o next).Yields Sound := by
  obtain ⟨s', _ | err, rfl, hs'⟩ := h
  · exact hnx s' hs'
  · exact ⟨s', some err, rfl, hs'⟩

section
variable (h : Returns env Sound Benign)
include h

theorem Returns.step (engine : EngineName) {op : Operation Payload} (hop : Benign op.request) (hs : Sound s) :
    ((engine.intrinsics env.execution).step op s).Yields Sound := by
  rw [Intrinsics.step]
  split
  · exact ⟨s, _, rfl, hs⟩
  · exact h.invoke engine hop hs

theorem Returns.processGlobal {op : MessageRequest Payload} (hop : Benign op) (hs : Sound s) :
    (GlobalExecutionEngine.processIndividualMessage env.execution frameNumber feeMultiplier address op s).Yields Sound := by
  apply Outcome.Yields.wrap
  split_ifs
  · exact ⟨s, _, rfl, hs⟩
  · exact ⟨s, _, rfl, hs⟩
  · exact (h.step .global hop hs).andThen fun s hs => Outcome.Yields.wrap (h.commit hs) _

/-- The bundle returns a sound state, and success means that one of its operations was for the engine, if some
    request is. -/
def BundleOutcome.Yields (Sound : HypergraphState → Prop) (own : Bool) (o : BundleOutcome) : Prop :=
  ∃ s' r, o = .ok (s', r) ∧ Sound s' ∧ ∀ b, r = .ok b → own = true → b = true

theorem Returns.handleOpsGlobal {ops : List (Option (MessageRequest Payload))}
    (hops : ∀ r ∈ ops, ∃ op, r = some op ∧ Benign op) (processed : Bool) (hs : Sound s) :
    BundleOutcome.Yields Sound (processed || ops.reduceOption.any fun op => GlobalExecutionEngine.isGlobalOp op.kind)
      (GlobalExecutionEngine.handleOps env.execution frameNumber feeMultiplier address ops processed s) := by
  induction ops generalizing processed s with
  | nil => exact ⟨s, .ok processed, rfl, hs, fun b hb ho => by cases hb; simpa using ho⟩
  | cons r ops ih =>
    obtain ⟨op, rfl, hop⟩ := hops r mem_cons_self
    have hrs : ∀ r ∈ ops, ∃ op, r = some op ∧ Benign op := fun r hr => hops r (mem_cons_of_mem _ hr)
    rw [GlobalExecutionEngine.handleOps, reduceOption_cons_of_some, any_cons]
    split_ifs with hfgn
    · rw [Bool.not_eq_true'] at hfgn
      rw [hfgn, Bool.false_or]
      exact ih hrs processed hs
    · obtain ⟨s', _ | err, hrun, hs'⟩ := h.processGlobal hop hs
      · rw [hrun, ok_bind]
        obtain ⟨s'', r, hr, hs'', ho⟩ := ih hrs true hs'
        exact ⟨s'', r, hr, hs'', fun b hb _ => ho b hb rfl⟩
      · rw [hrun, ok_bind]
        exact ⟨s', _, rfl, hs', fun _ hb => by cases hb⟩

end

/-! ### The engines that charge fees -/

/-- The address from which the operations of a bundle start, and those they move to. -/
structure FeeEngine.Moves (E : FeeEngine Payload) (Sound : HypergraphState → Prop) : Prop where
  domain : ∀ {address : Bytes} {op : MessageRequest Payload}, 32 ≤ address.length →
    (op.kind.paysFees = true → 32 ≤ op.domain.length) → 32 ≤ (E.domain address op).length
  nextAddress : ∀ {op n s} {address address' : Bytes}, Sound s → 32 ≤ address.length → E.nextAddress op n s address = .ok address' →
    32 ≤ address'.length

theorem toAddress_returns {domain : Bytes} (h : 32 ≤ domain.length) :
    ∃ a b, HypergraphCRDT.toAddress (domain ++ replicate 32 0xff) = .ok a ∧
      HypergraphCRDT.toAddress ((domain ++ replicate 32 0xff).drop 32) = .ok b := by
  have hl : (domain ++ replicate 32 (0xff : UInt8)).length = domain.length + 32 := by
    rw [length_append, length_replicate]
  exact ⟨_, _, dif_pos (by omega), dif_pos (by rw [length_drop]; omega)⟩

theorem Returns.checkMode (h : Returns env Sound Benign) {domain : Bytes} (hd : 32 ≤ domain.length) (fromBundle : Bool)
    (hs : Sound s) : (FeeEngine.checkMode env.execution domain fromBundle s).Yields Sound := by
  obtain ⟨a, b, ha, hb⟩ := toAddress_returns hd
  rw [FeeEngine.checkMode]
  split_ifs
  · exact ⟨s, none, rfl, hs⟩
  · simp only [ha, hb, ok_bind]
    exact ⟨_, _, rfl, h.getVertex a b hs⟩

variable {E : FeeEngine Payload} {engine : EngineName} {scale : Int} {bundle : MessageBundle Payload}

section
variable (h : Returns env Sound Benign) (hE : E.Moves Sound)
  (heng : E.intrinsics env.execution = engine.intrinsics env.execution) (hadr : 32 ≤ address.length)
include h hE heng hadr

theorem Returns.processFee {op : MessageRequest Payload} (hop : Benign op) (feePaid : Int) (fromBundle : Bool) (hs : Sound s) :
    (E.processIndividualMessage env.execution frameNumber feePaid feeMultiplier address op fromBundle s).Yields Sound := by
  have hst : ∀ op' : Operation Payload, op'.request = op → op'.address = E.domain address op →
      (E.performStep env.execution op' fromBundle s).Yields Sound := by
    intro op' hrq hadr'
    refine Outcome.Yields.andThen (h.checkMode ?_ fromBundle hs) fun s hs => ?_
    · rw [hadr']
      exact hE.domain hadr (h.domain hop)
    · rw [heng]
      exact h.step engine (hrq ▸ hop) hs
  simp only [FeeEngine.processIndividualMessage]
  split_ifs
  · exact ⟨s, _, rfl, hs⟩
  · rw [heng]
    exact h.invoke engine hop hs
  · exact ⟨s, _, rfl, hs⟩
  · exact ((hst _ rfl rfl).andThen fun s hs => Outcome.Yields.wrap (h.commit hs) _).wrap _
  · exact (hst _ rfl rfl).wrap _

theorem Returns.handleOpsFee {ops : List (MessageRequest Payload)} (hops : ∀ op ∈ ops, Benign op) (i : Nat)
    (queue : List Int) (processed : Bool) (hs : Sound s) : BundleOutcome.Yields Sound (processed || ops.any fun op => E.isOwnOp op.kind)
      (E.handleOps env.execution frameNumber feeMultiplier ops i queue address processed s) := by
  induction ops generalizing i queue address processed s with
  | nil => exact ⟨s, .ok processed, rfl, hs, fun b hb ho => by cases hb; simpa using ho⟩
  | cons op ops ih =>
    have hrs : ∀ op ∈ ops, Benign op := fun op hop => hops op (mem_cons_of_mem _ hop)
    rw [any_cons]
    cases ho : E.isOwnOp op.kind with
    | false =>
      simp only [FeeEngine.handleOps, ho, Bool.not_false, if_true, Bool.false_or]
      exact ih hadr hrs _ _ processed hs
    | true =>
      simp only [FeeEngine.handleOps, ho, Bool.not_true, Bool.false_eq_true, if_false]
      generalize (if (defaultFeeMarket env.execution.quilTokenAddress).consumes op.kind = true then popFee queue
        else (0, queue)) = paid
      split_ifs
      · exact ⟨s, .error _, rfl, hs, fun _ hb => by cases hb⟩
      · obtain ⟨s', _ | err, hrun, hs'⟩ := h.processFee hE heng hadr (hops op mem_cons_self) paid.1 true hs
        · rw [hrun, ok_bind]
          dsimp only
          cases hnx : E.nextAddress op s.changeset.length s' address with
          | error err => exact ⟨s', .error err, rfl, hs', fun _ hb => by cases hb⟩
          | ok address' =>
            obtain ⟨s'', r, hr, hs'', hpro⟩ := ih (hE.nextAddress hs' hadr hnx) hrs (i + 1) paid.2 true hs'
            exact ⟨s'', r, hr, hs'', fun b hb _ => hpro b hb rfl⟩
        · rw [hrun, ok_bind]
          exact ⟨s', .error _, rfl, hs', fun _ hb => by cases hb⟩

theorem Returns.handleBundleFee (hrq : ∀ r ∈ bundle.requests, ∃ op, r = some op ∧ Benign op) (hs : Sound s) :
    BundleOutcome.Yields Sound (bundle.requests.reduceOption.any fun op => E.isOwnOp op.kind)
      (E.handleBundle env.execution frameNumber feeMultiplier address (some bundle) s) := by
  have hm := FeeEngine.mapM_id_of_some fun r hr => (hrq r hr).imp fun _ => And.left
  have ho : ∀ op ∈ bundle.requests.reduceOption, Benign op := by
    intro op hop
    obtain ⟨op', heq, hop'⟩ := hrq _ (reduceOption_mem_iff.mp hop)
    cases heq
    exact hop'
  simp only [FeeEngine.handleBundle, hm, sanityCheck]
  split_ifs
  · exact ⟨s, .error _, rfl, hs, fun _ hb => by cases hb⟩
  · exact h.handleOpsFee hE heng hadr ho _ _ false hs

end

theorem Returns.moves_token : (TokenExecutionEngine.engine : FeeEngine Payload).Moves Sound where
  domain hadr hdom := by
    rw [TokenExecutionEngine.engine]
    dsimp only
    split_ifs with hpy
    · exact hdom hpy
    · exact hadr
  nextAddress _ hadr hnx := by
    cases hnx
    exact hadr

theorem Returns.moves_hypergraph : (HypergraphExecutionEngine.engine : FeeEngine Payload).Moves Sound where
  domain hadr _ := hadr
  nextAddress _ hadr hnx := by
    cases hnx
    exact hadr

section
variable (h : Returns env Sound Benign)
include h

theorem Returns.moves_compute : (ComputeExecutionEngine.engine : FeeEngine Payload).Moves Sound where
  domain hadr _ := hadr
  nextAddress {op n s address address'} hs hadr hnx := by
    simp only [ComputeExecutionEngine.engine, ComputeExecutionEngine.movingAddress] at hnx
    split_ifs at hnx
    · cases hnx
      exact hadr
    · cases hnx
      cases hls : s.changeset.getLast? with
      | none => exact hadr
      | some change => exact h.changes hs change (mem_of_getLast? hls)

/-! ### Bundles and messages -/

theorem Returns.handleBundle (engine : EngineName) (frameNumber : Nat) (feeMultiplier : Int) (hrq : ∀ r ∈ bundle.requests, ∃ op, r = some op ∧ Benign op) (hadr : 32 ≤ address.length) (hs : Sound s) :
    BundleOutcome.Yields Sound (bundle.requests.reduceOption.any fun op => engine.isOwnOp op.kind)
      (engine.handleBundle env.execution frameNumber feeMultiplier address (some bundle) s) := by
  cases engine with
  | global => exact h.handleOpsGlobal hrq false hs
  | token => exact h.handleBundleFee moves_token (show _ = EngineName.token.intrinsics _ from rfl) hadr hrq hs
  | hypergraph => exact h.handleBundleFee moves_hypergraph (show _ = EngineName.hypergraph.intrinsics _ from rfl) hadr hrq hs
  | compute => exact h.handleBundleFee h.moves_compute (show _ = EngineName.compute.intrinsics _ from rfl) hadr hrq hs

theorem Returns.readTypeDomain (hadr : 32 ≤ address.length) (hs : Sound s) :
    ∃ s' r, env.typeDomain address s = .ok (s', r) ∧ Sound s' := by
  obtain ⟨a, b, ha, hb⟩ := toAddress_returns hadr
  simp only [ManagerEnv.typeDomain, ha, hb, ok_bind]
  have hrd := h.getVertexData a b hs
  rcases hdt : s.hypergraph.getVertexData env.execution.crypto a b with ⟨hypergraph, err | tree⟩
  · rw [hdt] at hrd
    exact ⟨_, _, rfl, hrd⟩
  · rw [hdt] at hrd
    obtain ⟨domain, hd⟩ := h.typeDomain hs (congrArg Prod.snd hdt)
    dsimp only
    rw [hd, ok_bind]
    exact ⟨_, _, rfl, hrd⟩

theorem Returns.route (frameNumber : Nat) (hadr : 32 ≤ address.length) (hs : Sound s) :
    ∃ s' r, env.route frameNumber address s = .ok (s', r) ∧ Sound s' := by
  rw [ManagerEnv.route]
  by_cases hgl : address = globalIntrinsicAddress
  · exact ⟨s, _, if_pos hgl, hs⟩
  · rw [if_neg hgl]
    split_ifs
    · exact ⟨s, _, rfl, hs⟩
    · exact ⟨s, _, rfl, hs⟩
    · obtain ⟨s', r, hr, hs'⟩ := h.readTypeDomain hadr hs
      rw [hr, ok_bind]
      exact ⟨s', _, rfl, hs'⟩

theorem Returns.runMessage (scale : Int) {b : BlockState} (hsf : Safe env Benign frameNumber address bundle b.state)
    (hs : Sound b.state) (hst : b.hasState = true) :
    ∃ b' r, env.runMessage frameNumber scale address (.bundle (some bundle)) b = .ok (b', r) ∧ Sound b'.state ∧
      b'.hasState = true := by
  obtain ⟨cost, hcs⟩ : ∃ cost, env.getCost (.bundle (some bundle)) = .ok cost := h.sumCosts hsf.requests 0
  rw [BlockEnv.runMessage, hcs, ok_bind]
  cases cost with
  | error err => exact ⟨b, .skipped, rfl, hs, hst⟩
  | ok cost =>
    obtain ⟨hne, hwr, hsum⟩ := hsf.cost cost hcs
    obtain ⟨fee, hfee⟩ := feeMultiplier_returns env hne hwr hsum
    dsimp only
    rw [hfee, ok_bind, ManagerEnv.processMessage]
    obtain ⟨s₁, route, hrt, hs₁⟩ := h.route frameNumber hsf.length_address hs
    rw [hrt, ok_bind]
    cases route with
    | error err => exact ⟨_, _, rfl, hs₁, hst⟩
    | ok engine =>
      rw [hst]
      obtain ⟨s₂, r, hr, hs₂, ho⟩ :=
        h.handleBundle engine frameNumber (fee * scale) hsf.requests hsf.length_address hs₁
      simp only [if_true, EngineName.processMessage, hr, ok_bind]
      cases r with
      | error err => exact ⟨_, _, rfl, hs₂, rfl⟩
      | ok processed =>
        refine ⟨_, _, rfl, hs₂, ?_⟩
        exact ho processed rfl (any_eq_true.mpr (hsf.own s₁ engine hrt))

/-! ### Blocks -/

def CollectsSafely (env : BlockEnv Payload) (Benign : MessageRequest Payload → Prop) (frameNumber : Nat) (scale : Int)
    (messages : List (Bytes × ExecutionMessage Payload)) (s : HypergraphState) : Prop :=
  ∀ done message rest run, messages = done ++ message :: rest →
    done.foldlM (env.collectMessage frameNumber scale) (⟨.new s.hypergraph s.heap s.next, true⟩, []) = .ok run →
    ∃ bundle, message.2 = .bundle (some bundle) ∧ Safe env Benign frameNumber message.1 bundle run.1.state

def MaterializesSafely (env : BlockEnv Payload) (Benign : MessageRequest Payload → Prop) (frameNumber : Nat) (scale : Int)
    (address : Bytes) (requests : List (MessageBundle Payload)) (s : HypergraphState) : Prop :=
  ∀ done bundle rest b, requests = done ++ bundle :: rest →
    env.materializeRequests frameNumber scale address done ⟨.new s.hypergraph s.heap s.next, true⟩ = .ok (b, none) →
    Safe env Benign frameNumber address bundle b.state

theorem Returns.collectMessages {msgs : List (Bytes × ExecutionMessage Payload)}
    (hsf : CollectsSafely env Benign frameNumber scale msgs s) (hs : Sound (.new s.hypergraph s.heap s.next)) :
    ∃ run, msgs.foldlM (env.collectMessage frameNumber scale) (⟨.new s.hypergraph s.heap s.next, true⟩, []) = .ok run ∧
      Sound run.1.state := by
  -- the messages that were passed led to this state, which is sound and there
  obtain ⟨run, hrun, -, hsn, -⟩ := foldlM_ok_of_inv
    (fun done run => done.foldlM (env.collectMessage frameNumber scale) (⟨.new s.hypergraph s.heap s.next, true⟩, []) = .ok run ∧
      Sound run.1.state ∧ run.1.hasState = true)
    ⟨rfl, hs, rfl⟩ fun done msg rest run hms hinv => by
      obtain ⟨hdn, hsn, hst⟩ := hinv
      obtain ⟨bundle, hbun, hsf⟩ := hsf done msg rest run hms hdn
      obtain ⟨b, r, hr, hb, hst'⟩ := h.runMessage scale hsf hsn hst
      have ho : ∃ accepted, env.collectMessage frameNumber scale run msg = .ok (b, accepted) := by
        rw [BlockEnv.collectMessage, hbun, hr, ok_bind]
        cases r <;> exact ⟨_, rfl⟩
      obtain ⟨accepted, ho⟩ := ho
      refine ⟨(b, accepted), ho, ?_, hb, hst'⟩
      rw [foldlM_append, hdn, ok_bind, foldlM_cons, ho]
      rfl
  exact ⟨run, hrun, hsn⟩

end

theorem materializeRequests_append {done : List (MessageBundle Payload)} {b b' : BlockState}
    (rest : List (MessageBundle Payload)) (h : env.materializeRequests frameNumber scale address done b = .ok (b', none)) :
    env.materializeRequests frameNumber scale address (done ++ rest) b =
      env.materializeRequests frameNumber scale address rest b' := by
  induction done generalizing b with
  | nil =>
    cases h
    rfl
  | cons req done ih =>
    obtain ⟨⟨b₁, r⟩, hr, hrs⟩ := bind_eq_ok.mp h
    rw [cons_append, BlockEnv.materializeRequests, hr, ok_bind]
    cases r with
    | failed err => cases hrs
    | skipped => exact ih hrs
    | accepted => exact ih hrs

theorem Returns.materializeRequests (h : Returns env Sound Benign) {reqs : List (MessageBundle Payload)}
    (hsf : MaterializesSafely env Benign frameNumber scale address reqs s)
    (hs : Sound (.new s.hypergraph s.heap s.next)) :
    ∃ b err, env.materializeRequests frameNumber scale address reqs ⟨.new s.hypergraph s.heap s.next, true⟩ =
      .ok (b, err) ∧ Sound b.state ∧ b.hasState = true := by
  have from_here : ∀ rest done b, reqs = done ++ rest → Sound b.state → b.hasState = true →
      env.materializeRequests frameNumber scale address done ⟨.new s.hypergraph s.heap s.next, true⟩ = .ok (b, none) →
      ∃ b' err, env.materializeRequests frameNumber scale address rest b = .ok (b', err) ∧ Sound b'.state ∧
        b'.hasState = true := by
    intro rest
    induction rest with
    | nil => exact fun done b _ hb hst _ => ⟨b, none, rfl, hb, hst⟩
    | cons bundle rest ih =>
      intro done b hrq hb hst hdn
      obtain ⟨b₁, r, hr, hb₁, hst₁⟩ := h.runMessage scale (hsf done bundle rest b hrq hdn) hb hst
      rw [BlockEnv.materializeRequests, hr, ok_bind]
      have ho : ∀ b', env.materializeRequests frameNumber scale address [bundle] b = .ok (b', none) →
          env.materializeRequests frameNumber scale address (done ++ [bundle]) ⟨.new s.hypergraph s.heap s.next, true⟩ =
            .ok (b', none) := fun b' hb' => (materializeRequests_append [bundle] hdn).trans hb'
      have hnx := ih (done ++ [bundle]) b₁ (hrq.trans (append_cons done bundle rest)) hb₁ hst₁
      cases r with
      | failed err => exact ⟨b₁, _, rfl, hb₁, hst₁⟩
      | skipped | accepted => exact hnx (ho b₁ (by rw [BlockEnv.materializeRequests, hr]; rfl))
  exact from_here reqs [] _ rfl hs rfl rfl

theorem Returns.materialize (h : Returns env Sound Benign) {reqs : List (MessageBundle Payload)}
    (hsf : MaterializesSafely env Benign frameNumber scale address reqs s)
    (hs : Sound (.new s.hypergraph s.heap s.next)) : ∃ r, env.materialize frameNumber scale address reqs s = .ok r := by
  obtain ⟨b, err, hr, hb, hst⟩ := h.materializeRequests hsf hs
  rw [BlockEnv.materialize, hr, ok_bind]
  cases err with
  | some err => exact ⟨_, rfl⟩
  | none =>
    obtain ⟨err, ht⟩ := h.transition frameNumber hb
    simp only [BlockEnv.finish, hst, Bool.not_true, Bool.false_eq_true, if_false, ht, ok_bind]
    cases err with
    | some err => exact ⟨_, rfl⟩
    | none =>
      obtain ⟨s', err, hc, -⟩ := h.commit hb
      exact ⟨_, by rw [hc]; rfl⟩

end

/-! ### A block of a node whose intrinsics refuse everything -/

def sampleBlocks : BlockEnv Unit where
  execution := ⟨Crypto.plain, treeFuel, false, [1], .refusing, .refusing, .refusing, .refusing⟩
  network := 1
  includeGlobal := true
  computeDomain := [2]
  hypergraphDomain := [3]
  tokenDomain := [4]
  engineCost _ := .ok (.ok 64)
  pomw _ _ _ := 1
  withoutState _ _ _ _ _ s := .ok (s, .ok false)
  difficulty := 1
  processStateTransition _ _ := .ok none
  collectCommitments _ := none
  validate _ := none
  requestsRoot _ := none

def sampleWorld : HypergraphState := .new { HypergraphCRDT.new OrdMap.empty [] with size := 1 } (fun _ => ⟨.nil⟩) 0

/-- No change is pending, and there is no vertex data. -/
def Idle (s : HypergraphState) : Prop :=
  s.changeset = [] ∧ (∃ B, Sets Crypto.plain s.hypergraph none B) ∧
    ∀ id, s.hypergraph.store.get (hypergraphVertexDataKey id) = none

theorem idle_sampleWorld : Idle sampleWorld := by
  have hst := sets_new Crypto.plain []
  exact ⟨rfl, ⟨_, hst.stores, hst.named, hst.typed, hst.covered, hst.listed, hst.nodup⟩, fun _ => rfl⟩

theorem idle_commit {s : HypergraphState} (h : Idle s) :
    ∃ s' err, s.commit Crypto.plain treeFuel = .ok (s', err) ∧ Idle s' := by
  obtain ⟨hcs, ⟨B, hst⟩, hdt⟩ := h
  have hst' : Sets Crypto.plain (s.hypergraph.commitTxn (some [])) none B := hst
  obtain ⟨hg, hc, hL, -⟩ := hst'.commit lt_treeFuel
  refine ⟨{ s with hypergraph := hg }, none, ?_, hcs, ⟨B, hL.sets⟩, fun id => ?_⟩
  · rw [commit, hcs]
    simp [MaterializedState.commitAll, hc]
  · exact (hL.now _ fun tree => not_owns_vertexDataKey tree id).trans (hdt id)

theorem returns_sampleBlocks : Returns sampleBlocks Idle fun req => 32 ≤ req.domain.length where
  engineCost _ := ⟨_, rfl⟩
  domain h _ := h
  invoke engine {op s} _ hs := ⟨s, some "refused", by cases engine <;> rfl, hs⟩
  changes hs change hm := by
    rw [hs.1] at hm
    cases hm
  getVertex {s} a b hs := by
    obtain ⟨hcs, ⟨B, hst⟩, hdt⟩ := hs
    refine ⟨hcs, ⟨B, hst.getVertex a b⟩, ?_⟩
    rw [fst_getVertex]
    exact hdt
  getVertexData {s} a b hs := by
    obtain ⟨hcs, ⟨B, hst⟩, hdt⟩ := hs
    refine ⟨hcs, ⟨B, (hst.getVertexData a b).2⟩, ?_⟩
    rw [fst_getVertexData]
    exact hdt
  typeDomain {s a b tree} hs htr := by
    obtain ⟨-, ⟨B, hst⟩, hdt⟩ := hs
    have hnn : loadVertexTree s.hypergraph.store (atomId a b) ≠ .ok tree := by
      rw [loadVertexTree, hdt]
      intro heq
      cases heq
    have hrd := (hst.getVertexData a b).1.symm.trans htr
    split_ifs at hrd
    exact absurd hrd hnn
  commit hs := idle_commit hs
  commitSets {s} hs := by
    obtain ⟨-, ⟨B, hst⟩, -⟩ := hs
    obtain ⟨hg, hc, -⟩ := hst.commit lt_treeFuel
    exact ⟨hg, hc⟩
  transition _ _ := ⟨none, rfl⟩

def sampleBundle : MessageBundle Unit :=
  ⟨[some ⟨.join, HypergraphState.zeroBytes, [], ()⟩, some ⟨.vertexRemove, HypergraphState.zeroBytes, [], ()⟩], 1⟩

theorem safe_sampleBundle (frameNumber : Nat) {s : HypergraphState} (hsz : s.hypergraph.size = 1) :
    Safe sampleBlocks (fun req => 32 ≤ req.domain.length) frameNumber globalIntrinsicAddress sampleBundle s where
  length_address := by decide
  requests r hr := by
    rcases mem_pair.mp hr with rfl | rfl <;> exact ⟨_, rfl, by decide⟩
  cost cost hcs := by
    cases hcs
    rw [HypergraphCRDT.getSize, hsz]
    decide
  own s' engine hrt := by
    cases hrt
    exact ⟨_, mem_cons_self, rfl⟩

end Quilibrium
