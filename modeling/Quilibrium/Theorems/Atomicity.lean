import Quilibrium.Theorems.Changeset

/-! A `Commit` that fails drops the transaction, but memory, stored roots and the size keep what was done before. -/

namespace Quilibrium
open Radix Function Except Option HypergraphCRDT MaterializedState

/-! ### Sets that are created or marked -/

namespace HypergraphCRDT

variable (hg : HypergraphCRDT) (m : AtomType) (s : ShardKey) (tree tree' : TreeId) (set : IdSet)

theorem set_mark : (hg.mark tree).set tree' = if tree' = tree then { hg.set tree with dirty := true } else hg.set tree' :=
  hg.set_putSet tree tree' _

theorem putSet_putSet (p : PhaseType) (set' : IdSet) : (hg.putSet m p s set).putSet m p s set' = hg.putSet m p s set' := by
  refine HypergraphCRDT.ext rfl ?_ ?_ rfl rfl
  · funext m' p' s'
    simp only [putSet, setAt]
    split_ifs <;> rfl
  · exact if_pos ((hg.mem_shards_putSet m s set).mpr (.inl rfl))

variable {hg m s}

theorem created_of (hsha : s ∈ hg.shards) (hst : ∀ p, hg.sets m p s ≠ none) : hg.Created m s := by
  refine ⟨hsha, fun p => ?_⟩
  obtain ⟨set, hs⟩ := ne_none_iff_exists'.mp (hst p)
  rw [hs, HypergraphCRDT.set, setOr, hs, getD_some]

theorem Created.putSet {m' : AtomType} {p : PhaseType} {s' : ShardKey} (h : hg.Created m s) (set : IdSet) :
    (hg.putSet m' p s' set).Created m s := by
  refine created_of ((mem_shards_putSet ..).mpr (.inr h.1)) fun p' => ?_
  simp only [HypergraphCRDT.putSet, setAt]
  split_ifs
  · simp
  · simp [h.2 p']

theorem set_setCoveredPrefix (q : List Nibble) :
    (hg.setCoveredPrefix q).set tree = { hg.set tree with tree := { (hg.set tree).tree with coveredPrefix := q } } := by
  simp only [set, setOr, setCoveredPrefix]
  rcases hg.sets tree.setType tree.phaseType tree.shardKey with _ | set <;> rfl

theorem putSet_setCoveredPrefix (p : PhaseType) (q : List Nibble) : (hg.putSet m p s set).setCoveredPrefix q =
      (hg.setCoveredPrefix q).putSet m p s { set with tree := { set.tree with coveredPrefix := q } } := by
  refine HypergraphCRDT.ext rfl ?_ rfl rfl rfl
  funext m' p' s'
  simp only [putSet, setCoveredPrefix, setAt]
  split_ifs <;> rfl

theorem create_setCoveredPrefix (q : List Nibble) :
    (hg.create m s).setCoveredPrefix q = (hg.setCoveredPrefix q).create m s := by
  simp [create, putSet_setCoveredPrefix, set_setCoveredPrefix]

/-- A prefix that was set is loaded again, or the hypergraph and all its trees keep theirs. -/
def PrefixSurvives (hg : HypergraphCRDT) (entry : Option Bytes) (q : List Nibble) : Prop :=
  ((storeCoveredPrefix entry q).2 = none → loadCoveredPrefix (storeCoveredPrefix entry q).1 = .ok q) ∧
    ((storeCoveredPrefix entry q).2 ≠ none → (hg.setCoveredPrefix q).coveredPrefix = hg.coveredPrefix ∧
      ∀ m p s, ((hg.setCoveredPrefix q).sets m p s).map (·.tree.coveredPrefix) =
        (hg.sets m p s).map (·.tree.coveredPrefix))

/-- The store never takes the prefix, so that it survives only where it was set before. -/
theorem prefixSurvives_iff (hg : HypergraphCRDT) (entry : Option Bytes) (q : List Nibble) : hg.PrefixSurvives entry q ↔
    hg.coveredPrefix = q ∧ ∀ m p s set, hg.sets m p s = some set → set.tree.coveredPrefix = q := by
  constructor
  · rintro ⟨-, h⟩
    obtain ⟨hq, hst⟩ := h (some_ne_none _)
    refine ⟨hq.symm, fun m p s set hs => ?_⟩
    have heq := hst m p s
    simp only [setCoveredPrefix, hs, map_some] at heq
    exact (some.inj heq).symm
  · rintro ⟨rfl, h⟩
    refine ⟨fun herr => (some_ne_none _ herr).elim, fun _ => ⟨rfl, fun m p s => ?_⟩⟩
    simp only [setCoveredPrefix]
    cases hs : hg.sets m p s with
    | none => rfl
    | some set => exact congrArg some (h m p s set hs).symm

theorem prefixSurvives_empty : ¬(HypergraphCRDT.new OrdMap.empty []).PrefixSurvives none [0] := by
  intro h
  cases (h.2 (some_ne_none _)).1

/-! ### A second attempt -/

theorem has_mark (db : Db) (id : Bytes) : ((hg.mark tree).set tree').has db id = (hg.set tree').has db id := by
  rw [set_mark]
  split_ifs with heq
  · rw [heq]
    rfl
  · rfl

variable (hg) in
theorem create_attempted : (hg.attempted tree).create tree.setType tree.shardKey = hg.attempted tree :=
  ((hg.created_create _ _).putSet _).create_eq

@[simp] theorem store_attempted : (hg.attempted tree).store = hg.store := rfl

@[simp] theorem has_attempted (db : Db) (id : Bytes) : ((hg.attempted tree).set tree').has db id = (hg.set tree').has db id := by
  rw [attempted, has_mark, set_create]

variable (hg) in
theorem set_attempted_of_ne (h : tree' ≠ tree) : (hg.attempted tree).set tree' = hg.set tree' := by
  rw [attempted, set_mark, if_neg h, set_create]

theorem addTo_attempted (sha3 : Digest 32) (hty : (hg.set tree).atomType = tree.setType) (txn : Txn) (new : Item) :
    (hg.attempted tree).addTo sha3 txn tree.setType tree.phaseType tree.shardKey ((hg.attempted tree).set tree) new =
      (hg.create tree.setType tree.shardKey).addTo sha3 txn tree.setType tree.phaseType tree.shardKey (hg.set tree) new := by
  have hne := not_not.mpr hty.symm
  rw [attempted, set_mark, if_pos rfl, set_create, addTo, addTo, IdSet.add, IdSet.add, if_neg hne, if_neg hne]
  simp only [mark, putSet_putSet, set_create]
  rfl

section
variable (c : Crypto) (txn : Txn) (v : Vertex) (e : Hyperedge)

section
variable (hty : ∀ tree, (hg.set tree).atomType = tree.setType)
include hty

theorem addVertex_attempted : (hg.attempted (v.tree c .adds)).addVertex c txn v = hg.addVertex c txn v := by
  have hadd := addTo_attempted (v.tree c .adds) c.sha3 (hty _) txn v.item
  have hc := create_attempted hg (v.tree c .adds)
  simp only [Vertex.tree] at hadd hc ⊢
  simp [addVertex, hc, hadd]

theorem removeVertex_attempted :
    (hg.attempted (hg.removalTree c .vertex v.appAddress v.dataAddress)).removeVertex c txn v = hg.removeVertex c txn v := by
  rw [removalTree]
  split_ifs with hfn
  · have hadd := addTo_attempted ⟨.vertex, .removes, shardKeyOf c.shake v.appAddress⟩ c.sha3 (hty _) txn v.item
    have hc := create_attempted hg ⟨.vertex, .removes, shardKeyOf c.shake v.appAddress⟩
    dsimp only at hadd hc
    simp [removeVertex, lookupVertex, hc, Vertex.id, hfn, hadd]
  · have hadd := addTo_attempted ⟨.vertex, .adds, shardKeyOf c.shake v.appAddress⟩ c.sha3 (hty _) txn v.item
    have hc := create_attempted hg ⟨.vertex, .adds, shardKeyOf c.shake v.appAddress⟩
    have hot := set_attempted_of_ne hg ⟨.vertex, .adds, shardKeyOf c.shake v.appAddress⟩
      ⟨.vertex, .removes, shardKeyOf c.shake v.appAddress⟩ (by simp)
    rw [Bool.not_eq_true] at hfn
    dsimp only at hadd hc
    simp [removeVertex, lookupVertex, hc, Vertex.id, hfn, hadd, hot]

end

theorem addHyperedgeTo_attempted (tree : TreeId) (htr : tree.setType = .hyperedge)
    (hty : (hg.set tree).atomType = tree.setType) :
    (hg.attempted tree).addHyperedgeTo c txn tree.phaseType tree.shardKey ((hg.attempted tree).set tree) e =
      (hg.create .hyperedge tree.shardKey).addHyperedgeTo c txn tree.phaseType tree.shardKey (hg.set tree) e := by
  have hadd := addTo_attempted tree c.sha3 hty txn (e.item c.sha512 c.prover)
  have hsm : ((hg.attempted tree).set tree).atomType = (hg.set tree).atomType := by
    rw [attempted, set_mark, if_pos rfl, set_create]
  rw [htr] at hadd
  simp [addHyperedgeTo, hadd, hsm]

section
variable (hty : ∀ tree, (hg.set tree).atomType = tree.setType)
include hty

theorem addHyperedge_attempted (hh : (hg.set (e.tree c .removes)).has hg.store e.id = false) :
    (hg.attempted (e.tree c .adds)).addHyperedge c txn e = hg.addHyperedge c txn e := by
  have hadd := addHyperedgeTo_attempted c txn e (e.tree c .adds) rfl (hty _)
  have hc := create_attempted hg (e.tree c .adds)
  simp only [Hyperedge.tree] at hadd hc hh ⊢
  simp [addHyperedge, hc, hadd, hh]

theorem removeHyperedge_attempted :
    (hg.attempted (hg.removalTree c .hyperedge e.appAddress e.dataAddress)).removeHyperedge c txn e = hg.removeHyperedge c txn e := by
  rw [removalTree]
  split_ifs with hfn
  · have hadd := addHyperedgeTo_attempted c txn e ⟨.hyperedge, .removes, shardKeyOf c.shake e.appAddress⟩ rfl (hty _)
    have hc := create_attempted hg ⟨.hyperedge, .removes, shardKeyOf c.shake e.appAddress⟩
    dsimp only at hadd hc
    simp [removeHyperedge, lookupHyperedge, hc, Hyperedge.id, hfn, hadd]
  · have hadd := addHyperedgeTo_attempted c txn e ⟨.hyperedge, .adds, shardKeyOf c.shake e.appAddress⟩ rfl (hty _)
    have hc := create_attempted hg ⟨.hyperedge, .adds, shardKeyOf c.shake e.appAddress⟩
    have hot := set_attempted_of_ne hg ⟨.hyperedge, .adds, shardKeyOf c.shake e.appAddress⟩
      ⟨.hyperedge, .removes, shardKeyOf c.shake e.appAddress⟩ (by simp)
    rw [Bool.not_eq_true] at hfn
    dsimp only at hadd hc
    simp [removeHyperedge, lookupHyperedge, hc, Hyperedge.id, hfn, hadd, hot]

end

end

end HypergraphCRDT

/-! ### Changes that fail -/

namespace MaterializedState

def id : MaterializedState → Bytes
  | .vertexAdd appAddress dataAddress _ _ _ => atomId appAddress dataAddress
  | .vertexRemove v _ _ => v.id
  | .hyperedgeAdd appAddress dataAddress _ _ _ => atomId appAddress dataAddress
  | .hyperedgeRemove appAddress dataAddress _ _ _ => atomId appAddress dataAddress

def target : MaterializedState → Option Nat
  | .vertexAdd _ _ _ _ data => some data
  | .vertexRemove _ _ _ => none
  | .hyperedgeAdd _ _ extTree _ _ => some extTree
  | .hyperedgeRemove _ _ extTree _ _ => some extTree

section
variable (c : Crypto)

def quiet (hg : HypergraphCRDT) : MaterializedState → Bool
  | .hyperedgeAdd appAddress dataAddress _ _ _ => skips c hg appAddress dataAddress
  | _ => false

def firstTree (hg : HypergraphCRDT) : MaterializedState → TreeId
  | .vertexAdd appAddress _ _ _ _ => ⟨.vertex, .adds, shardKeyOf c.shake appAddress⟩
  | .vertexRemove v _ _ => hg.removalTree c .vertex v.appAddress v.dataAddress
  | .hyperedgeAdd appAddress _ _ _ _ => ⟨.hyperedge, .adds, shardKeyOf c.shake appAddress⟩
  | .hyperedgeRemove appAddress dataAddress _ _ _ => hg.removalTree c .hyperedge appAddress dataAddress

def shard : MaterializedState → ShardKey
  | .vertexAdd appAddress _ _ _ _ => shardKeyOf c.shake appAddress
  | .vertexRemove v _ _ => shardKeyOf c.shake v.appAddress
  | .hyperedgeAdd appAddress _ _ _ _ => shardKeyOf c.shake appAddress
  | .hyperedgeRemove appAddress _ _ _ _ => shardKeyOf c.shake appAddress

def record (heap : Heap) : MaterializedState → List Write
  | .hyperedgeAdd appAddress dataAddress _ frameNumber prior =>
    Quilibrium.trackChange ⟨.hyperedge, .adds, shardKeyOf c.shake appAddress⟩ (atomId appAddress dataAddress)
      (prior.map heap) frameNumber
  | _ => []

def heapTried (heap : Heap) (value : MaterializedState) : Heap :=
  match value.target with
  | none => heap
  | some r => Function.update heap r ((heap r).commit c.sha512 c.prover false).2

end
end MaterializedState

section
variable {c : Crypto} {hg hg' : HypergraphCRDT} {txn txn' : Txn} {B B' : Bindings} {s s' : HypergraphState}

variable {value : MaterializedState} {values : List MaterializedState}

theorem Sets.commit_outside {heap : Heap} {r : Heap × HypergraphCRDT × Txn × Option String}
    (h : Sets c hg txn B) (hr : hg.Read B) (hqt : value.quiet c hg = false) (hc : hg.covers value.id = false)
    (hrun : value.commit c heap hg txn = .ok r) :
    ∃ err, r = (value.heapTried c heap, hg.attempted (value.firstTree c hg), txn, some err) := by
  cases value with
  | vertexAdd a b frame prior data =>
    simp only [MaterializedState.commit] at hrun
    split_ifs at hrun with hsz
    have hadd := h.addVertex_outside ⟨a, b, ((heap data).commit c.sha512 c.prover false).1, _, hsz⟩ hr hc
    simp only [Step.andThen, hadd, ok_bind, wrap, map_some] at hrun
    cases hrun
    exact ⟨_, rfl⟩
  | vertexRemove v frame prior =>
    obtain ⟨err, hrem⟩ := h.removeVertex_outside v hr hc
    simp only [MaterializedState.commit, Step.andThen, hrem, ok_bind, wrap, map_some] at hrun
    cases hrun
    exact ⟨_, rfl⟩
  | hyperedgeAdd a b extTree frame prior =>
    have hadd := h.addHyperedge_outside ⟨a, b, heap extTree⟩ hr hc hqt
    simp only [MaterializedState.commit, hadd, ok_bind, wrap, map_some] at hrun
    cases hrun
    exact ⟨_, rfl⟩
  | hyperedgeRemove a b extTree frame prior =>
    obtain ⟨err, hrem⟩ := h.removeHyperedge_outside ⟨a, b, heap extTree⟩ hr hc
    simp only [MaterializedState.commit, hrem, ok_bind, wrap, map_some] at hrun
    cases hrun
    exact ⟨_, rfl⟩

theorem commit_attempted {heap : Heap} (txn : Txn)
    (hty : ∀ tree, (hg.set tree).atomType = tree.setType) (hqt : value.quiet c hg = false)
    (hhp : value.heapTried c heap = heap ∨ ∃ a b frame prior data, value = .vertexAdd a b frame prior data) :
    value.commit c (value.heapTried c heap) (hg.attempted (value.firstTree c hg)) txn = value.commit c heap hg txn := by
  cases value with
  | vertexAdd a b frame prior data =>
    have hadd : ∀ v : Vertex, v.appAddress = a → (hg.attempted ⟨.vertex, .adds, shardKeyOf c.shake a⟩).addVertex c txn v =
        hg.addVertex c txn v := by
      rintro v rfl
      exact addVertex_attempted c txn v hty
    simp [MaterializedState.commit, firstTree, heapTried, target, VectorCommitmentTree.commit_idem, update_idem, Step.andThen,
      hadd]
  | vertexRemove v frame prior =>
    have hr := removeVertex_attempted c txn v hty
    simp only [MaterializedState.commit, Step.andThen, firstTree, hr]
    rfl
  | hyperedgeAdd a b extTree frame prior =>
    have hadd := addHyperedge_attempted c txn ⟨a, b, heap extTree⟩ hty hqt
    simp only [Hyperedge.tree] at hadd
    obtain hhp | ⟨_, _, _, _, _, hne⟩ := hhp
    · simp [MaterializedState.commit, firstTree, hhp, hadd]
    · cases hne
  | hyperedgeRemove a b extTree frame prior =>
    have hr := removeHyperedge_attempted c txn ⟨a, b, heap extTree⟩ hty
    obtain hhp | ⟨_, _, _, _, _, hne⟩ := hhp
    · simp [MaterializedState.commit, firstTree, hhp, hr]
    · cases hne

/-! ### Changes that do nothing -/

theorem quiet_congr (htr : ∀ tree, (hg'.set tree).tree.tree = (hg.set tree).tree.tree)
    (hst : hg'.store = hg.store) : value.quiet c hg' = value.quiet c hg := by
  cases value with
  | hyperedgeAdd a b extTree frame prior =>
    simp [quiet, skips, IdSet.has, htr, hst]
  | _ => rfl

theorem quiet_attempted (value : MaterializedState) (tree : TreeId) :
    value.quiet c (hg.attempted tree) = value.quiet c hg := by
  refine quiet_congr (fun tree' => ?_) rfl
  rw [attempted, set_mark, set_create]
  split_ifs with heq
  · rw [heq]
  · rfl

theorem quiet_setCoveredPrefix (value : MaterializedState) (q : List Nibble) :
    value.quiet c (hg.setCoveredPrefix q) = value.quiet c hg :=
  quiet_congr (fun tree => by rw [set_setCoveredPrefix]) rfl

def HypergraphCRDT.primed (c : Crypto) (hg : HypergraphCRDT) (values : List MaterializedState) : HypergraphCRDT :=
  values.foldl (fun hg value => hg.create .hyperedge (value.shard c)) hg

theorem commit_quiet (heap : Heap) (batch : List Write) (h : value.quiet c hg = true) :
    value.commit c heap hg (some batch) =
      .ok (heap, hg.create .hyperedge (value.shard c), some (batch ++ value.record c heap), none) := by
  cases value with
  | hyperedgeAdd a b extTree frame prior =>
    have hh : (hg.set ⟨.hyperedge, .removes, shardKeyOf c.shake a⟩).has hg.store
        (Hyperedge.id ⟨a, b, heap extTree⟩) = true := h
    have hadd : hg.addHyperedge c (some batch) ⟨a, b, heap extTree⟩ =
        .ok (hg.create .hyperedge (shardKeyOf c.shake a), ⟨a, b, heap extTree⟩, some batch, none) := by
      simp [addHyperedge, hh]
    simp only [MaterializedState.commit, hadd, ok_bind, update_eq_self]
    rfl
  | _ => cases h

theorem commitAll_quiet (rest : List MaterializedState) (heap : Heap)
    (batch : List Write) (h : ∀ value ∈ values, value.quiet c hg = true) :
    commitAll c (values ++ rest) heap hg (some batch) = commitAll c rest heap (hg.primed c values)
        (some (batch ++ values.flatMap (·.record c heap))) := by
  induction values generalizing hg batch with
  | nil => simp [primed]
  | cons value values ih =>
    rw [List.cons_append, commitAll]
    dsimp only
    rw [commit_quiet heap batch (h value List.mem_cons_self), ok_bind]
    dsimp only
    rw [ih _ fun value' hm =>
      (quiet_congr (by simp) (hg.store_create _ _)).trans (h value' (List.mem_cons_of_mem _ hm))]
    simp [primed, List.append_assoc]

theorem primed_frame (c : Crypto) (hg : HypergraphCRDT) (values : List MaterializedState) :
    (hg.primed c values).store = hg.store ∧ (hg.primed c values).size = hg.size ∧
      (hg.primed c values).coveredPrefix = hg.coveredPrefix ∧ (hg.primed c values).set = hg.set := by
  induction values generalizing hg with
  | nil => exact ⟨rfl, rfl, rfl, rfl⟩
  | cons value values ih =>
    obtain ⟨hst, hsz, hc, hs⟩ := ih (hg.create .hyperedge (value.shard c))
    exact ⟨hst, hsz, hc, hs.trans (hg.set_create _ _)⟩

theorem primed_setCoveredPrefix (values : List MaterializedState) (q : List Nibble) :
    (hg.primed c values).setCoveredPrefix q = (hg.setCoveredPrefix q).primed c values := by
  induction values generalizing hg with
  | nil => rfl
  | cons value values ih =>
    have h : ((hg.create .hyperedge (value.shard c)).primed c values).setCoveredPrefix q = _ := ih
    rw [create_setCoveredPrefix] at h
    exact h

theorem primed_created {m : AtomType} {s : ShardKey} (h : hg.Created m s) : (hg.primed c values).Created m s := by
  induction values generalizing hg with
  | nil => exact h
  | cons value values ih => exact ih ((h.putSet _).putSet _)

theorem created_primed (h : value ∈ values) : (hg.primed c values).Created .hyperedge (value.shard c) := by
  induction values generalizing hg with
  | nil => cases h
  | cons value' values ih =>
    obtain rfl | h := List.mem_cons.mp h
    · rw [primed, List.foldl_cons]
      exact primed_created (hg.created_create .hyperedge (value.shard c))
    · exact ih h

theorem primed_eq_self (h : ∀ value ∈ values, hg.Created .hyperedge (value.shard c)) : hg.primed c values = hg := by
  induction values with
  | nil => rfl
  | cons value values ih =>
    have hc := (h value List.mem_cons_self).create_eq
    rw [primed, List.foldl_cons, hc]
    exact ih fun value' hm => h value' (List.mem_cons_of_mem _ hm)

/-! ### The state after a failed `Commit` -/

namespace HypergraphState

def setCoveredPrefix (s : HypergraphState) (q : List Nibble) : HypergraphState :=
  { s with hypergraph := s.hypergraph.setCoveredPrefix q }

/-- The stored data, the trees of all sets and the size are the same. -/
structure SameContents (s s' : HypergraphState) : Prop where
  store : s'.hypergraph.store = s.hypergraph.store
  trees : ∀ tree, (s'.hypergraph.set tree).tree = (s.hypergraph.set tree).tree
  size : s'.hypergraph.size = s.hypergraph.size

/-- The first change that does anything is outside the covered prefix. Its tree is committed already, or it is that
    of a vertex and the change is the first of all. -/
def FailsFirst (c : Crypto) (s : HypergraphState) : Prop :=
  ∃ before value after, s.changeset.map (·.value) = before ++ value :: after ∧
    (∀ value' ∈ before, value'.quiet c s.hypergraph = true) ∧ value.quiet c s.hypergraph = false ∧
    s.hypergraph.covers value.id = false ∧ (value.heapTried c s.heap = s.heap ∨
      before = [] ∧ ∃ a b frame prior data, value = .vertexAdd a b frame prior data)

end HypergraphState

theorem attempted_setCoveredPrefix (tree : TreeId) (q : List Nibble) :
    (hg.attempted tree).setCoveredPrefix q = (hg.setCoveredPrefix q).attempted tree := by
  simp [attempted, mark, putSet_setCoveredPrefix, set_setCoveredPrefix, create_setCoveredPrefix]

theorem firstTree_setCoveredPrefix (value : MaterializedState) (q : List Nibble) :
    value.firstTree c (hg.setCoveredPrefix q) = value.firstTree c hg := by
  cases value with
  | vertexRemove v frame prior | hyperedgeRemove a b extTree frame prior =>
    simp only [firstTree, removalTree, set_setCoveredPrefix]
    rfl
  | _ => rfl

theorem Sets.commit_failed (h : Sets c s.hypergraph none B) {before after : List MaterializedState}
    (hv : s.changeset.map (·.value) = before ++ value :: after)
    (hb : ∀ value' ∈ before, value'.quiet c s.hypergraph = true) (hqt : value.quiet c s.hypergraph = false)
    (hcov : s.hypergraph.covers value.id = false) {fuel : Nat} {err : Option String}
    (hr : s.commit c fuel = .ok (s', err)) : s' = { s with
      heap := value.heapTried c s.heap
      hypergraph := (s.hypergraph.primed c before).attempted (value.firstTree c (s.hypergraph.primed c before)) } := by
  obtain ⟨hsr, hsz, hc', hs⟩ := primed_frame c s.hypergraph before
  have hall := commitAll_quiet [] s.heap [] hb
  rw [List.append_nil] at hall
  obtain ⟨B', hm, -⟩ := h.running.commitAll h hall
  obtain ⟨⟨heap, hg, txn, err'⟩, hc, hrs⟩ := bind_eq_ok.mp hr
  rw [hv, commitAll_quiet (value :: after) s.heap [] hb] at hc
  obtain ⟨r, ho, hrs'⟩ := bind_eq_ok.mp hc
  have hqt' : value.quiet c (s.hypergraph.primed c before) = false := by
    rw [quiet_congr (fun tree => by rw [hs]) hsr, hqt]
  have hc'' : (s.hypergraph.primed c before).covers value.id = false := by
    rw [covers, hc']
    exact hcov
  obtain ⟨e, rfl⟩ := hm.sets.commit_outside hm.read hqt' hc'' ho
  cases hrs'
  cases hrs
  rfl

theorem commitAll_attempted (hty : ∀ tree, (hg.set tree).atomType = tree.setType) {before : List MaterializedState} (after : List MaterializedState) (heap : Heap)
    (hb : ∀ value' ∈ before, value'.quiet c hg = true) (hqt : value.quiet c hg = false)
    (hhp : value.heapTried c heap = heap ∨ before = [] ∧ ∃ a b frame prior data, value = .vertexAdd a b frame prior data) :
    commitAll c (before ++ value :: after) (value.heapTried c heap)
        ((hg.primed c before).attempted (value.firstTree c (hg.primed c before))) (some []) =
      commitAll c (before ++ value :: after) heap hg (some []) := by
  obtain ⟨hst, -, -, hs⟩ := primed_frame c hg before
  have hqt' : ∀ value' : MaterializedState, value'.quiet c (hg.primed c before) = value'.quiet c hg := fun value' =>
    quiet_congr (fun tree => by rw [hs]) hst
  have hpri : ((hg.primed c before).attempted (value.firstTree c (hg.primed c before))).primed c before =
      (hg.primed c before).attempted (value.firstTree c (hg.primed c before)) :=
    primed_eq_self fun value' hm => (((created_primed hm).putSet _).putSet _).putSet _
  have hr : before.flatMap (·.record c (value.heapTried c heap)) = before.flatMap (·.record c heap) := by
    obtain hhp | ⟨rfl, -⟩ := hhp
    · rw [hhp]
    · rfl
  have ho := commit_attempted (some ([] ++ before.flatMap (·.record c heap)))
    (fun tree => (congrArg (·.atomType) (congrFun hs tree)).trans (hty tree)) ((hqt' value).trans hqt)
    (hhp.imp_right And.right)
  rw [commitAll_quiet _ _ _ hb, commitAll_quiet _ _ _ fun value' hm => by
    rw [quiet_attempted, hqt', hb value' hm], hpri, hr, commitAll]
  dsimp only
  rw [ho]

end

/-! ### A change inside and one outside -/

namespace HypergraphState

/-- A state that covers the ids whose path starts as that of zero, with a tree of size 1 at every pointer. -/
def covering : HypergraphState :=
  .new (.new OrdMap.empty ((getFullPath zeroBytes).take 1)) (fun _ => ⟨.leaf ⟨⟨[0], [], [], 1⟩, []⟩⟩) 1

def farAddress : Address := ⟨0xFC :: List.replicate 31 0, rfl⟩

def setFar : Call := .set farAddress.bytes zeroBytes .vertexAdds (.vertexAdd farAddress .zero 1 none 0)

end HypergraphState

end Quilibrium
