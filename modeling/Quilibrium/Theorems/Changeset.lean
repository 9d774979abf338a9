import Quilibrium.Hypergraph.State
import Quilibrium.Theorems.Size

/-! The changeset of a state: `Get` looks for a pending change under its own discriminator, and otherwise asks the
    hypergraph. -/

namespace Quilibrium
open Radix Function Except Option HypergraphCRDT HypergraphState MaterializedState Bindings

/-! ### What a change does -/

namespace MaterializedState

def removesVertex (a b : Address) : MaterializedState → Bool
  | .vertexRemove v _ _ => v.appAddress = a ∧ v.dataAddress = b
  | _ => false

def removesHyperedge (a b : Address) : MaterializedState → Bool
  | .hyperedgeRemove appAddress dataAddress _ _ _ => appAddress = a ∧ dataAddress = b
  | _ => false

section
variable (c : Crypto)

def skips (hg : HypergraphCRDT) (appAddress dataAddress : Address) : Bool :=
  (hg.set ⟨.hyperedge, .removes, shardKeyOf c.shake appAddress⟩).has hg.store (atomId appAddress dataAddress)

/-- The trees after `Commit` of a change; `hg` is the hypergraph before the changeset. -/
def heapAfter (hg : HypergraphCRDT) : MaterializedState → Heap → Heap
  | .vertexAdd _ _ _ _ data, heap => Function.update heap data ((heap data).commit c.sha512 c.prover false).2
  | .vertexRemove _ _ _, heap => heap
  | .hyperedgeAdd appAddress dataAddress extTree _ _, heap =>
    if skips c hg appAddress dataAddress then heap
    else Function.update heap extTree ((heap extTree).commit c.sha512 c.prover false).2
  | .hyperedgeRemove _ _ extTree _ _, heap =>
    Function.update heap extTree ((heap extTree).commit c.sha512 c.prover false).2

def dataBytes (a b : Address) : MaterializedState → Heap → Option Bytes
  | .vertexAdd appAddress dataAddress _ _ data, heap =>
    if appAddress = a ∧ dataAddress = b then
      some (serializeNonLazyTree ((heap data).commit c.sha512 c.prover false).2)
    else none
  | _, _ => none

def edgeBytes (hg : HypergraphCRDT) (a b : Address) : MaterializedState → Heap → Option Bytes
  | .hyperedgeAdd appAddress dataAddress extTree _ _, heap =>
    if (appAddress = a ∧ dataAddress = b) ∧ skips c hg appAddress dataAddress = false then
      some (Hyperedge.toBytes ⟨appAddress, dataAddress, heap extTree⟩)
    else none
  | _, _ => none

def lastBytes (hg : HypergraphCRDT) (bytes : MaterializedState → Heap → Option Bytes) :
    List MaterializedState → Heap → Option Bytes
  | [], _ => none
  | value :: values, heap => (lastBytes hg bytes values (value.heapAfter c hg heap)).or (bytes value heap)

end
end MaterializedState

/-! ### Within the transaction -/

/-- The hypergraph while `Commit` applies the changes to what was `hg₀`. -/
structure Running (c : Crypto) (hg₀ hg : HypergraphCRDT) (txn : Txn) (B : Bindings) : Prop where
  sets : Sets c hg txn B
  read : hg.Read B
  isSome : txn.isSome = true
  held : ∀ k, (∀ tree : TreeId, k ≠ tree.rootKey) → hg.store.get k = hg₀.store.get k

theorem Sets.running {c : Crypto} {hg : HypergraphCRDT} {B : Bindings} (h : Sets c hg none B) :
    Running c hg hg (some []) B :=
  ⟨⟨h.stores, h.named, h.typed, h.covered, h.listed, h.nodup⟩, h.read rfl, rfl, fun _ _ => rfl⟩

theorem atomId_inj {a b a' b' : Address} : atomId a b = atomId a' b' ↔ a = a' ∧ b = b' := by
  constructor
  · intro h
    obtain ⟨ha, hb⟩ := List.append_inj h (a.length_bytes.trans a'.length_bytes.symm)
    exact ⟨Address.ext ha, Address.ext hb⟩
  · rintro ⟨rfl, rfl⟩
    rfl

theorem not_owns_vertexDataKey (tree : TreeId) (id : Bytes) : ¬tree.Owns (hypergraphVertexDataKey id) := by
  rintro ⟨tag, rest, ht, heq⟩
  have ht' : tag = VERTEX_DATA := by
    simp only [hypergraphVertexDataKey, shardRecordKey, List.cons.injEq, true_and] at heq
    exact heq.1.symm
  subst ht'
  obtain ⟨_ | _, _ | _, s⟩ := tree <;> revert ht <;> dsimp only [TreeId.nodeTag, TreeId.pathTag, TreeId.rootTag] <;> decide

theorem TreeId.changeType_ne_vertexData (tree : TreeId) : tree.changeType ≠ VERTEX_DATA := by
  obtain ⟨_ | _, _ | _, s⟩ := tree <;> dsimp only [changeType] <;> decide

theorem TreeId.nodeKey_ne_rootKey (tree tree' : TreeId) (k : Bytes) : tree.nodeKey k ≠ tree'.rootKey := by
  intro heq
  obtain rfl := (tree.owns_nodeKey k).unique (heq ▸ tree'.owns_rootKey)
  exact TreeId.rootKey_ne_nodeKey k heq.symm

section
variable {c : Crypto} {hg₀ hg hg' : HypergraphCRDT} {txn txn' : Txn} {B₀ B B' : Bindings} {s s' : HypergraphState}

variable {heap heap' : Heap} {a b : Address} {frame : Nat} {prior : Option Nat} {values : List MaterializedState}
  {id domain address : Bytes} {db : Db}

section
variable (h : Running c hg₀ hg txn B)
include h

theorem Running.has_eq (h₀ : Sets c hg₀ none B₀) {tree : TreeId} :
    (hg.set tree).has hg.store id = (hg₀.set tree).has hg₀.store id := by
  rw [IdSet.has, IdSet.has, h.sets.named tree, h₀.named tree, getNodeByKey, getNodeByKey,
    h.held _ fun tree' => tree.nodeKey_ne_rootKey tree' id]

theorem Running.step (hL : Leaves c hg txn hg' txn' B') (hr : hg'.Read B') : Running c hg₀ hg' txn' B' :=
  ⟨hL.sets, hr, hL.isSome.trans h.isSome, fun k hk => (hL.held h.isSome k hk).trans (h.held k hk)⟩

theorem Running.write (ws : List Write) (hws : ∀ w ∈ ws, ∀ tree : TreeId, ¬tree.Owns w.key) :
    ∃ txn', hg.write txn ws = (hg, txn') ∧ Running c hg₀ hg txn' B ∧
      pending hg.store txn' = (pending hg.store txn).apply ws := by
  obtain ⟨batch, rfl⟩ := isSome_iff_exists.mp h.isSome
  have hs := h.sets.write hws
  exact ⟨some (batch ++ ws), rfl, ⟨hs, h.read, rfl, h.held⟩, Db.apply_append _ _ _⟩

end

theorem get_vertexData_trackChange (db : Db) (tree : TreeId) (key : Bytes) (old : Option VectorCommitmentTree) (frame : Nat)
    (id : Bytes) :
    (db.apply (trackChange tree key old frame)).get (hypergraphVertexDataKey id) = db.get (hypergraphVertexDataKey id) := by
  refine Db.get_apply_of_untouched _ fun w hw heq => ?_
  obtain rfl := List.mem_singleton.mp hw
  simp only [Write.key, hypergraphVertexDataKey, hypergraphChangeRecordKey, shardRecordKey, List.cons.injEq, true_and] at heq
  exact tree.changeType_ne_vertexData heq.1

theorem Running.trackChange (h : Running c hg₀ hg txn B) (tree : TreeId) (key : Bytes) (old : Option VectorCommitmentTree)
    (frame : Nat) :
    ∃ txn', HypergraphCRDT.trackChange tree key old frame hg txn = .ok (hg, txn', none) ∧ Running c hg₀ hg txn' B ∧
      pending hg.store txn' = (pending hg.store txn).apply (Quilibrium.trackChange tree key old frame) := by
  obtain ⟨txn', hwr, hrun, hpn⟩ := h.write (Quilibrium.trackChange tree key old frame) fun w hw tree' => by
    obtain rfl := List.mem_singleton.mp hw
    exact not_owns_changeRecordKey tree tree' frame key
  exact ⟨txn', by simp [HypergraphCRDT.trackChange, hwr], hrun, hpn⟩

theorem Running.setVertexData (h : Running c hg₀ hg txn B) (id : Bytes) (data : VectorCommitmentTree) :
    ∃ txn', setVertexData id data hg txn = .ok (hg, txn', none) ∧ Running c hg₀ hg txn' B ∧
      ∀ id', (pending hg.store txn').get (hypergraphVertexDataKey id') =
        if id' = id then some (.data (serializeNonLazyTree data))
        else (pending hg.store txn).get (hypergraphVertexDataKey id') := by
  obtain ⟨txn', hwr, hrun, hpn⟩ := h.write (saveVertexTree id data) fun w hw tree' => by
    obtain rfl := List.mem_singleton.mp hw
    exact not_owns_vertexDataKey tree' id
  obtain ⟨batch, rfl⟩ := isSome_iff_exists.mp h.isSome
  cases hwr
  refine ⟨some (batch ++ saveVertexTree id data), rfl, hrun, fun id' => ?_⟩
  rw [hpn]
  have hs : (pending hg.store (some batch)).apply (saveVertexTree id data) =
      OrdMap.set (pending hg.store (some batch)) (hypergraphVertexDataKey id) (.data (serializeNonLazyTree data)) := rfl
  rw [hs, OrdMap.get_set]
  by_cases hid : id' = id
  · rw [if_pos hid, if_pos (by rw [hid])]
  · rw [if_neg hid, if_neg fun heq => hid (by simpa [hypergraphVertexDataKey] using heq)]

/-- What a change leaves of the bindings and of the stored data. -/
structure Changed (c : Crypto) (hg₀ : HypergraphCRDT) (values : List MaterializedState) (heap : Heap) (B : Bindings) (db : Db)
    (B' : Bindings) (db' : Db) : Prop where
  vertexRemoves : ∀ a b, (B' ⟨.vertex, .removes, shardKeyOf c.shake a⟩ (atomId a b)).isSome =
    ((B ⟨.vertex, .removes, shardKeyOf c.shake a⟩ (atomId a b)).isSome || values.any (·.removesVertex a b))
  hyperedgeRemoves : ∀ a b, (B' ⟨.hyperedge, .removes, shardKeyOf c.shake a⟩ (atomId a b)).isSome =
    ((B ⟨.hyperedge, .removes, shardKeyOf c.shake a⟩ (atomId a b)).isSome || values.any (·.removesHyperedge a b))
  hyperedges : ∀ a b, values.any (·.removesHyperedge a b) = false →
    (B' ⟨.hyperedge, .adds, shardKeyOf c.shake a⟩ (atomId a b)).map (·.value) =
      (MaterializedState.lastBytes c hg₀ (MaterializedState.edgeBytes c hg₀ a b) values heap).or
        ((B ⟨.hyperedge, .adds, shardKeyOf c.shake a⟩ (atomId a b)).map (·.value))
  data : ∀ a b, db'.get (hypergraphVertexDataKey (atomId a b)) =
    ((MaterializedState.lastBytes c hg₀ (MaterializedState.dataBytes c a b) values heap).map Value.data).or
      (db.get (hypergraphVertexDataKey (atomId a b)))

theorem Changed.nil : Changed c hg₀ [] heap B db B db where
  vertexRemoves _ _ := by simp
  hyperedgeRemoves _ _ := by simp
  hyperedges _ _ _ := rfl
  data _ _ := rfl

theorem Changed.cons {value : MaterializedState} {db' db'' : Db}
    {B'' : Bindings} (h : Changed c hg₀ [value] heap B db B' db')
    (h' : Changed c hg₀ values (value.heapAfter c hg₀ heap) B' db' B'' db'') :
    Changed c hg₀ (value :: values) heap B db B'' db'' where
  vertexRemoves a b := by
    rw [h'.vertexRemoves, h.vertexRemoves]
    simp [Bool.or_assoc]
  hyperedgeRemoves a b := by
    rw [h'.hyperedgeRemoves, h.hyperedgeRemoves]
    simp [Bool.or_assoc]
  hyperedges a b hno := by
    rw [List.any_cons, Bool.or_eq_false_iff] at hno
    rw [h'.hyperedges a b hno.2, h.hyperedges a b (by simp [hno.1])]
    simp [lastBytes, Option.or_assoc]
  data a b := by
    rw [h'.data, h.data]
    simp only [lastBytes, none_or]
    cases lastBytes c hg₀ (dataBytes c a b) values (value.heapAfter c hg₀ heap) <;> rfl

theorem Running.commit_vertexAdd {data : Nat} (h : Running c hg₀ hg txn B)
    (hrun : (vertexAdd a b frame prior data).commit c heap hg txn = .ok (heap', hg', txn', none)) :
    ∃ B', Running c hg₀ hg' txn' B' ∧ heap' = (vertexAdd a b frame prior data).heapAfter c hg₀ heap ∧
      Changed c hg₀ [.vertexAdd a b frame prior data] heap B (pending hg.store txn) B' (pending hg'.store txn') := by
  obtain ⟨commitment, tree, htr⟩ :
    ∃ commitment tree, (heap data).commit c.sha512 c.prover false = (commitment, tree) := ⟨_, _, rfl⟩
  simp only [MaterializedState.commit, htr] at hrun
  split_ifs at hrun with hsz
  obtain ⟨⟨hg₃, txn₃, err⟩, hst, heq⟩ := bind_eq_ok.mp hrun
  let v : Vertex := ⟨a, b, commitment, tree.getSize, hsz⟩
  obtain ⟨⟨hg₁, txn₁, err₁⟩, hadd, hrs⟩ := bind_eq_ok.mp hst
  cases hc : hg.covers v.id with
  | false =>
    cases hadd.symm.trans (h.sets.addVertex_outside v h.read hc)
    cases hrs
    cases heq
  | true =>
    obtain ⟨hg₂, txn₂, hadd', hL, hr, -⟩ := h.sets.addVertex v h.read hc
    cases hadd.symm.trans hadd'
    have h₁ := h.step hL hr
    obtain ⟨txn₄, hs, h₂, hdt⟩ := h₁.setVertexData (atomId a b) tree
    obtain ⟨txn₅, htc, h₃, hkp⟩ := h₂.trackChange ⟨.vertex, .adds, shardKeyOf c.shake a⟩ (atomId a b)
      (prior.map (update heap data tree)) frame
    simp only [Step.andThen, hs, ok_bind, htc] at hrs
    cases hrs
    cases heq
    refine ⟨_, h₃, by simp [heapAfter, htr], ?_⟩
    constructor
    · intro a' b'
      rw [bind_of_ne _ _ (by simp [Vertex.tree])]
      simp [removesVertex]
    · intro a' b'
      rw [bind_of_ne _ _ (by simp [Vertex.tree])]
      simp [removesHyperedge]
    · intro a' b' _
      rfl
    · intro a' b'
      rw [hkp, get_vertexData_trackChange, hdt, hL.later _ fun tree => not_owns_vertexDataKey tree _]
      simp only [lastBytes, dataBytes, none_or, atomId_inj, htr]
      by_cases hab : a' = a ∧ b' = b
      · obtain ⟨rfl, rfl⟩ := hab
        simp
      · rw [if_neg hab, if_neg fun hba => hab ⟨hba.1.symm, hba.2.symm⟩]
        rfl

theorem isSome_removed {ty : AtomType} {added removed : Item} (hkey : removed.key = atomId a b)
    (hB : B' = B.bind ⟨ty, .removes, shardKeyOf c.shake a⟩ removed ∨
      B' = (B.bind ⟨ty, .adds, shardKeyOf c.shake a⟩ added).bind ⟨ty, .removes, shardKeyOf c.shake a⟩ removed)
    (a' b' : Address) : (B' ⟨ty, .removes, shardKeyOf c.shake a'⟩ (atomId a' b')).isSome =
      ((B ⟨ty, .removes, shardKeyOf c.shake a'⟩ (atomId a' b')).isSome || decide (a = a' ∧ b = b')) := by
  have hsm : ∀ B₁ : Bindings, B₁ ⟨ty, .removes, shardKeyOf c.shake a'⟩ = B ⟨ty, .removes, shardKeyOf c.shake a'⟩ →
      (B₁.bind ⟨ty, .removes, shardKeyOf c.shake a⟩ removed ⟨ty, .removes, shardKeyOf c.shake a'⟩ (atomId a' b')).isSome =
        ((B ⟨ty, .removes, shardKeyOf c.shake a'⟩ (atomId a' b')).isSome || decide (a = a' ∧ b = b')) := by
    intro B₁ hB₁
    by_cases hab : a = a' ∧ b = b'
    · obtain ⟨rfl, rfl⟩ := hab
      simp [bind_self, hkey]
    · rw [decide_eq_false hab, Bool.or_false, bind_elsewhere hkey, hB₁]
      exact fun hid => hab ⟨(atomId_inj.mp hid.2.2).1.symm, (atomId_inj.mp hid.2.2).2.symm⟩
  obtain rfl | rfl := hB
  · exact hsm B rfl
  · exact hsm _ (bind_of_ne _ _ (by simp))

theorem removed_of_ne {ty : AtomType} {s : ShardKey} {added removed : Item}
    (hB : B' = B.bind ⟨ty, .removes, s⟩ removed ∨ B' = (B.bind ⟨ty, .adds, s⟩ added).bind ⟨ty, .removes, s⟩ removed)
    {tree : TreeId} (htr : tree.setType ≠ ty) : B' tree = B tree := by
  have hne : ∀ p, tree ≠ ⟨ty, p, s⟩ := fun p heq => htr (by rw [heq])
  obtain rfl | rfl := hB
  · rw [bind_of_ne _ _ (hne _)]
  · rw [bind_of_ne _ _ (hne _), bind_of_ne _ _ (hne _)]

section
variable (h : Running c hg₀ hg txn B)
include h

section
variable {v : Vertex} (hrun : (vertexRemove v frame prior).commit c heap hg txn = .ok (heap', hg', txn', none))
include hrun

theorem Running.vertexRemove_spec : ∃ B', Running c hg₀ hg' txn' B' ∧ heap' = heap ∧
      (B' = B.bind (v.tree c .removes) v.item ∨ B' = (B.bind (v.tree c .adds) v.item).bind (v.tree c .removes) v.item) ∧
      ∀ k, (∀ tree : TreeId, ¬tree.Owns k) → (pending hg'.store txn').get k =
        ((pending hg.store txn).apply (Quilibrium.trackChange (v.tree c .removes) v.id (prior.map heap) frame)).get k := by
  obtain ⟨⟨hg₃, txn₃, err⟩, hst, heq⟩ := bind_eq_ok.mp hrun
  obtain ⟨⟨hg₁, txn₁, err₁⟩, hrem, hrs⟩ := bind_eq_ok.mp hst
  cases hc : hg.covers v.id with
  | false =>
    obtain ⟨e, hr'⟩ := h.sets.removeVertex_outside v h.read hc
    cases hrem.symm.trans hr'
    cases hrs
    cases heq
  | true =>
    obtain ⟨hg₂, txn₂, B', hr', hL, hr, hB⟩ := h.sets.removeVertex v h.read hc
    cases hrem.symm.trans hr'
    obtain ⟨txn₄, htr, h₂, hpn⟩ := (h.step hL hr).trackChange ⟨.vertex, .removes, shardKeyOf c.shake v.appAddress⟩ v.id
      (prior.map heap) frame
    simp only [htr] at hrs
    cases hrs
    cases heq
    refine ⟨B', h₂, rfl, ?_, fun k hk => ?_⟩
    · split_ifs at hB
      · exact .inl hB.1
      · exact .inr hB.1
    · rw [hpn]
      exact Db.get_apply_congr (hL.later k hk) _

theorem Running.commit_vertexRemove :
    ∃ B', Running c hg₀ hg' txn' B' ∧ heap' = (vertexRemove v frame prior).heapAfter c hg₀ heap ∧
      Changed c hg₀ [.vertexRemove v frame prior] heap B (pending hg.store txn) B' (pending hg'.store txn') := by
  obtain ⟨B', h', rfl, hB', hst⟩ := h.vertexRemove_spec hrun
  refine ⟨B', h', rfl, ?_⟩
  constructor
  · intro a b
    rw [isSome_removed rfl hB']
    simp [removesVertex]
  · intro a b
    rw [removed_of_ne hB' (by simp)]
    simp [removesHyperedge]
  · intro a b _
    rw [removed_of_ne hB' (by simp)]
    rfl
  · intro a b
    rw [hst _ fun tree => not_owns_vertexDataKey tree _, get_vertexData_trackChange]
    rfl

end

theorem Running.commit_hyperedgeAdd {extTree : Nat} (h₀ : Sets c hg₀ none B₀)
    (hrun : (hyperedgeAdd a b extTree frame prior).commit c heap hg txn = .ok (heap', hg', txn', none)) :
    ∃ B', Running c hg₀ hg' txn' B' ∧ heap' = (hyperedgeAdd a b extTree frame prior).heapAfter c hg₀ heap ∧
      Changed c hg₀ [.hyperedgeAdd a b extTree frame prior] heap B (pending hg.store txn) B' (pending hg'.store txn') := by
  obtain ⟨⟨hg₁, e', txn₁, err₁⟩, hadd, hrs⟩ := bind_eq_ok.mp hrun
  let e : Hyperedge := ⟨a, b, heap extTree⟩
  have hh : (hg.set (e.tree c .removes)).has hg.store e.id = skips c hg₀ a b := h.has_eq h₀
  cases hsk : skips c hg₀ a b with
  | true =>
    obtain ⟨hg₂, hadd', hL, hr, -⟩ := h.sets.addHyperedge_removed e h.read (hh.trans hsk)
    rw [hadd', ok.injEq, Prod.mk.injEq, Prod.mk.injEq, Prod.mk.injEq] at hadd
    obtain ⟨rfl, rfl, rfl, rfl⟩ := hadd
    obtain ⟨txn₄, htr, h₂, hkp⟩ := (h.step hL hr).trackChange ⟨.hyperedge, .adds, shardKeyOf c.shake a⟩ (atomId a b)
      (prior.map (update heap extTree (heap extTree))) frame
    simp only [e, htr, ok_bind] at hrs
    cases hrs
    refine ⟨B, h₂, by simp [heapAfter, hsk], ?_⟩
    constructor
    · simp [removesVertex]
    · simp [removesHyperedge]
    · simp [lastBytes, edgeBytes, hsk]
    · intro a' b'
      rw [hkp, get_vertexData_trackChange, hL.later _ fun tree => not_owns_vertexDataKey tree _]
      rfl
  | false =>
    cases hc : hg.covers e.id with
    | false =>
      cases hadd.symm.trans (h.sets.addHyperedge_outside e h.read hc (hh.trans hsk))
      cases hrs
    | true =>
      obtain ⟨hg₂, txn₂, hadd', hL, hr, -⟩ := h.sets.addHyperedge e h.read (hh.trans hsk) hc
      cases hadd.symm.trans hadd'
      obtain ⟨txn₄, htr, h₂, hkp⟩ := (h.step hL hr).trackChange ⟨.hyperedge, .adds, shardKeyOf c.shake a⟩ (atomId a b)
        (prior.map (update heap extTree (e.commit c.sha512 c.prover).2.extTree)) frame
      simp only [htr, ok_bind] at hrs
      cases hrs
      refine ⟨_, h₂, by simp [heapAfter, hsk, Hyperedge.commit, e], ?_⟩
      constructor
      · intro a' b'
        rw [bind_of_ne _ _ (by simp [Hyperedge.tree])]
        simp [removesVertex]
      · intro a' b'
        rw [bind_of_ne _ _ (by simp [Hyperedge.tree])]
        simp [removesHyperedge]
      · intro a' b' _
        simp only [lastBytes, edgeBytes, hsk, and_true, none_or]
        by_cases hab : a = a' ∧ b = b'
        · obtain ⟨rfl, rfl⟩ := hab
          have hsl := bind_self B (e.tree c .adds) (e.item c.sha512 c.prover)
          rw [if_pos ⟨rfl, rfl⟩, show (⟨.hyperedge, .adds, shardKeyOf c.shake a⟩ : TreeId) = e.tree c .adds from rfl, hsl]
          simp [Hyperedge.item, Hyperedge.id, e]
        · have hid : (e.item c.sha512 c.prover).key = atomId a b := rfl
          rw [if_neg hab, none_or, Hyperedge.tree, bind_elsewhere hid]
          exact fun hid => hab ⟨(atomId_inj.mp hid.2.2).1.symm, (atomId_inj.mp hid.2.2).2.symm⟩
      · intro a' b'
        rw [hkp, get_vertexData_trackChange, hL.later _ fun tree => not_owns_vertexDataKey tree _]
        rfl

theorem Running.commit_hyperedgeRemove {extTree : Nat}
    (hrun : (hyperedgeRemove a b extTree frame prior).commit c heap hg txn =
      .ok (heap', hg', txn', none)) : ∃ B', Running c hg₀ hg' txn' B' ∧
      heap' = (hyperedgeRemove a b extTree frame prior).heapAfter c hg₀ heap ∧
      Changed c hg₀ [.hyperedgeRemove a b extTree frame prior] heap B (pending hg.store txn) B' (pending hg'.store txn') := by
  obtain ⟨⟨hg₁, e', txn₁, err₁⟩, hrem, hrs⟩ := bind_eq_ok.mp hrun
  let e : Hyperedge := ⟨a, b, heap extTree⟩
  cases hc : hg.covers e.id with
  | false =>
    obtain ⟨err, hr'⟩ := h.sets.removeHyperedge_outside e h.read hc
    cases hrem.symm.trans hr'
    cases hrs
  | true =>
    obtain ⟨hg₂, txn₂, B', hr', hL, hr, hB⟩ := h.sets.removeHyperedge e h.read hc
    cases hrem.symm.trans hr'
    obtain ⟨txn₄, htr, h₂, hkp⟩ := (h.step hL hr).trackChange ⟨.hyperedge, .removes, shardKeyOf c.shake a⟩
      (atomId a b) (prior.map (update heap extTree (e.commit c.sha512 c.prover).2.extTree)) frame
    simp only [htr, ok_bind] at hrs
    cases hrs
    obtain ⟨added, removed, hkey', hkey, hB'⟩ : ∃ added removed : Item, added.key = atomId a b ∧ removed.key = atomId a b ∧
        (B' = B.bind (e.tree c .removes) removed ∨
          B' = (B.bind (e.tree c .adds) added).bind (e.tree c .removes) removed) := by
      split_ifs at hB
      · exact ⟨e.item c.sha512 c.prover, e.item c.sha512 c.prover, rfl, rfl, .inl hB.1⟩
      · exact ⟨e.item c.sha512 c.prover, _, rfl, rfl, .inr hB.1⟩
    refine ⟨B', h₂, by simp [heapAfter, Hyperedge.commit, e], ?_⟩
    constructor
    · intro a' b'
      rw [removed_of_ne hB' (by simp)]
      simp [removesVertex]
    · intro a' b'
      rw [isSome_removed hkey hB']
      simp [removesHyperedge]
    · intro a' b' hno
      have hab : ¬(a = a' ∧ b = b') := by simpa [removesHyperedge] using hno
      have hne : ¬(AtomType.hyperedge = .hyperedge ∧ shardKeyOf c.shake a' = shardKeyOf c.shake a ∧
          atomId a' b' = atomId a b) :=
        fun hid => hab ⟨(atomId_inj.mp hid.2.2).1.symm, (atomId_inj.mp hid.2.2).2.symm⟩
      obtain rfl | rfl := hB'
      · rw [Hyperedge.tree, bind_elsewhere hkey hne]
        rfl
      · rw [Hyperedge.tree, Hyperedge.tree, bind_elsewhere hkey hne, bind_elsewhere hkey' hne]
        rfl
    · intro a' b'
      rw [hkp, get_vertexData_trackChange, hL.later _ fun tree => not_owns_vertexDataKey tree _]
      rfl

theorem Running.commit {value : MaterializedState} (h₀ : Sets c hg₀ none B₀)
    (hrun : value.commit c heap hg txn = .ok (heap', hg', txn', none)) :
    ∃ B', Running c hg₀ hg' txn' B' ∧ heap' = value.heapAfter c hg₀ heap ∧
      Changed c hg₀ [value] heap B (pending hg.store txn) B' (pending hg'.store txn') := by
  cases value with
  | vertexAdd => exact h.commit_vertexAdd hrun
  | vertexRemove => exact h.commit_vertexRemove hrun
  | hyperedgeAdd => exact h.commit_hyperedgeAdd h₀ hrun
  | hyperedgeRemove => exact h.commit_hyperedgeRemove hrun

theorem Running.commitAll (h₀ : Sets c hg₀ none B₀)
    (hrun : commitAll c values heap hg txn = .ok (heap', hg', txn', none)) :
    ∃ B', Running c hg₀ hg' txn' B' ∧ Changed c hg₀ values heap B (pending hg.store txn) B' (pending hg'.store txn') := by
  induction values generalizing heap hg txn B with
  | nil =>
    cases hrun
    exact ⟨B, h, .nil⟩
  | cons value values ih =>
    obtain ⟨⟨heap₁, hg₁, txn₁, err⟩, ho, hrs⟩ := bind_eq_ok.mp hrun
    cases err with
    | some => cases hrs
    | none =>
      obtain ⟨B₁, h₁, rfl, hc⟩ := h.commit h₀ ho
      obtain ⟨B', h', hrs⟩ := ih h₁ hrs
      exact ⟨B', h', hc.cons hrs⟩

end

/-! ### What `Get` reads -/

theorem HypergraphState.copy32_bytes (a : Address) : copy32 a.bytes = a := Address.ext (List.take_left' a.length_bytes)

theorem HypergraphCRDT.toAddress_bytes (a : Address) : toAddress a.bytes = .ok a := by
  rw [toAddress, dif_pos a.length_bytes.ge]
  congr 1
  exact Address.ext (List.take_of_length_le a.length_bytes.le)

section
variable (h : Sets c hg none B)
include h

theorem Sets.getVertexData (a b : Address) :
    (hg.getVertexData c a b).2 = (if (B ⟨.vertex, .removes, shardKeyOf c.shake a⟩ (atomId a b)).isSome then
        .error ("get vertex data: " ++ ErrRemoved) else loadVertexTree hg.store (atomId a b)) ∧
      Sets c (hg.getVertexData c a b).1 none B := by
  have hst := (h.create .vertex (shardKeyOf c.shake a)).sets
  simp only [HypergraphCRDT.getVertexData, getOrCreateIdSet_eq, store_create, h.has_eq rfl (length_atomId a b)]
  split_ifs
  · exact ⟨rfl, hst⟩
  · exact ⟨rfl, hst⟩

def edgeOf : Option Bytes → Except String WireHyperedge
  | none => .error "get hyperedge: item not found"
  | some value =>
    match atomFromBytes value with
    | some (.hyperedge h) => .ok h
    | _ => .error ("get hyperedge: " ++ ErrInvalidAtomType)

theorem Sets.getNodeByKey (tree : TreeId) (hk : id.length = 64) :
    getNodeByKey hg.store tree id = .error .notFound ∧ B tree id = none ∨
      ∃ n : LeafNode, getNodeByKey hg.store tree id = .ok (.leaf n) ∧ B tree id = some n.toItem := by
  have hst := h.stores tree
  have hbc := hst.backed
  rw [h.named tree] at hbc
  rcases hb : B tree id with _ | item
  · refine .inl ⟨?_, rfl⟩
    rw [Quilibrium.getNodeByKey, show hg.store = pending hg.store none from rfl, hbc.dead id hk]
    rintro a ha rfl
    rw [hst.mem_iff.mp ha] at hb
    cases hb
  · obtain rfl := hst.key_eq hb
    obtain ⟨commitment, hlv⟩ := hbc.live item (hst.mem_iff.mpr hb)
    exact .inr ⟨⟨item, commitment⟩, by
      rw [Quilibrium.getNodeByKey, show hg.store = pending hg.store none from rfl, hlv]; rfl, rfl⟩

theorem Sets.getHyperedge (a b : Address) :
    (hg.getHyperedge c a b).2 = (if (B ⟨.hyperedge, .removes, shardKeyOf c.shake a⟩ (atomId a b)).isSome then
        .error ("get hyperedge: " ++ ErrRemoved)
        else edgeOf ((B ⟨.hyperedge, .adds, shardKeyOf c.shake a⟩ (atomId a b)).map (·.value))) ∧
      Sets c (hg.getHyperedge c a b).1 none B := by
  have hst := (h.create .hyperedge (shardKeyOf c.shake a)).sets
  simp only [HypergraphCRDT.getHyperedge, getOrCreateIdSet_eq, store_create, h.has_eq rfl (length_atomId a b), h.named]
  split_ifs
  · exact ⟨rfl, hst⟩
  · obtain ⟨hget, hb⟩ | ⟨n, hget, hb⟩ := h.getNodeByKey ⟨.hyperedge, .adds, shardKeyOf c.shake a⟩ (length_atomId a b)
    · simp only [hget, hb, map_none, edgeOf]
      exact ⟨trivial, hst⟩
    · simp only [hget, hb, map_some, edgeOf]
      rcases atomFromBytes n.value with _ | _ | _ <;> exact ⟨rfl, hst⟩

theorem Sets.getVertex (a b : Address) : Sets c (hg.getVertex c a b).1 none B := by
  have hst := (h.create .vertex (shardKeyOf c.shake a)).sets
  simp only [HypergraphCRDT.getVertex, getOrCreateIdSet_eq, store_create, h.has_eq rfl (length_atomId a b)]
  split_ifs
  · exact hst
  · split
    · exact hst
    · split <;> exact hst

end

/-! ### The state -/

namespace HypergraphState

inductive Call where
  | set (domain address : Bytes) (discriminator : Discriminator) (value : MaterializedState)
  | delete (domain address : Bytes) (discriminator : Discriminator) (frameNumber : Nat)

def Call.apply (c : Crypto) (s : HypergraphState) : Call → Except Fault HypergraphState
  | .set domain address discriminator value => .ok (s.set c domain address discriminator value).1
  | .delete domain address discriminator frameNumber => do
    let (s, _) ← s.delete c domain address discriminator frameNumber
    .ok s

def calls (c : Crypto) (s : HypergraphState) (l : List Call) : Except Fault HypergraphState := l.foldlM (Call.apply c) s

/-- `Commit` leaves what `Get` finds in the hypergraph for the atom with these addresses. -/
def Stands (c : Crypto) (s : HypergraphState) (a b : Address) : Discriminator → Prop
  | .vertexAdds =>
    (s.hypergraph.set ⟨.vertex, .removes, shardKeyOf c.shake a⟩).has s.hypergraph.store (atomId a b) = true ∨
      ((s.changeset.map (·.value)).any (·.removesVertex a b) = false ∧
        ∀ data, MaterializedState.lastBytes c s.hypergraph (MaterializedState.dataBytes c a b)
            (s.changeset.map (·.value)) s.heap = some data →
          loadVertexTree (OrdMap.set s.hypergraph.store (hypergraphVertexDataKey (atomId a b)) (.data data)) (atomId a b) =
            loadVertexTree s.hypergraph.store (atomId a b))
  | .hyperedgeAdds =>
    (s.hypergraph.set ⟨.hyperedge, .removes, shardKeyOf c.shake a⟩).has s.hypergraph.store (atomId a b) = true ∨
      ((s.changeset.map (·.value)).any (·.removesHyperedge a b) = false ∧
        ∀ bytes, MaterializedState.lastBytes c s.hypergraph (MaterializedState.edgeBytes c s.hypergraph a b)
            (s.changeset.map (·.value)) s.heap = some bytes →
          edgeOf (some bytes) = (s.hypergraph.getHyperedge c a b).2)
  | _ => True

/-- What a call leaves: sets of a shard may have been created, and unless there is an error a change is appended. -/
inductive Called (c : Crypto) (s : HypergraphState) (domain : Bytes) : HypergraphState → Option String → Prop
  | refused {hg : HypergraphCRDT} (hs : ∀ B, Sets c s.hypergraph none B → Sets c hg none B) (err : String) :
    Called c s domain { s with hypergraph := hg } (some err)
  | appended {hg : HypergraphCRDT} (hs : ∀ B, Sets c s.hypergraph none B → Sets c hg none B) (heap : Heap) (next : Nat)
    {change : StateChange} (hd : change.domain = domain) :
    Called c s domain ⟨hg, s.changeset ++ [change], heap, next⟩ none

theorem Called.sets {err : Option String} (h : s.Called c domain s' err) (hst : Sets c s.hypergraph none B) :
    Sets c s'.hypergraph none B := by
  cases h with
  | refused hs | appended hs => exact hs B hst

theorem called_set (domain address : Bytes) (d : Discriminator) (value : MaterializedState) :
    s.Called c domain (s.set c domain address d value).1 (s.set c domain address d value).2 := by
  unfold HypergraphState.set
  split
  · have hs := fun B (h : Sets c s.hypergraph none B) => h.getVertex (copy32 domain) (copy32 address)
    generalize s.hypergraph.getVertex c _ _ = found at hs ⊢
    obtain ⟨hg', err | v⟩ := found
    · dsimp only
      split_ifs
      · exact .refused hs _
      · exact .appended hs _ _ rfl
    · exact .appended hs _ _ rfl
  · have hs := fun B (h : Sets c s.hypergraph none B) => (h.getHyperedge (copy32 domain) (copy32 address)).2
    generalize s.hypergraph.getHyperedge c _ _ = found at hs ⊢
    obtain ⟨hg', err | e⟩ := found
    · dsimp only
      split_ifs
      · exact .refused hs _
      · exact .appended hs _ _ rfl
    · exact .appended hs _ _ rfl
  · exact .refused (fun _ => id) _

theorem called_delete {d : Discriminator} {err : Option String}
    (hrun : s.delete c domain address d frame = .ok (s', err)) : s.Called c domain s' err := by
  unfold HypergraphState.delete at hrun
  split at hrun
  · have hs := fun B (h : Sets c s.hypergraph none B) => h.getVertex (copy32 domain) (copy32 address)
    generalize s.hypergraph.getVertex c _ _ = found at hrun hs
    obtain ⟨hg', err | v⟩ := found
    · cases hrun
      exact .refused hs _
    · dsimp only at hrun hs
      replace hs := fun B h => ((hs B h).getVertexData (copy32 domain) (copy32 address)).2
      generalize hg'.getVertexData c _ _ = found at hrun hs
      obtain ⟨hg'', err | data⟩ := found
      · cases hrun
        exact .refused hs _
      · obtain ⟨a, -, hrun⟩ := bind_eq_ok.mp hrun
        obtain ⟨b, -, hrun⟩ := bind_eq_ok.mp hrun
        cases hrun
        exact .appended hs _ _ rfl
  · have hs := fun B (h : Sets c s.hypergraph none B) => (h.getHyperedge (copy32 domain) (copy32 address)).2
    generalize s.hypergraph.getHyperedge c _ _ = found at hrun hs
    obtain ⟨hg', err | e⟩ := found
    · cases hrun
      exact .refused hs _
    · dsimp only at hrun
      split at hrun
      · cases hrun
      · cases hrun
        exact .appended hs _ _ rfl
  · cases hrun
    exact .refused (fun _ => id) _

end HypergraphState

section
variable (h : Sets c s.hypergraph none B)
include h

theorem Sets.calls {l : List HypergraphState.Call} (hrun : s.calls c l = .ok s') : Sets c s'.hypergraph none B := by
  induction l generalizing s with
  | nil =>
    cases hrun
    exact h
  | cons call l ih =>
    obtain ⟨s₁, ho, hrs⟩ := bind_eq_ok.mp hrun
    refine ih ?_ hrs
    cases call with
    | set domain address d value =>
      cases ho
      exact (called_set ..).sets h
    | delete domain address d frame =>
      obtain ⟨⟨s₂, err⟩, hd, heq⟩ := bind_eq_ok.mp ho
      cases heq
      exact (called_delete hd).sets h

theorem Sets.commitState {fuel : Nat} (hfl : pathLength 64 < fuel) (hrun : s.commit c fuel = .ok (s', none)) :
    s'.changeset = s.changeset ∧ ∃ B', Sets c s'.hypergraph none B' ∧
      Changed c s.hypergraph (s.changeset.map (·.value)) s.heap B s.hypergraph.store B' s'.hypergraph.store := by
  obtain ⟨⟨heap, hg, txn, err⟩, hall, hrs⟩ := bind_eq_ok.mp hrun
  cases err with
  | some => cases hrs
  | none =>
    obtain ⟨B', hend, hc⟩ := h.running.commitAll h hall
    obtain ⟨hg', hcm, hL, -⟩ := hend.sets.commitTxn.commit hfl
    obtain ⟨hg'', hc', heq⟩ := bind_eq_ok.mp hrs
    cases hcm.symm.trans hc'
    cases heq
    refine ⟨rfl, B', hL.sets, hc.vertexRemoves, hc.hyperedgeRemoves, hc.hyperedges, fun a b => ?_⟩
    rw [hL.now _ fun tree => not_owns_vertexDataKey tree _]
    exact hc.data a b

end

theorem loadVertexTree_ne_removed (db : Db) (id : Bytes) :
    loadVertexTree db id ≠ .error ("get vertex data: " ++ ErrRemoved) := by
  unfold loadVertexTree
  split
  · simp [ErrRemoved]
  · split
    · simp
    · intro h
      rw [error.injEq, ← String.toList_inj, String.toList_append, String.toList_append] at h
      simp at h
  · simp [ErrRemoved]

theorem edgeOf_ne_removed (value : Option Bytes) : edgeOf value ≠ .error ("get hyperedge: " ++ ErrRemoved) := by
  unfold edgeOf
  split
  · simp [ErrRemoved]
  · split
    · simp
    · simp [ErrRemoved, ErrInvalidAtomType]

theorem loadVertexTree_congr {db' : Db}
    (h : db.get (hypergraphVertexDataKey id) = db'.get (hypergraphVertexDataKey id)) :
    loadVertexTree db id = loadVertexTree db' id := by
  rw [loadVertexTree, loadVertexTree, h]

section
variable {hg : HypergraphCRDT} (h : Sets c hg none B)
include h

theorem Sets.getVertexData_commit (h' : Sets c hg' none B') (hc : Changed c hg values heap B hg.store B' hg'.store) :
    (hg.getVertexData c a b).2 = (hg'.getVertexData c a b).2 ↔
      (hg.set ⟨.vertex, .removes, shardKeyOf c.shake a⟩).has hg.store (atomId a b) = true ∨
        (values.any (·.removesVertex a b) = false ∧ ∀ data, lastBytes c hg (dataBytes c a b) values heap = some data →
            loadVertexTree (OrdMap.set hg.store (hypergraphVertexDataKey (atomId a b)) (.data data)) (atomId a b) =
              loadVertexTree hg.store (atomId a b)) := by
  rw [(h.getVertexData a b).1, (h'.getVertexData a b).1, hc.vertexRemoves, h.has_eq rfl (length_atomId a b)]
  cases (B ⟨.vertex, .removes, shardKeyOf c.shake a⟩ (atomId a b)).isSome with
  | true => simp
  | false =>
    cases values.any (·.removesVertex a b) with
    | true => simpa using loadVertexTree_ne_removed _ _
    | false =>
      have hdt := hc.data a b
      cases hls : lastBytes c hg (dataBytes c a b) values heap with
      | none =>
        rw [hls] at hdt
        simpa using (loadVertexTree_congr hdt).symm
      | some data =>
        rw [hls] at hdt
        have hld : loadVertexTree hg'.store (atomId a b) =
            loadVertexTree (OrdMap.set hg.store (hypergraphVertexDataKey (atomId a b)) (.data data)) (atomId a b) :=
          loadVertexTree_congr (by rw [hdt, OrdMap.get_set, if_pos rfl]; rfl)
        simp [hld, eq_comm]

theorem Sets.getHyperedge_commit (h' : Sets c hg' none B') (hc : Changed c hg values heap B hg.store B' hg'.store) :
    (hg.getHyperedge c a b).2 = (hg'.getHyperedge c a b).2 ↔
      (hg.set ⟨.hyperedge, .removes, shardKeyOf c.shake a⟩).has hg.store (atomId a b) = true ∨
        (values.any (·.removesHyperedge a b) = false ∧
          ∀ bytes, lastBytes c hg (edgeBytes c hg a b) values heap = some bytes →
            edgeOf (some bytes) = (hg.getHyperedge c a b).2) := by
  rw [(h.getHyperedge a b).1, (h'.getHyperedge a b).1, hc.hyperedgeRemoves, h.has_eq rfl (length_atomId a b)]
  cases (B ⟨.hyperedge, .removes, shardKeyOf c.shake a⟩ (atomId a b)).isSome with
  | true => simp
  | false =>
    cases hno : values.any (·.removesHyperedge a b) with
    | true => simpa using edgeOf_ne_removed _
    | false =>
      rw [hc.hyperedges a b hno]
      cases lastBytes c hg (edgeBytes c hg a b) values heap with
      | none => simp
      | some bytes => simp [eq_comm]

end

def HypergraphState.Got.wrap {α : Type} (f : α → Got) : Except String α → Except String Got
  | .error err => .error ("get: " ++ err)
  | .ok a => .ok (f a)

theorem HypergraphState.Got.wrap_inj {α : Type} {f : α → Got} (hf : Injective f) {r r' : Except String α} :
    Got.wrap f r = Got.wrap f r' ↔ r = r' := by
  rcases r with err | a <;> rcases r' with err' | a' <;> simp [Got.wrap, hf.eq_iff]

theorem HypergraphState.get_vertex (h : s.lastChange domain address .vertexAdds = none) :
    (s.get c domain address .vertexAdds).2 =
      Got.wrap .data (s.hypergraph.getVertexData c (copy32 domain) (copy32 address)).2 := by
  rw [get, h]
  rcases s.hypergraph.getVertexData c _ _ with ⟨_, _ | _⟩ <;> rfl

theorem HypergraphState.get_hyperedge (h : s.lastChange domain address .hyperedgeAdds = none) :
    (s.get c domain address .hyperedgeAdds).2 =
      Got.wrap .hyperedge (s.hypergraph.getHyperedge c (copy32 domain) (copy32 address)).2 := by
  rw [get, h]
  rcases s.hypergraph.getHyperedge c _ _ with ⟨_, _ | _⟩ <;> rfl

end

/-! ### A vertex that is deleted -/

namespace HypergraphState

def zeroBytes : Bytes := Address.zero.bytes

def vacant : HypergraphState := .new (.new OrdMap.empty []) (fun _ => ⟨.nil⟩) 1

def setZero : Call := .set zeroBytes zeroBytes .vertexAdds (.vertexAdd .zero .zero 1 none 0)

def withVertex : Except Fault HypergraphState := do
  let s ← vacant.calls Crypto.plain [setZero]
  let (s, _) ← s.commit Crypto.plain treeFuel
  .ok (.new s.hypergraph s.heap s.next)

end HypergraphState

end Quilibrium
