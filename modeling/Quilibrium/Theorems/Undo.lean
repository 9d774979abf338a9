import Quilibrium.Theorems.Convergence
import Quilibrium.Theorems.ChangeRecords
import Quilibrium.Theorems.Collection

/-! What `revert` undoes of a frame: `RevertChanges` reads the change records of one shard and never writes vertex data. -/

namespace Quilibrium
open Radix Function Except List HypergraphCRDT HypergraphState OrdMap HypergraphExecutionEngine

/-! ### Bindings -/

/-- `B'` binds these ids in one set and is `B` elsewhere. -/
structure Bindings.Extends (B B' : Bindings) (tree : TreeId) (ids : List Bytes) : Prop where
  other : ∀ tree', tree' ≠ tree → B' tree' = B tree'
  bound : ∀ id ∈ ids, B' tree id ≠ none
  rest : ∀ id ∉ ids, B' tree id = B tree id

section
variable {c : Crypto} {B B' : Bindings} {tree : TreeId} {ids ids' : List Bytes} {id : Bytes} {new : Item}

theorem Bindings.extends_nil : B.Extends B tree [] := ⟨fun _ _ => rfl, nofun, fun _ _ => rfl⟩

theorem Bindings.Extends.eq (h : B.Extends B' tree []) : B' = B := by
  funext tree' id
  by_cases htr : tree' = tree
  · rw [htr, h.rest id not_mem_nil]
  · rw [h.other tree' htr]

theorem Bindings.Extends.congr (h : B.Extends B' tree ids) (hids : ∀ id, id ∈ ids ↔ id ∈ ids') : B.Extends B' tree ids' :=
  ⟨h.other, fun id hid => h.bound id ((hids id).mpr hid), fun id hid => h.rest id fun hm => hid ((hids id).mp hm)⟩

theorem Bindings.Extends.bind (h : B.Extends B' tree ids) (new : Item) :
    B.Extends (B'.bind tree new) tree (ids ++ [new.key]) where
  other tree' hne := by rw [B'.bind_of_ne new hne, h.other tree' hne]
  bound id hid := by
    rw [B'.bind_self tree new]
    split_ifs with hkey
    · exact Option.some_ne_none new
    · exact h.bound id ((mem_append.mp hid).resolve_right fun hm => hkey (mem_singleton.mp hm))
  rest id hid := by
    rw [mem_append, mem_singleton, not_or] at hid
    rw [B'.bind_self tree new, if_neg hid.2, h.rest id hid.1]

theorem Bindings.Extends.unbind (h : B.Extends B' tree (id :: ids)) (hid : id ∉ ids) (hnn : B tree id = none) :
    B.Extends (B'.unbind tree id) tree ids where
  other tree' hne := by rw [B'.unbind_of_ne id hne, h.other tree' hne]
  bound id' hid' := by
    have hne : id' ≠ id := fun heq => hid (heq ▸ hid')
    rw [B'.unbind_self tree id, if_neg hne]
    exact h.bound id' (mem_cons_of_mem id hid')
  rest id' hid' := by
    rw [B'.unbind_self tree id]
    split_ifs with heq
    · rw [heq, hnn]
    · exact h.rest id' fun hm => (mem_cons.mp hm).elim heq hid'

end

/-! ### Reading the vertex -/

section
variable {c : Crypto} {hg : HypergraphCRDT} {B : Bindings} {s s' : HypergraphState}

theorem Sets.getVertex_ok (h : Sets c hg none B) {a b : Address} {v : Vertex} (hget : (hg.getVertex c a b).2 = .ok v) :
    B ⟨.vertex, .removes, shardKeyOf c.shake a⟩ (atomId a b) = none ∧
      ∃ item, B ⟨.vertex, .adds, shardKeyOf c.shake a⟩ (atomId a b) = some item ∧
        atomFromBytes item.value = some (.vertex v) := by
  have hne : atomId a b ≠ [] := ne_nil_of_length_eq_add_one (length_atomId a b)
  simp only [HypergraphCRDT.getVertex, getOrCreateIdSet_eq, store_create, h.has_eq rfl (length_atomId a b),
    LazyVectorCommitmentTree.get, if_neg hne, h.named] at hget
  split_ifs at hget with hr
  refine ⟨Option.not_isSome_iff_eq_none.mp hr, ?_⟩
  obtain ⟨hnd, -⟩ | ⟨n, hnd, hbn⟩ := h.getNodeByKey ⟨.vertex, .adds, shardKeyOf c.shake a⟩ (length_atomId a b)
  · rw [hnd] at hget
    cases hget
  · refine ⟨n.toItem, hbn, ?_⟩
    rw [hnd] at hget
    dsimp only at hget
    rcases ham : atomFromBytes n.value with _ | v' | e
    · rw [ham] at hget
      cases hget
    · rw [ham] at hget
      cases hget
      rfl
    · rw [ham] at hget
      cases hget

theorem HypergraphState.delete_vertex_ok {a b : Address} {frame : Nat}
    (hr : s.delete c a.bytes b.bytes .vertexRemoves frame = .ok (s', none)) :
    ∃ v data, (s.hypergraph.getVertex c a b).2 = .ok v ∧
      ((s.hypergraph.getVertex c a b).1.getVertexData c a b).2 = .ok data ∧
      s' = (allocate { s with hypergraph := ((s.hypergraph.getVertex c a b).1.getVertexData c a b).1 } data).append a.bytes
        b.bytes .vertexRemoves .delete (.vertexRemove ⟨a, b, v.commitment, v.size, v.size_lt⟩ frame (some s.next)) := by
  unfold delete at hr
  rw [copy32_bytes, copy32_bytes] at hr
  generalize s.hypergraph.getVertex c a b = found at hr ⊢
  obtain ⟨hg₁, err | v⟩ := found
  · cases hr
  · dsimp only at hr ⊢
    generalize hg₁.getVertexData c a b = found at hr ⊢
    obtain ⟨hg₂, err | data⟩ := found
    · cases hr
    · rw [toAddress_bytes, toAddress_bytes] at hr
      cases hr
      exact ⟨v, data, rfl, rfl, rfl⟩

end

/-! ### Committing removals -/

abbrev Removal := Vertex × Nat

def Removal.value (frame : Nat) (x : Removal) : MaterializedState := .vertexRemove x.1 frame (some x.2)

def removesOf (c : Crypto) (app : Address) : TreeId := ⟨.vertex, .removes, shardKeyOf c.shake app⟩

def recordsOf (c : Crypto) (app : Address) (frame : Nat) (heap : Heap) (xs : List Removal) : List Write :=
  xs.flatMap fun x => trackChange (removesOf c app) x.1.id (some (heap x.2)) frame

/-- The vertex of the app was in the adds set only, and its old data can be read from a record. -/
structure Removal.Live (c : Crypto) (B : Bindings) (app : Address) (heap : Heap) (x : Removal) : Prop where
  app : x.1.appAddress = app
  added : B (x.1.tree c .adds) x.1.id = some x.1.item
  fresh : B (x.1.tree c .removes) x.1.id = none
  decodes : Decodes (some (heap x.2))

section
variable {c : Crypto} {hg₀ hg hg' : HypergraphCRDT} {txn txn' : Txn} {B B₁ : Bindings} {app : Address} {frame : Nat}
  {heap heap' : Heap} {xs : List Removal} {ids : List Bytes} {s s' : HypergraphState} {fuel : Nat}

theorem mem_recordsOf {w : Write} (h : w ∈ recordsOf c app frame heap xs) :
    ∃ x ∈ xs, w = .set (hypergraphChangeRecordKey (removesOf c app) frame x.1.id) (.data (serializeNonLazyTree (heap x.2))) := by
  obtain ⟨x, hx, hw⟩ := mem_flatMap.mp h
  exact ⟨x, hx, mem_singleton.mp hw⟩

theorem vertexDataKey_ne_changeRecordKey {tree : TreeId} {id id' : Bytes} :
    hypergraphVertexDataKey id ≠ hypergraphChangeRecordKey tree frame id' := by
  intro heq
  simp only [hypergraphVertexDataKey, hypergraphChangeRecordKey, shardRecordKey, cons.injEq, true_and] at heq
  exact tree.changeType_ne_vertexData heq.1.symm

theorem Running.commitAll_removals (h : Running c hg₀ hg txn B₁) (hext : B.Extends B₁ (removesOf c app) ids)
    (hlv : ∀ x ∈ xs, x.Live c B app heap)
    (hr : MaterializedState.commitAll c (xs.map (·.value frame)) heap hg txn = .ok (heap', hg', txn', none)) :
    ∃ B₂, Running c hg₀ hg' txn' B₂ ∧ B.Extends B₂ (removesOf c app) (ids ++ xs.map (·.1.id)) ∧ heap' = heap ∧
      ∀ k, (∀ tree : TreeId, ¬tree.Owns k) →
        (pending hg'.store txn').get k = ((pending hg.store txn).apply (recordsOf c app frame heap xs)).get k := by
  induction xs generalizing hg txn B₁ ids with
  | nil =>
    cases hr
    exact ⟨B₁, h, by rwa [map_nil, append_nil], rfl, fun _ _ => rfl⟩
  | cons x xs ih =>
    obtain ⟨⟨heap₁, hg₁, txn₁, err⟩, ho, hrs⟩ := bind_eq_ok.mp hr
    cases err with
    | some => cases hrs
    | none =>
      obtain ⟨B₂, h₂, rfl, hB₂, hst⟩ := h.vertexRemove_spec ho
      obtain ⟨hx, hxs⟩ := forall_mem_cons.mp hlv
      have htr : x.1.tree c .removes = removesOf c app := by rw [Vertex.tree, removesOf, hx.app]
      -- the vertex is in the adds set already, so that it does not matter whether it is added first
      have had : B₁.bind (x.1.tree c .adds) x.1.item = B₁ := by
        refine Bindings.bind_eq_self ?_
        rw [hext.other _ (by simp [Vertex.tree, removesOf])]
        exact hx.added
      rw [had, or_self, htr] at hB₂
      have hext₂ := hext.bind x.1.item
      rw [← hB₂] at hext₂
      obtain ⟨B₃, h₃, hext₃, rfl, hrs⟩ := ih h₂ hext₂ hxs hrs
      refine ⟨B₃, h₃, ?_, rfl, fun k hk => ?_⟩
      · rwa [append_assoc] at hext₃
      · rw [hrs k hk, recordsOf, recordsOf, flatMap_cons, Db.apply_append]
        rw [htr] at hst
        exact Db.get_apply_congr (hst k hk) _

theorem HypergraphState.commit_removals (hv : s.changeset.map (·.value) = xs.map (·.value frame))
    (hst : Sets c s.hypergraph none B₁) (hext : B.Extends B₁ (removesOf c app) ids)
    (hlv : ∀ x ∈ xs, x.Live c B app s.heap) (hfl : pathLength 64 < fuel) (hr : s.commit c fuel = .ok (s', none)) :
    s'.changeset = s.changeset ∧ s'.heap = s.heap ∧
      (∃ B₂, Sets c s'.hypergraph none B₂ ∧ B.Extends B₂ (removesOf c app) (ids ++ xs.map (·.1.id))) ∧
      ∀ k, (∀ tree : TreeId, ¬tree.Owns k) →
        s'.hypergraph.store.get k = (s.hypergraph.store.apply (recordsOf c app frame s.heap xs)).get k := by
  obtain ⟨⟨heap, hg, txn, err⟩, hall, hrs⟩ := bind_eq_ok.mp hr
  cases err with
  | some => cases hrs
  | none =>
    rw [hv] at hall
    obtain ⟨B₂, hend, hext₂, rfl, hse⟩ := hst.running.commitAll_removals hext hlv hall
    obtain ⟨hg', hcom, hL, -⟩ := hend.sets.commitTxn.commit hfl
    obtain ⟨hg'', hc', heq⟩ := bind_eq_ok.mp hrs
    cases hcom.symm.trans hc'
    cases heq
    refine ⟨rfl, rfl, ⟨B₂, hL.sets, hext₂⟩, fun k hk => ?_⟩
    rw [hL.now k hk]
    exact hse k hk

end

/-! ### A frame of removals -/

/-- A state in which the removals `xs` are pending and committed, over a store `db` whose sets had the bindings `B`. -/
structure Undoable (c : Crypto) (B : Bindings) (db : Db) (app : Address) (frame : Nat) (xs : List Removal)
    (s : HypergraphState) : Prop where
  values : s.changeset.map (·.value) = xs.map (·.value frame)
  sets : ∃ B', Sets c s.hypergraph none B' ∧ B.Extends B' (removesOf c app) (xs.map (·.1.id))
  live : ∀ x ∈ xs, x.Live c B app s.heap
  kept : ∀ k, (∀ tree : TreeId, ¬tree.Owns k) →
    (∀ x ∈ xs, k ≠ hypergraphChangeRecordKey (removesOf c app) frame x.1.id) → s.hypergraph.store.get k = db.get k
  records : ∀ x ∈ xs, ∃ value,
    s.hypergraph.store.get (hypergraphChangeRecordKey (removesOf c app) frame x.1.id) = some value ∧
      Recorded (removesOf c app) frame (hypergraphChangeRecordKey (removesOf c app) frame x.1.id, value)

/-- What is in the adds sets is what the vertices there are stored as. -/
def Bindings.Encoded (c : Crypto) (B : Bindings) : Prop :=
  ∀ a b item v, B ⟨.vertex, .adds, shardKeyOf c.shake a⟩ (atomId a b) = some item →
    atomFromBytes item.value = some (.vertex v) → item = Vertex.item ⟨a, b, v.commitment, v.size, v.size_lt⟩

section
variable {c : Crypto} {B B₁ : Bindings} {db : Db} {app : Address} {frame fuel : Nat} {xs ys : List Removal}
  {s s₁ s' : HypergraphState} {ids : List Bytes}

theorem Undoable.onlyRead (h : Undoable c B db app frame xs s) (hrd : s.OnlyRead c s') : Undoable c B db app frame xs s' := by
  obtain ⟨B', hst, hext⟩ := h.sets
  refine ⟨by rw [hrd.untouched.changeset, h.values], ⟨B', hrd.staged.sets hst, hext⟩, fun x hx => ?_, fun k hk hne => ?_,
    fun x hx => ?_⟩
  · have hvl : x.value frame ∈ s.changeset.map (·.value) := by
      rw [h.values]
      exact mem_map_of_mem hx
    obtain ⟨change, hcha, heq⟩ := mem_map.mp hvl
    have hhp : s'.heap x.2 = s.heap x.2 :=
      hrd.untouched.trees change hcha x.2 (by rw [heq]; exact mem_singleton_self x.2)
    obtain ⟨happ, had, hfr, hd⟩ := h.live x hx
    exact ⟨happ, had, hfr, by rwa [hhp]⟩
  · rw [hrd.untouched.contents.store]
    exact h.kept k hk hne
  · rw [hrd.untouched.contents.store]
    exact h.records x hx

theorem recorded_apply {store : Db} {heap : Heap} (hlv : ∀ x ∈ xs, x.Live c B app heap) {x : Removal} (hx : x ∈ xs) :
    ∃ value, (store.apply (recordsOf c app frame heap xs)).get
        (hypergraphChangeRecordKey (removesOf c app) frame x.1.id) = some value ∧
      Recorded (removesOf c app) frame (hypergraphChangeRecordKey (removesOf c app) frame x.1.id, value) := by
  have hr : ∀ y ∈ xs, Recorded (removesOf c app) frame
      (hypergraphChangeRecordKey (removesOf c app) frame y.1.id, .data (serializeNonLazyTree (heap y.2))) :=
    fun y hy => ⟨y.1.id, some (heap y.2), rfl, (hlv y hy).decodes⟩
  refine Db.apply_inv_of_mem
    (P := fun db => ∃ value, db.get (hypergraphChangeRecordKey (removesOf c app) frame x.1.id) = some value ∧
      Recorded (removesOf c app) frame (hypergraphChangeRecordKey (removesOf c app) frame x.1.id, value))
    (mem_flatMap.mpr ⟨x, hx, mem_singleton_self _⟩) (fun db => ?_) fun db w hw hget => ?_
  · exact ⟨_, (get_set ..).trans (if_pos rfl), hr x hx⟩
  · obtain ⟨y, hy, rfl⟩ := mem_recordsOf hw
    by_cases hid : y.1.id = x.1.id
    · rw [← hid]
      exact ⟨_, (get_set ..).trans (if_pos rfl), hr y hy⟩
    · have hne : hypergraphChangeRecordKey (removesOf c app) frame x.1.id ≠
          hypergraphChangeRecordKey (removesOf c app) frame y.1.id := fun heq => hid (changeRecordKey_inj heq).symm
      obtain ⟨value, hvl, hrec⟩ := hget
      exact ⟨value, ((get_set ..).trans (if_neg hne)).trans hvl, hrec⟩

section
variable (h : Undoable c B db app frame xs s)
include h

theorem Undoable.commit (hfl : pathLength 64 < fuel) (hr : s₁.commit c fuel = .ok (s', none))
    (hrd : s₁.hypergraph.store = s.hypergraph.store)
    (hse : ∀ B', Sets c s.hypergraph none B' → Sets c s₁.hypergraph none B')
    (hv : s₁.changeset.map (·.value) = (xs ++ ys).map (·.value frame))
    (hlv : ∀ x ∈ xs ++ ys, x.Live c B app s₁.heap) : Undoable c B db app frame (xs ++ ys) s' := by
  obtain ⟨B', hst', hext⟩ := h.sets
  obtain ⟨hcs, hhp, ⟨B₂, hst₂, hext₂⟩, hst⟩ := commit_removals hv (hse B' hst') hext hlv hfl hr
  refine ⟨by rw [hcs, hv], ⟨B₂, hst₂, hext₂.congr ?_⟩, by rwa [hhp], fun k hk hne => ?_, fun x hx => ?_⟩
  · intro id
    simp only [map_append, mem_append]
    tauto
  · rw [hst k hk, Db.get_apply_of_untouched, hrd, h.kept k hk fun x hx => hne x (mem_append_left _ hx)]
    rintro w hw rfl
    obtain ⟨x, hx, rfl⟩ := mem_recordsOf hw
    exact hne x hx rfl
  · rw [hst _ fun tree => not_owns_changeRecordKey _ tree frame _]
    exact recorded_apply hlv hx

theorem Undoable.recommit (hfl : pathLength 64 < fuel) (hr : s.commit c fuel = .ok (s', none)) :
    Undoable c B db app frame xs s' := by
  rw [← append_nil xs]
  refine h.commit hfl hr rfl (fun _ => id) ?_ ?_
  · rw [append_nil, h.values]
  · rw [append_nil]
    exact h.live

theorem Undoable.delete (henc : B.Encoded c)
    (hd : ∀ id data, loadVertexTree db id = .ok data → Decodes (some data)) {b : Address}
    (hdlt : s.delete c app.bytes b.bytes .vertexRemoves frame = .ok (s₁, none)) (hfl : pathLength 64 < fuel)
    (hrun : s₁.commit c fuel = .ok (s', none)) : ∃ x, Undoable c B db app frame (xs ++ [x]) s' := by
  obtain ⟨v, data, hve, hdt, rfl⟩ := delete_vertex_ok hdlt
  obtain ⟨B', hst, hext⟩ := h.sets
  obtain ⟨hr, item, him, ham⟩ := hst.getVertex_ok hve
  have hrd : s.OnlyRead c
      { s with hypergraph := ((s.hypergraph.getVertex c app b).1.getVertexData c app b).1 } :=
    (OnlyRead.getVertex app b).trans
      (.getVertexData (s := { s with hypergraph := (s.hypergraph.getVertex c app b).1 }) app b)
  let v' : Vertex := ⟨app, b, v.commitment, v.size, v.size_lt⟩
  -- the vertex was not removed in this frame, so what is read of it was there before
  have hid : v'.id ∉ xs.map (·.1.id) := fun hm => hext.bound _ hm hr
  have had : B (v'.tree c .adds) v'.id = some v'.item := by
    have hb : B (v'.tree c .adds) v'.id = some item := by
      rw [← hext.other _ (by simp [Vertex.tree, removesOf])]
      exact him
    rw [hb, henc app b item v hb ham]
  have hfr : B (v'.tree c .removes) v'.id = none := (hext.rest _ hid).symm.trans hr
  have hld : loadVertexTree db v'.id = .ok data := by
    have hfn := hst.getVertex app b
    rw [(hfn.getVertexData app b).1, hr, if_neg (by simp),
      (OnlyRead.getVertex (c := c) (s := s) app b).untouched.contents.store] at hdt
    rw [← hdt]
    refine loadVertexTree_congr (h.kept _ (fun tree => not_owns_vertexDataKey tree _) fun x _ heq => ?_).symm
    exact vertexDataKey_ne_changeRecordKey heq
  refine ⟨(v', s.next), h.commit hfl hrun hrd.untouched.contents.store (fun B' hB' => hrd.staged.sets hB') ?_ ?_⟩
  · rw [append, map_append, map_append]
    exact congrArg (· ++ [Removal.value frame (v', s.next)]) h.values
  · have hhp : ∀ p, Decodes (some (s.heap p)) → Decodes (some (update s.heap s.next data p)) := by
      intro p hp
      rw [update_apply]
      split_ifs
      · exact hd _ _ hld
      · exact hp
    intro x hx
    rcases mem_append.mp hx with hx | hx
    · obtain ⟨happ, had, hfr, ho⟩ := h.live x hx
      exact ⟨happ, had, hfr, hhp x.2 ho⟩
    · obtain rfl := mem_singleton.mp hx
      refine ⟨rfl, had, hfr, ?_⟩
      change Decodes (some (update s.heap s.next data s.next))
      rw [update_self]
      exact hd _ _ hld

end

end

/-! ### The engines -/

section
variable {Data : Type}

/-- The request removes a vertex of the app, or it is not for the hypergraph engine. -/
def MessageRequest.Removes (app : Address) (request : MessageRequest (HypergraphOperation Data)) : Prop :=
  HypergraphExecutionEngine.isHypergraphOp request.kind = true →
    request.kind = .vertexRemove ∧ ∃ dataAddress signature, request.payload = .vertexRemove app dataAddress signature

/-- Bundles go to the hypergraph engine and only remove vertices of the app, or they are skipped because their cost
    cannot be determined. -/
def BlockEnv.OnlyRemoves (env : BlockEnv (HypergraphOperation Data)) (frame : Nat) (app : Address)
    (requests : List (MessageBundle (HypergraphOperation Data))) (s : HypergraphState) : Prop :=
  ∀ bundle ∈ requests, (∃ err, env.getCost (.bundle (some bundle)) = .ok (.error err)) ∨
    ((∃ s', env.route frame app.bytes s = .ok (s', .ok .hypergraph)) ∧
      ∀ request ∈ bundle.requests.reduceOption, request.Removes app)

/-- The committed state before a frame. What was written to it can be read. -/
structure BlockEnv.Committed (env : BlockEnv (HypergraphOperation Data)) (B : Bindings) (s : HypergraphState) : Prop where
  /-- The operations of the hypergraph engine are those of the hypergraph intrinsic. -/
  intrinsic : ∃ (h : HypergraphIntrinsic Data) (deploy : Intrinsics (HypergraphOperation Data)),
    h.crypto = env.execution.crypto ∧ env.execution.hypergraph = h.intrinsics deploy
  fuel : pathLength 64 < env.execution.fuel
  sets : Sets env.execution.crypto s.hypergraph none B
  encoded : B.Encoded env.execution.crypto
  decodes : ∀ id data, loadVertexTree s.hypergraph.store id = .ok data → Decodes (some data)

variable {env : BlockEnv (HypergraphOperation Data)} {B : Bindings} {app : Address} {frame : Nat} {xs : List Removal}
  {s₀ s s₁ s' : HypergraphState} {feeMultiplier : Int}

/-- In a frame of removals the state before an operation, a bundle or the end. -/
def BlockEnv.Undoes (env : BlockEnv (HypergraphOperation Data)) (B : Bindings) (app : Address) (frame : Nat)
    (s₀ s : HypergraphState) : Prop :=
  ∃ xs, Undoable env.execution.crypto B s₀.hypergraph.store app frame xs s

theorem BlockEnv.Undoes.onlyRead (h : env.Undoes B app frame s₀ s) (hrd : s.OnlyRead env.execution.crypto s') :
    env.Undoes B app frame s₀ s' := by
  obtain ⟨xs, h⟩ := h
  exact ⟨xs, h.onlyRead hrd⟩

theorem HypergraphIntrinsic.delete_of_step (I : HypergraphIntrinsic Data) {intrinsics deploy : Intrinsics (HypergraphOperation Data)}
    (hI : intrinsics = I.intrinsics deploy) {op : Operation (HypergraphOperation Data)}
    (hd : isDeploy op.request.kind = false) {a b : Address} {sig : Bytes}
    (hpay : op.request.payload = .vertexRemove a b sig) (hr : intrinsics.step op s = .ok (s', none)) :
    s.delete I.crypto a.bytes b.bytes .vertexRemoves op.frameNumber = .ok (s', none) := by
  subst hI
  rw [Intrinsics.step] at hr
  split at hr
  · cases hr
  · simp only [HypergraphIntrinsic.intrinsics, hd, Bool.false_eq_true, if_false, hpay, HypergraphIntrinsic.invokeStep,
      HypergraphIntrinsic.materialize] at hr
    replace hr := Outcome.ok_of_wrap hr
    split at hr
    · cases hr
    · split_ifs at hr
      · cases hr
      · exact Outcome.ok_of_wrap hr

variable {address : Bytes} {scale : Int}

section
variable (h : env.Undoes B app frame s₀ s)
include h

section
variable (hc : env.Committed B s₀)
include hc

theorem BlockEnv.Undoes.operation {fee : Int} {req : MessageRequest (HypergraphOperation Data)}
    (ho : isHypergraphOp req.kind = true) (hrms : req.Removes app)
    (hr : engine.processIndividualMessage env.execution frame fee feeMultiplier address req
      true s = .ok (s', none)) : env.Undoes B app frame s₀ s' := by
  obtain ⟨hkn, b, sig, hpay⟩ := hrms ho
  obtain ⟨I, deploy, hcry, hI⟩ := hc.intrinsic
  have hd : isDeploy req.kind = false := by rw [hkn]; rfl
  simp only [FeeEngine.processIndividualMessage, engine, ho, hd, Bool.not_true,
    Bool.false_eq_true, if_false, if_true] at hr
  obtain ⟨e, -, he⟩ | ⟨s₁, hst, hcom⟩ := Outcome.andThen_eq_ok (Outcome.ok_of_wrap hr)
  · cases he
  obtain ⟨e, -, he⟩ | ⟨s₂, hmd, hst⟩ := Outcome.andThen_eq_ok hst
  · cases he
  obtain ⟨xs, h⟩ := h.onlyRead (FeeEngine.onlyRead_checkMode hmd)
  have hdlt := I.delete_of_step hI hd hpay hst
  rw [hcry] at hdlt
  obtain ⟨x, h'⟩ := h.delete hc.encoded hc.decodes hdlt hc.fuel (Outcome.ok_of_wrap hcom)
  exact ⟨_, h'⟩

theorem BlockEnv.Undoes.handleOps {ops : List (MessageRequest (HypergraphOperation Data))} {i : Nat}
    {queue : List Int} {processed processed' : Bool} (ho : ∀ op ∈ ops, op.Removes app)
    (hr : engine.handleOps env.execution frame feeMultiplier ops i queue address processed s =
      .ok (s', .ok processed')) : env.Undoes B app frame s₀ s' := by
  induction ops generalizing i queue address processed s with
  | nil =>
    cases hr
    exact h
  | cons op ops ih =>
    obtain ⟨hop, ho⟩ := forall_mem_cons.mp ho
    obtain ⟨-, hrs⟩ | ⟨hown, ⟨-, -, -, e, he⟩ | ⟨s₁, err, hone, ⟨-, e, he⟩ | ⟨rfl, address', hrs⟩⟩⟩ :=
      FeeEngine.handleOps_cons hr
    · exact ih h ho hrs
    · cases he
    · cases he
    · exact ih (h.operation hc hown hop hone) ho hrs

theorem BlockEnv.Undoes.handleBundle {bundle : MessageBundle (HypergraphOperation Data)} {processed : Bool}
    (ho : ∀ op ∈ bundle.requests.reduceOption, op.Removes app)
    (hr : EngineName.hypergraph.handleBundle env.execution frame feeMultiplier address (some bundle) s =
      .ok (s', .ok processed)) : env.Undoes B app frame s₀ s' := by
  obtain ⟨-, -, e, he⟩ | ⟨-, hr⟩ := FeeEngine.handleBundle_cases (E := engine) hr
  · cases he
  · exact h.handleOps hc ho hr

end

end

theorem ManagerEnv.typeDomain_ok {Payload : Type} {env : ManagerEnv Payload} {domain : Bytes}
    (h : env.typeDomain address s = .ok (s', .ok domain)) :
    ∃ a b tree, toAddress (address ++ replicate 32 0xff) = .ok a ∧
      toAddress ((address ++ replicate 32 0xff).drop 32) = .ok b ∧
      (s.hypergraph.getVertexData env.execution.crypto a b).2 = .ok tree ∧ tree.get (replicate 32 0xff) = .ok (.ok domain) := by
  obtain ⟨a, ha, h⟩ := bind_eq_ok.mp h
  obtain ⟨b, hb, h⟩ := bind_eq_ok.mp h
  refine ⟨a, b, ?_⟩
  generalize s.hypergraph.getVertexData env.execution.crypto a b = found at h ⊢
  obtain ⟨hg, err | tree⟩ := found
  · cases h
  · obtain ⟨value, hvl, h⟩ := bind_eq_ok.mp h
    refine ⟨tree, ha, hb, rfl, ?_⟩
    cases value with
    | error err => cases h
    | ok value =>
      cases h
      exact hvl

theorem BlockEnv.Undoes.getVertexData (h : env.Undoes B app frame s₀ s) {a b : Address}
    {tree : VectorCommitmentTree} (hget : (s.hypergraph.getVertexData env.execution.crypto a b).2 = .ok tree) :
    loadVertexTree s₀.hypergraph.store (atomId a b) = .ok tree := by
  obtain ⟨xs, h⟩ := h
  obtain ⟨B', hst, -⟩ := h.sets
  rw [(hst.getVertexData a b).1] at hget
  split_ifs at hget
  rw [← hget]
  exact loadVertexTree_congr
    (h.kept _ (fun tree => not_owns_vertexDataKey tree _) fun x _ heq => vertexDataKey_ne_changeRecordKey heq).symm

theorem BlockEnv.Undoes.route (h : env.Undoes B app frame s₀ s) (hc : env.Committed B s₀) {engine engine' : EngineName} (hrt : env.route frame address s₀ = .ok (s₁, .ok engine))
    (hrt' : env.route frame address s = .ok (s', .ok engine')) : engine' = engine := by
  rw [ManagerEnv.route] at hrt hrt'
  split_ifs at hrt hrt' with hgl hinc henr hdom
  · cases hrt
    cases hrt'
    rfl
  · cases hrt
  · cases hrt
  · obtain ⟨-, heng⟩ := Prod.mk.inj (ok.inj hrt)
    obtain ⟨-, heng'⟩ := Prod.mk.inj (ok.inj hrt')
    exact ok.inj (heng'.symm.trans heng)
  · obtain ⟨⟨s₂, domain⟩, hty, heng⟩ := bind_eq_ok.mp hrt
    obtain ⟨⟨s₃, domain'⟩, hty', heng'⟩ := bind_eq_ok.mp hrt'
    obtain ⟨-, heng⟩ := Prod.mk.inj (ok.inj heng)
    obtain ⟨-, heng'⟩ := Prod.mk.inj (ok.inj heng')
    obtain ⟨d, rfl, hd⟩ := bind_eq_ok.mp heng
    obtain ⟨d', rfl, hd'⟩ := bind_eq_ok.mp heng'
    obtain ⟨a, b, tree, ha, hb, hget, htr⟩ := ManagerEnv.typeDomain_ok hty
    obtain ⟨a', b', tree', ha', hb', hget', htr'⟩ := ManagerEnv.typeDomain_ok hty'
    cases ha.symm.trans ha'
    cases hb.symm.trans hb'
    have hld := h.getVertexData hget'
    rw [(hc.sets.getVertexData a b).1] at hget
    split_ifs at hget
    cases hget.symm.trans hld
    cases htr.symm.trans htr'
    exact ok.inj (hd'.symm.trans hd)

section
variable {b b' : BlockState} (h : b.hasState = true → env.Undoes B app frame s₀ b.state)
include h

theorem BlockEnv.Undoes.runMessage {r : MessageResult} {bundle : MessageBundle (HypergraphOperation Data)}
    (hc : env.Committed B s₀) (hon : (∃ err, env.getCost (.bundle (some bundle)) = .ok (.error err)) ∨
      ((∃ s', env.route frame app.bytes s₀ = .ok (s', .ok .hypergraph)) ∧
        ∀ req ∈ bundle.requests.reduceOption, req.Removes app))
    (hrun : env.runMessage frame scale app.bytes (.bundle (some bundle)) b = .ok (b', r)) (hr : ∀ err, r ≠ .failed err)
    (hst : b'.hasState = true) : env.Undoes B app frame s₀ b'.state := by
  obtain ⟨cost, hcs, hrun⟩ := bind_eq_ok.mp hrun
  obtain ⟨err, hs⟩ | ⟨⟨s₁, hrt⟩, hrms⟩ := hon
  · cases hcs.symm.trans hs
    cases hrun
    exact h hst
  · cases cost with
    | error err =>
      cases hrun
      exact h hst
    | ok cost =>
      obtain ⟨fee, -, hrun⟩ := bind_eq_ok.mp hrun
      obtain ⟨⟨s₂, result⟩, hpr, hrun⟩ := bind_eq_ok.mp hrun
      cases result with
      | error err =>
        cases hrun
        exact absurd rfl (hr err)
      | ok processed =>
        cases hrun
        obtain ⟨hb, -⟩ := Bool.and_eq_true_iff.mp hst
        obtain ⟨⟨s₃, result⟩, hrt', hpr⟩ := bind_eq_ok.mp hpr
        cases result with
        | error err => cases hpr
        | ok engine =>
          obtain rfl := (h hb).route hc hrt hrt'
          dsimp only at hpr
          rw [hb, if_pos rfl] at hpr
          obtain ⟨⟨s₄, result⟩, hbun, hpr⟩ := bind_eq_ok.mp hpr
          cases result with
          | error err => cases hpr
          | ok processed' =>
            cases hpr
            exact ((h hb).onlyRead (BlockEnv.onlyRead_route hrt')).handleBundle hc hrms hbun

theorem BlockEnv.Undoes.materializeRequests {requests : List (MessageBundle (HypergraphOperation Data))}
    (hc : env.Committed B s₀) (hon : env.OnlyRemoves frame app requests s₀)
    (hr : env.materializeRequests frame scale app.bytes requests b = .ok (b', none)) (hst : b'.hasState = true) :
    env.Undoes B app frame s₀ b'.state := by
  induction requests generalizing b with
  | nil =>
    cases hr
    exact h hst
  | cons bundle requests ih =>
    obtain ⟨hb, hrq⟩ := forall_mem_cons.mp hon
    obtain ⟨⟨b₁, r⟩, ho, hrs⟩ := bind_eq_ok.mp hr
    cases r with
    | failed err => cases hrs
    | skipped | accepted =>
      exact ih (BlockEnv.Undoes.runMessage h hc hb ho fun err heq => (by cases heq)) hrq hrs

end

theorem BlockEnv.Committed.materialize {requests : List (MessageBundle (HypergraphOperation Data))}
    (hc : env.Committed B s₀) (hon : env.OnlyRemoves frame app requests s₀)
    (hr : env.materialize frame scale app.bytes requests s₀ = .ok (s', none)) : env.Undoes B app frame s₀ s' := by
  obtain ⟨⟨b, err⟩, hrq, hr⟩ := bind_eq_ok.mp hr
  cases err with
  | some err => cases hr
  | none =>
    have hst : env.Undoes B app frame s₀ (.new s₀.hypergraph s₀.heap s₀.next) :=
      ⟨[], rfl, ⟨B, hc.sets, Bindings.extends_nil⟩, nofun, fun _ _ _ => rfl, nofun⟩
    have hend := BlockEnv.Undoes.materializeRequests (fun _ => hst) hc hon hrq
    dsimp only at hr
    rw [BlockEnv.finish] at hr
    split_ifs at hr with hse
    obtain ⟨err, -, hr⟩ := bind_eq_ok.mp hr
    cases err with
    | some err => cases hr
    | none =>
      obtain ⟨xs, h⟩ := hend (by simpa using hse)
      exact ⟨xs, h.recommit hc.fuel (Outcome.ok_of_wrap hr)⟩

end

/-! ### Reverting the removals -/

section
variable {c : Crypto} {hg hg' : HypergraphCRDT} {txn txn' : Txn} {B B₁ : Bindings} {tree : TreeId} {id : Bytes} {db : Db}
  {app : Address} {frame : Nat} {xs : List Removal} {s s' : HypergraphState}

theorem Sets.created_of_bound (h : Sets c hg txn B) (hb : B tree id ≠ none) :
    ∃ set, hg.sets tree.setType tree.phaseType tree.shardKey = some set := by
  rw [← Option.ne_none_iff_exists']
  intro hnn
  obtain ⟨item, him⟩ := Option.ne_none_iff_exists'.mp hb
  have hst := h.stores tree
  obtain rfl := hst.key_eq him
  have hm := hst.mem_iff.mpr him
  rw [HypergraphCRDT.set, setOr, hnn] at hm
  simp [IdSet.new, whole, skel] at hm

theorem Sets.deleteInTree_bound (h : Sets c hg txn B) (hb : B tree id ≠ none) :
    ∃ hg' txn', HypergraphCRDT.deleteInTree c.sha3 tree id hg txn = .ok (hg', txn', none) ∧
      Leaves c hg txn hg' txn' (B.unbind tree id) := by
  obtain ⟨set, hs⟩ := h.created_of_bound hb
  obtain ⟨item, him⟩ := Option.ne_none_iff_exists'.mp hb
  have hs' : hg.set tree = set := by
    simp [HypergraphCRDT.set, setOr, hs]
  obtain ⟨root, db', txn', hd, hL⟩ := h.deleteIn tree (.inr hb) ((h.stores tree).key_length him)
  rw [hs'] at hd hL
  refine ⟨_, txn', ?_, hL set.dirty⟩
  simp [HypergraphCRDT.deleteInTree, hs, hd]

theorem Sets.revert_removals {changes : List ChangeRecord} (h : Sets c hg txn B₁)
    (hext : B.Extends B₁ (removesOf c app) (changes.map (·.key))) (hnd : (changes.map (·.key)).Nodup)
    (hfr : ∀ x ∈ changes, B (removesOf c app) x.key = none) :
    ∃ hg' txn', HypergraphCRDT.Step.forEach (fun x : TreeId × ChangeRecord => HypergraphCRDT.revertChange c x.1 x.2)
        (changes.map (removesOf c app, ·)) hg txn = .ok (hg', txn', none) ∧ Sets c hg' txn' B ∧
      ∀ id, (pending hg'.store txn').get (hypergraphVertexDataKey id) =
        (pending hg.store txn).get (hypergraphVertexDataKey id) := by
  induction changes generalizing hg txn B₁ with
  | nil => exact ⟨hg, txn, rfl, hext.eq ▸ h, fun _ => rfl⟩
  | cons x changes ih =>
    rw [map_cons, nodup_cons] at hnd
    obtain ⟨hx, hchs⟩ := forall_mem_cons.mp hfr
    obtain ⟨hg₁, txn₁, hd, hL⟩ := h.deleteInTree_bound (hext.bound x.key mem_cons_self)
    have hws : ∀ w ∈ untrackChange (removesOf c app) x.key x.frame, ∀ tree : TreeId, ¬tree.Owns w.key := by
      intro w hw tree
      obtain rfl := mem_singleton.mp hw
      exact not_owns_changeRecordKey _ tree x.frame x.key
    have hst := hL.sets.write hws
    rcases hwr : hg₁.write txn₁ (untrackChange (removesOf c app) x.key x.frame) with ⟨hg₂, txn₂⟩
    rw [hwr] at hst
    obtain ⟨hg', txn', hrs, hst', hdt⟩ := ih hst (hext.unbind hnd.1 hx) hnd.2 hchs
    refine ⟨hg', txn', ?_, hst', fun id => ?_⟩
    · have ho : HypergraphCRDT.revertChange c (removesOf c app) x hg txn = .ok (hg₂, txn₂, none) := by
        have hr : HypergraphCRDT.revertChange c (removesOf c app) x = Step.andThen
            (HypergraphCRDT.deleteInTree c.sha3 (removesOf c app) x.key)
            (HypergraphCRDT.untrackChange (removesOf c app) x.key x.frame) := rfl
        simp [hr, Step.andThen, hd, HypergraphCRDT.untrackChange, hwr]
      simp [Step.forEach, Step.andThen, ho, hrs]
    · have hwri := hg₁.pending_write txn₁ (untrackChange (removesOf c app) x.key x.frame)
      rw [hwr] at hwri
      rw [hdt, hwri, Db.get_apply_of_untouched, hL.later _ fun tree => not_owns_vertexDataKey tree id]
      intro w hw heq
      obtain rfl := mem_singleton.mp hw
      exact vertexDataKey_ne_changeRecordKey heq.symm

section
variable (h : Undoable c B db app frame xs s)
include h

theorem Undoable.mem_recordRange {tree : TreeId} (hnn : recordRange db tree frame = []) {entry : Bytes × Value}
    (hen : entry ∈ recordRange s.hypergraph.store tree frame) :
    ∃ x ∈ xs, entry.1 = hypergraphChangeRecordKey (removesOf c app) frame x.1.id := by
  by_contra hno
  have hkp := h.kept entry.1 (not_owns_of_mem_recordRange hen) fun x hx heq => hno ⟨x, hx, heq⟩
  obtain ⟨hm, hrn⟩ := mem_filter.mp hen
  have hm' : entry ∈ recordRange db tree frame :=
    mem_filter.mpr ⟨get_eq_some.mp (hkp.symm.trans (get_eq_some.mpr hm)), hrn⟩
  rw [hnn] at hm'
  cases hm'

theorem Undoable.getChanges_other (hfr : frame + 1 < 2 ^ 64) (hnn : recordRange db tree frame = [])
    (htr : tree ≠ removesOf c app) : getChanges s.hypergraph.store tree frame frame = .ok (.ok []) := by
  refine getChanges_nil hfr (eq_nil_iff_forall_not_mem.mpr fun entry hen => htr ?_)
  obtain ⟨x, -, hx⟩ := h.mem_recordRange hnn hen
  obtain ⟨rest, hrs⟩ := key_of_mem_recordRange hen
  exact TreeId.eq_of_changeKey (hrs.symm.trans hx)

theorem Undoable.getChanges (hfr : frame + 1 < 2 ^ 64) (hnn : recordRange db (removesOf c app) frame = []) :
    ∃ changes, getChanges s.hypergraph.store (removesOf c app) frame frame = .ok (.ok changes) ∧
      (∀ x ∈ changes, x.frame = frame) ∧ (changes.map (·.key)).Nodup ∧
      ∀ id, id ∈ changes.map (·.key) ↔ id ∈ xs.map (·.1.id) := by
  have hdp : ∀ id, (hypergraphChangeRecordKey (removesOf c app) frame id).drop 45 = id := by
    intro id
    rw [changeRecordKey_append, drop_left' (by rw [length_changeRecordKey]; rfl)]
  have hr : ∀ entry ∈ recordRange s.hypergraph.store (removesOf c app) frame,
      Recorded (removesOf c app) frame entry := by
    intro entry hen
    obtain ⟨x, hx, heq⟩ := h.mem_recordRange hnn hen
    obtain ⟨value, hvl, hrec⟩ := h.records x hx
    have hget := get_eq_some.mpr (mem_filter.mp hen).1
    rw [heq, hvl] at hget
    rwa [← heq, Option.some.inj hget] at hrec
  obtain ⟨changes, hchs, hfrs, hky⟩ := getChanges_spec hfr hr
  refine ⟨changes, hchs, hfrs, ?_, fun id => ?_⟩
  · rw [hky, nodup_reverse]
    refine Nodup.map_on (fun entry hen entry' hen' heq => ?_) (Nodup.of_map _ (recordRange_nodup _ _ _))
    obtain ⟨x, -, hx⟩ := h.mem_recordRange hnn hen
    obtain ⟨y, -, hy⟩ := h.mem_recordRange hnn hen'
    rw [hx, hy, hdp, hdp] at heq
    have hkey : entry.1 = entry'.1 := by rw [hx, hy, heq]
    have hget := get_eq_some.mpr (mem_filter.mp hen).1
    have hget' := get_eq_some.mpr (mem_filter.mp hen').1
    rw [hkey, hget'] at hget
    exact Prod.ext hkey (Option.some.inj hget).symm
  · rw [hky, mem_reverse, mem_map, mem_map]
    constructor
    · rintro ⟨entry, hen, rfl⟩
      obtain ⟨x, hx, heq⟩ := h.mem_recordRange hnn hen
      exact ⟨x, hx, by rw [heq, hdp]⟩
    · rintro ⟨x, hx, rfl⟩
      obtain ⟨value, hvl, -⟩ := h.records x hx
      exact ⟨_, Quilibrium.mem_recordRange hfr hvl, hdp _⟩

end

theorem framesDown_self (frame : Nat) : framesDown frame frame = [frame] := by
  simp [framesDown]

theorem Undoable.revertChanges (h : Undoable c B db app frame xs s) (hpos : 0 < frame) (hfm : frame + 1 < 2 ^ 64)
    (hnn : ∀ tree ∈ revertOrder (shardKeyOf c.shake app), recordRange db tree frame = []) :
    ∃ hg txn, revertChanges c frame frame (shardKeyOf c.shake app) s.hypergraph (some []) = .ok (hg, txn, none) ∧
      Sets c (hg.commitTxn txn) none B ∧
      ∀ id, (hg.commitTxn txn).store.get (hypergraphVertexDataKey id) = db.get (hypergraphVertexDataKey id) := by
  obtain ⟨B₁, hst, hext⟩ := h.sets
  obtain ⟨changes, hchs, hfrs, hnd, hids⟩ := h.getChanges hfm (hnn _ (by simp [revertOrder, removesOf]))
  have hot : ∀ tree ∈ revertOrder (shardKeyOf c.shake app), tree ≠ removesOf c app →
      Quilibrium.getChanges s.hypergraph.store tree frame frame = .ok (.ok []) :=
    fun tree hm htr => h.getChanges_other hfm (hnn tree hm) htr
  have hsr : Sets c s.hypergraph (some []) B₁ := ⟨hst.stores, hst.named, hst.typed, hst.covered, hst.listed, hst.nodup⟩
  have hfr : ∀ x ∈ changes, B (removesOf c app) x.key = none := by
    intro x hx
    obtain ⟨y, hy, heq⟩ := mem_map.mp ((hids x.key).mp (mem_map_of_mem hx))
    have hlv := h.live y hy
    have hfr := hlv.fresh
    rwa [Vertex.tree, hlv.app, heq] at hfr
  obtain ⟨hg, txn, hlp, hend, hdt⟩ := hsr.revert_removals (hext.congr fun id => (hids id).symm) hnd hfr
  refine ⟨hg, txn, ?_, hend.commitTxn, fun id => ?_⟩
  · have hvrt := hot ⟨.vertex, .adds, shardKeyOf c.shake app⟩ (by simp [revertOrder]) (by simp [removesOf])
    have hhy := hot ⟨.hyperedge, .adds, shardKeyOf c.shake app⟩ (by simp [revertOrder])
      (by simp [removesOf])
    have hh := hot ⟨.hyperedge, .removes, shardKeyOf c.shake app⟩ (by simp [revertOrder])
      (by simp [removesOf])
    have hv : Quilibrium.getChanges s.hypergraph.store ⟨.vertex, .removes, shardKeyOf c.shake app⟩ frame frame =
      .ok (.ok changes) := hchs
    have hall : changes.filter (fun x => x.frame = frame) = changes :=
      filter_eq_self.mpr fun x hx => decide_eq_true (hfrs x hx)
    simp only [HypergraphCRDT.revertChanges, if_neg hpos.ne', shardChanges, hvrt, hv,
      hhy, hh, ok_bind, revertLoop, framesDown_self, flatMap_cons,
      flatMap_nil, append_nil, changesOf, revertOrder, filter_nil, map_nil, nil_append, hall]
    rw [removesOf] at hlp
    rw [hlp, ok_bind]
    rfl
  · refine (hdt id).trans (h.kept _ (fun tree => not_owns_vertexDataKey tree id) fun x _ heq => ?_)
    exact vertexDataKey_ne_changeRecordKey heq

end

/-! ### A frame that is reverted -/

/-- The same atoms in all sets, the same commitments of the sets, and the same vertex data. -/
structure HypergraphCRDT.Restored (c : Crypto) (hg hg' : HypergraphCRDT) : Prop where
  leaves : ∀ tree, ∃ items, hg.leaves tree = .ok items ∧ hg'.leaves tree = .ok items
  roots : ∀ tree, ∃ root, hg.rootCommit c tree = .ok root ∧ hg'.rootCommit c tree = .ok root
  data : ∀ a b, (hg'.getVertexData c a b).2 = (hg.getVertexData c a b).2

/-- The engine of the global shard, with the `Refresh` of its prover registry, or that of an app shard. -/
inductive BlockEngine where
  | global (refresh : HypergraphCRDT → Option String)
  | app (address : Address) (feeMultiplierVote : Nat)

namespace BlockEngine

variable {Payload : Type}

def address : BlockEngine → Address
  | .global _ => HypergraphState.copy32 globalIntrinsicAddress
  | .app address _ => address

def materialize (env : BlockEnv Payload) : BlockEngine → Nat → List (MessageBundle Payload) → HypergraphState → Outcome
  | .global _, frame, requests => GlobalConsensusEngine.materialize env frame requests
  | .app address vote, frame, requests => AppConsensusEngine.materialize env address.bytes frame vote requests

def revert (env : BlockEnv Payload) : BlockEngine → Nat → HypergraphState → Outcome
  | .global refresh, frame => GlobalConsensusEngine.revert env refresh frame
  | .app address _, frame => AppConsensusEngine.revert env address frame

def Refreshes : BlockEngine → Prop
  | .global refresh => ∀ hg, refresh hg = none
  | .app _ _ => True

end BlockEngine

section
variable {Data : Type} {env : BlockEnv (HypergraphOperation Data)} {B : Bindings} {frame : Nat}
  {requests : List (MessageBundle (HypergraphOperation Data))} {s s' : HypergraphState}

end

/-! ### Frames of one bundle -/

/-- The engine of an app shard at zero, which runs the hypergraph intrinsic. -/
def vertexBlocks : BlockEnv (HypergraphOperation Unit) where
  execution := sampleExecution
  network := 1
  includeGlobal := false
  computeDomain := [2]
  hypergraphDomain := HypergraphState.zeroBytes
  tokenDomain := [4]
  engineCost _ := .ok (.ok 64)
  pomw _ _ _ := 1
  withoutState _ _ _ _ _ s := .ok (s, .ok false)
  difficulty := 1
  processStateTransition _ _ := .ok none
  collectCommitments _ := none
  validate _ := none
  requestsRoot _ := none

def storedTree : VectorCommitmentTree := ⟨.leaf ⟨⟨[0], [], [], 1⟩, []⟩⟩

def storedVertex : Vertex := ⟨.zero, .zero, List.replicate 64 0, 1, Nat.one_lt_two_pow (Nat.succ_ne_zero 255)⟩

def storedWorld : Except Fault HypergraphState := do
  let (hg, _, _) ← (HypergraphCRDT.new OrdMap.empty []).addVertex Crypto.plain none storedVertex
  return .new (hg.write none (saveVertexTree storedVertex.id storedTree)).1 (fun _ => ⟨.nil⟩) 0

def storedBindings : Bindings :=
  Bindings.bind (fun _ _ => none) (storedVertex.tree Crypto.plain .adds) storedVertex.item

set_option maxRecDepth 8000 in
theorem atomFromBytes_storedVertex : atomFromBytes storedVertex.item.value = some (.vertex storedVertex) := rfl

section
variable {s : HypergraphState} (h : storedWorld = .ok s)
include h

theorem storedWorld_spec : Sets Crypto.plain s.hypergraph none storedBindings ∧ ∀ k, (∀ tree : TreeId, ¬tree.Owns k) →
      s.hypergraph.store.get k =
        if k = hypergraphVertexDataKey storedVertex.id then some (.data (serializeNonLazyTree storedTree)) else none := by
  obtain ⟨hg, txn, hadd, hL, -, -⟩ := (sets_new Crypto.plain []).addVertex storedVertex ((sets_new Crypto.plain []).read rfl) rfl
  have ht : txn = none := Option.isNone_iff_eq_none.mp (Option.isSome_eq_false_iff.mp hL.isSome)
  rw [storedWorld, hadd] at h
  cases h
  subst ht
  refine ⟨hL.sets.write fun w hw tree => ?_, fun k hk => ?_⟩
  · obtain rfl := mem_singleton.mp hw
    exact not_owns_vertexDataKey tree _
  · have hb : hg.store.get k = none := hL.now k hk
    refine (get_set ..).trans ?_
    rw [hb]
    split_ifs <;> rfl

theorem committed_storedWorld : vertexBlocks.Committed storedBindings s := by
  obtain ⟨hse, hst⟩ := storedWorld_spec h
  refine ⟨⟨sampleHypergraphIntrinsic, .refusing, rfl, rfl⟩, lt_treeFuel, hse, fun a b item v him ham => ?_,
    fun id data hld => ?_⟩
  · rw [storedBindings, Bindings.bind_apply] at him
    split_ifs at him with hid
    cases him
    obtain ⟨rfl, rfl⟩ := atomId_inj.mp hid.2
    cases atomFromBytes_storedVertex.symm.trans ham
    rfl
  · rw [loadVertexTree, hst _ fun tree => not_owns_vertexDataKey tree id] at hld
    split_ifs at hld
    cases hld
    rintro old ⟨⟩
    exact ⟨storedTree, rfl⟩

theorem recordRange_storedWorld (tree : TreeId) (frame : Nat) : recordRange s.hypergraph.store tree frame = [] := by
  refine eq_nil_iff_forall_not_mem.mpr fun entry hen => ?_
  have hget := get_eq_some.mpr (mem_filter.mp hen).1
  rw [(storedWorld_spec h).2 _ (not_owns_of_mem_recordRange hen)] at hget
  split_ifs at hget with hkey
  obtain ⟨rest, hrs⟩ := key_of_mem_recordRange hen
  rw [hkey] at hrs
  simp only [hypergraphVertexDataKey, shardRecordKey, cons.injEq, true_and] at hrs
  exact tree.changeType_ne_vertexData hrs.1.symm

end

def removalBundle : MessageBundle (HypergraphOperation Unit) :=
  ⟨[some feeRequest, some ⟨.vertexRemove, [], [], .vertexRemove .zero .zero []⟩], 1⟩

def otherBundle : MessageBundle (HypergraphOperation Unit) :=
  ⟨[some feeRequest, some ⟨.vertexAdd, [], [], .vertexAdd HypergraphState.farAddress .zero [()] []⟩], 1⟩

def ownBundle : MessageBundle (HypergraphOperation Unit) := ⟨[some feeRequest, some addRequest], 1⟩

/-- After the frame of the bundle is materialized and reverted, the vertex has data that it did not have before. -/
def Lingers (bundle : MessageBundle (HypergraphOperation Unit)) (a b : Address) : Prop :=
  ∃ s' s'', (BlockEngine.app .zero 1).materialize vertexBlocks 1 [bundle] sampleWorld = .ok (s', none) ∧
    (BlockEngine.app .zero 1).revert vertexBlocks 1 s' = .ok (s'', none) ∧
    (sampleWorld.hypergraph.getVertexData Crypto.plain a b).2.isOk = false ∧
    (s''.hypergraph.getVertexData Crypto.plain a b).2.isOk = true

theorem lingers_of_run {bundle : MessageBundle (HypergraphOperation Unit)} {a b : Address}
    (h : ((BlockEngine.app .zero 1).materialize vertexBlocks 1 [bundle] sampleWorld).okAnd (fun r => r.2.isNone &&
      ((BlockEngine.app .zero 1).revert vertexBlocks 1 r.1).okAnd fun q => q.2.isNone &&
        (q.1.hypergraph.getVertexData Crypto.plain a b).2.isOk) = true) : Lingers bundle a b := by
  obtain ⟨⟨s', err'⟩, hs', h⟩ := okAnd_iff.mp h
  obtain ⟨herr', h⟩ := Bool.and_eq_true_iff.mp h
  obtain ⟨⟨s'', err''⟩, hs'', h⟩ := okAnd_iff.mp h
  obtain ⟨herr'', hdt⟩ := Bool.and_eq_true_iff.mp h
  cases Option.isNone_iff_eq_none.mp herr'
  cases Option.isNone_iff_eq_none.mp herr''
  refine ⟨s', s'', hs', hs'', ?_, hdt⟩
  obtain ⟨-, ⟨B, hst⟩, hnn⟩ := idle_sampleWorld
  rw [(hst.getVertexData a b).1, loadVertexTree, hnn]
  split_ifs <;> rfl

theorem Lingers.not_restored {bundle : MessageBundle (HypergraphOperation Unit)} {a b : Address} (h : Lingers bundle a b) :
    ∃ s' s'', (BlockEngine.app .zero 1).materialize vertexBlocks 1 [bundle] sampleWorld = .ok (s', none) ∧
      (BlockEngine.app .zero 1).revert vertexBlocks 1 s' = .ok (s'', none) ∧
      ¬sampleWorld.hypergraph.Restored Crypto.plain s''.hypergraph := by
  obtain ⟨s', s'', hs', hs'', hb, haf⟩ := h
  refine ⟨s', s'', hs', hs'', fun hr => ?_⟩
  rw [hr.data a b, hb] at haf
  cases haf

end Quilibrium
