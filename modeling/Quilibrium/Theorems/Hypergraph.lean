import Quilibrium.Theorems.IdSet

/-! The sets of a hypergraph. Each tree stands for a map from atom ids to items (`Sets`). -/

namespace Quilibrium
open Radix Function Except HypergraphCRDT Node

def HypergraphCRDT.set (hg : HypergraphCRDT) (tree : TreeId) : IdSet :=
  hg.setOr tree.setType tree.phaseType tree.shardKey tree.setType hg.coveredPrefix

def HypergraphCRDT.mark (hg : HypergraphCRDT) (tree : TreeId) : HypergraphCRDT :=
  hg.putSet tree.setType tree.phaseType tree.shardKey { hg.set tree with dirty := true }

def treeFuel : Nat := pathLength 64 + 1

theorem lt_treeFuel : pathLength 64 < treeFuel := Nat.lt_succ_self _

def HypergraphCRDT.leaves (hg : HypergraphCRDT) (tree : TreeId) : Except Fault (List Item) := do
  let leaves ← getAllLeaves hg.store tree treeFuel (hg.set tree).tree.root
  .ok (leaves.map (·.toItem))

abbrev Bindings := TreeId → Bytes → Option Item

def Bindings.bind (B : Bindings) (tree : TreeId) (new : Item) : Bindings :=
  Function.update B tree (Function.update (B tree) new.key (some new))

def Bindings.unbind (B : Bindings) (tree : TreeId) (key : Bytes) : Bindings :=
  Function.update B tree (Function.update (B tree) key none)

/-- Every set of the hypergraph holds its bindings, once the transaction is committed. -/
structure Sets (c : Crypto) (hg : HypergraphCRDT) (txn : Txn) (B : Bindings) : Prop where
  stores : ∀ tree, Stores c.sha512 c.prover 64 (B tree) (hg.set tree).tree (pending hg.store txn)
  named : ∀ tree, (hg.set tree).tree.tree = tree
  typed : ∀ tree, (hg.set tree).atomType = tree.setType
  covered : ∀ tree, (hg.set tree).tree.coveredPrefix = hg.coveredPrefix
  listed : ∀ m p s, hg.sets m p s ≠ none → s ∈ hg.shards
  nodup : hg.shards.Nodup

def HypergraphCRDT.Read (hg : HypergraphCRDT) (B : Bindings) : Prop := ∀ tree, Reads 64 (B tree) tree hg.store

def HypergraphCRDT.covers (hg : HypergraphCRDT) (id : Bytes) : Bool := hg.coveredPrefix.isPrefixOf (getFullPath id)

def outsideCovered : String := "key is outside covered prefix range"

def Vertex.tree (c : Crypto) (v : Vertex) (p : PhaseType) : TreeId := ⟨.vertex, p, shardKeyOf c.shake v.appAddress⟩

def Hyperedge.tree (c : Crypto) (h : Hyperedge) (p : PhaseType) : TreeId :=
  ⟨.hyperedge, p, shardKeyOf c.shake h.appAddress⟩

/-- The sets hold the bindings `B'`, and what belongs to no tree is unchanged. With a transaction only roots are
    written at once. -/
structure Leaves (c : Crypto) (hg : HypergraphCRDT) (txn : Txn) (hg' : HypergraphCRDT) (txn' : Txn) (B' : Bindings) :
    Prop where
  sets : Sets c hg' txn' B'
  coveredPrefix : hg'.coveredPrefix = hg.coveredPrefix
  isSome : txn'.isSome = txn.isSome
  now : ∀ k, (∀ tree : TreeId, ¬tree.Owns k) → hg'.store.get k = hg.store.get k
  later : ∀ k, (∀ tree : TreeId, ¬tree.Owns k) → (pending hg'.store txn').get k = (pending hg.store txn).get k
  held : txn.isSome = true → ∀ k, (∀ tree : TreeId, k ≠ tree.rootKey) → hg'.store.get k = hg.store.get k

section
variable {c : Crypto} {hg hg' hg'' : HypergraphCRDT} {txn txn' txn'' : Txn} {B B' B'' : Bindings} {tree : TreeId}
  {new : Item} {id : Bytes}

/-! ### Maps -/

theorem Bindings.bind_self (B : Bindings) (tree : TreeId) (new : Item) (k : Bytes) :
    B.bind tree new tree k = if k = new.key then some new else B tree k := by
  rw [bind, update_self, update_apply]

theorem Bindings.bind_of_ne {tree' : TreeId} (B : Bindings) (new : Item) (h : tree' ≠ tree) :
    B.bind tree new tree' = B tree' := update_of_ne h _ _

theorem Bindings.unbind_self (B : Bindings) (tree : TreeId) (key k : Bytes) :
    B.unbind tree key tree k = if k = key then none else B tree k := by
  rw [unbind, update_self, update_apply]

theorem Bindings.unbind_of_ne {tree' : TreeId} (B : Bindings) (key : Bytes) (h : tree' ≠ tree) :
    B.unbind tree key tree' = B tree' := update_of_ne h _ _

theorem Bindings.bind_eq_self (h : B tree new.key = some new) : B.bind tree new = B := by
  rw [bind, ← h, update_eq_self, update_eq_self]

/-! ### Sets in the maps of the hypergraph -/

namespace HypergraphCRDT
variable (hg : HypergraphCRDT) (m : AtomType) (s : ShardKey)

theorem set_putSet (tree tree' : TreeId) (set : IdSet) :
    (hg.putSet tree.setType tree.phaseType tree.shardKey set).set tree' = if tree' = tree then set else hg.set tree' := by
  obtain ⟨m, p, s⟩ := tree
  obtain ⟨m', p', s'⟩ := tree'
  simp only [HypergraphCRDT.set, setOr, putSet, setAt, TreeId.mk.injEq]
  split_ifs <;> rfl

def create : HypergraphCRDT :=
  (hg.putSet m .adds s (hg.set ⟨m, .adds, s⟩)).putSet m .removes s (hg.set ⟨m, .removes, s⟩)

@[simp] theorem getOrCreateIdSet_eq : hg.getOrCreateIdSet m s m hg.coveredPrefix =
    (hg.create m s, hg.set ⟨m, .adds, s⟩, hg.set ⟨m, .removes, s⟩) := rfl

@[simp] theorem set_create : (hg.create m s).set = hg.set := by
  funext tree'
  rw [create, set_putSet _ ⟨m, .removes, s⟩, set_putSet _ ⟨m, .adds, s⟩]
  split_ifs with h₁ h₂
  · rw [h₁]
  · rw [h₂]
  · rfl

@[simp] theorem store_create : (hg.create m s).store = hg.store := rfl

theorem mem_shards_putSet (set : IdSet) {p : PhaseType} {s' : ShardKey} :
    s' ∈ (hg.putSet m p s set).shards ↔ s' = s ∨ s' ∈ hg.shards := by
  simp only [putSet]
  split_ifs with hm
  · exact ⟨.inr, fun h => h.elim (fun heq => heq ▸ hm) id⟩
  · rw [List.mem_append, List.mem_singleton, or_comm]

def Created : Prop := s ∈ hg.shards ∧ ∀ p, hg.sets m p s = some (hg.set ⟨m, p, s⟩)

variable {hg m s} in
theorem Created.create_eq (h : hg.Created m s) : hg.create m s = hg := by
  refine HypergraphCRDT.ext rfl ?_ ?_ rfl rfl
  · funext m' p' s'
    simp only [create, putSet, setAt]
    split_ifs with h₁ h₂
    · obtain ⟨rfl, rfl, rfl⟩ := h₁
      exact (h.2 _).symm
    · obtain ⟨rfl, rfl, rfl⟩ := h₂
      exact (h.2 _).symm
    · rfl
  · simp [create, putSet, if_pos h.1]

theorem created_create : (hg.create m s).Created m s := by
  refine ⟨(mem_shards_putSet ..).mpr (.inl rfl), fun p => ?_⟩
  rw [set_create]
  cases p <;> simp [create, putSet, setAt]

@[simp] theorem create_create : (hg.create m s).create m s = hg.create m s := (hg.created_create m s).create_eq

theorem lookupVertex_eq (c : Crypto) (v : Vertex) : hg.lookupVertex c v = (hg.create .vertex (shardKeyOf c.shake v.appAddress),
    (hg.set (v.tree c .adds)).has hg.store v.id && !(hg.set (v.tree c .removes)).has hg.store v.id) := rfl

theorem lookupHyperedge_eq (c : Crypto) (e : Hyperedge) :
    hg.lookupHyperedge c e = (hg.create .hyperedge (shardKeyOf c.shake e.appAddress),
      (hg.set (e.tree c .adds)).has hg.store e.id && !(hg.set (e.tree c .removes)).has hg.store e.id) := rfl

/-- The sets of the shard after an attempt that failed in one of them. -/
def attempted (tree : TreeId) : HypergraphCRDT := (hg.create tree.setType tree.shardKey).mark tree

/-- The set into which a removal inserts first: an atom that is not there is added before. -/
def removalTree (c : Crypto) (m : AtomType) (a b : Address) : TreeId :=
  if (hg.set ⟨m, .adds, shardKeyOf c.shake a⟩).has hg.store (atomId a b) &&
      !(hg.set ⟨m, .removes, shardKeyOf c.shake a⟩).has hg.store (atomId a b) then ⟨m, .removes, shardKeyOf c.shake a⟩
  else ⟨m, .adds, shardKeyOf c.shake a⟩

end HypergraphCRDT

theorem Sets.putSet {set : IdSet} (store : Db) (h : Sets c hg txn B)
    (hot : ∀ tree', tree' ≠ tree → Stores c.sha512 c.prover 64 (B' tree') (hg.set tree').tree (pending store txn'))
    (hset : Stores c.sha512 c.prover 64 (B' tree) set.tree (pending store txn')) (hn : set.tree.tree = tree)
    (ht : set.atomType = tree.setType) (hc : set.tree.coveredPrefix = hg.coveredPrefix) :
    Sets c { hg.putSet tree.setType tree.phaseType tree.shardKey set with store } txn' B' := by
  have hs' : ∀ tree', HypergraphCRDT.set { hg.putSet tree.setType tree.phaseType tree.shardKey set with store } tree' =
      if tree' = tree then set else hg.set tree' := fun tree' => hg.set_putSet tree tree' set
  refine ⟨fun tree' => ?_, fun tree' => ?_, fun tree' => ?_, fun tree' => ?_, fun m p s hne => ?_, ?_⟩
  · rw [hs']
    split_ifs with heq
    · exact heq ▸ hset
    · exact hot tree' heq
  · rw [hs']
    split_ifs with heq
    · exact heq ▸ hn
    · exact h.named tree'
  · rw [hs']
    split_ifs with heq
    · exact heq ▸ ht
    · exact h.typed tree'
  · rw [hs']
    split_ifs with heq
    · exact hc
    · exact h.covered tree'
  · simp only [HypergraphCRDT.putSet, setAt] at hne ⊢
    by_cases hs : m = tree.setType ∧ p = tree.phaseType ∧ s = tree.shardKey
    · obtain ⟨-, -, rfl⟩ := hs
      split_ifs with hm
      · exact hm
      · simp
    · rw [if_neg hs] at hne
      have hm := h.listed m p s hne
      split_ifs
      · exact hm
      · exact List.mem_append_left _ hm
  · simp only [HypergraphCRDT.putSet]
    split_ifs with hm
    · exact h.nodup
    · exact List.nodup_append.mpr ⟨h.nodup, List.nodup_singleton _, fun a ha b hb hab => by
        rw [List.mem_singleton] at hb
        exact hm (hb ▸ hab ▸ ha)⟩

theorem Sets.leaves (h : Sets c hg txn B) : Leaves c hg txn hg txn B where
  sets := h
  coveredPrefix := rfl
  isSome := rfl
  now _ _ := rfl
  later _ _ := rfl
  held _ _ _ := rfl

theorem Leaves.trans (h : Leaves c hg txn hg' txn' B') (h' : Leaves c hg' txn' hg'' txn'' B'') :
    Leaves c hg txn hg'' txn'' B'' where
  sets := h'.sets
  coveredPrefix := h'.coveredPrefix.trans h.coveredPrefix
  isSome := h'.isSome.trans h.isSome
  now k hk := (h'.now k hk).trans (h.now k hk)
  later k hk := (h'.later k hk).trans (h.later k hk)
  held hsm k hk := (h'.held (h.isSome.trans hsm) k hk).trans (h.held hsm k hk)

theorem Leaves.resize (h : Leaves c hg txn hg' txn' B') (size : Int) : Leaves c hg txn { hg' with size } txn' B' where
  sets := ⟨h.sets.stores, h.sets.named, h.sets.typed, h.sets.covered, h.sets.listed, h.sets.nodup⟩
  coveredPrefix := h.coveredPrefix
  isSome := h.isSome
  now := h.now
  later := h.later
  held := h.held

section
variable (h : Sets c hg txn B)
include h

theorem Sets.putBack (tree : TreeId) (dirty : Bool) :
    Sets c (hg.putSet tree.setType tree.phaseType tree.shardKey { hg.set tree with dirty }) txn B :=
  h.putSet hg.store (fun tree' _ => h.stores tree') (h.stores tree) (h.named tree) (h.typed tree)
    (h.covered tree)

theorem Sets.create (m : AtomType) (s : ShardKey) : Leaves c hg txn (hg.create m s) txn B := by
  have h₁ := h.putBack ⟨m, .adds, s⟩ (hg.set ⟨m, .adds, s⟩).dirty
  have hs : (hg.putSet m .adds s (hg.set ⟨m, .adds, s⟩)).set ⟨m, .removes, s⟩ = hg.set ⟨m, .removes, s⟩ := by
    rw [hg.set_putSet ⟨m, .adds, s⟩, if_neg (by simp)]
  have h₂ := h₁.putBack ⟨m, .removes, s⟩ (hg.set ⟨m, .removes, s⟩).dirty
  rw [hs] at h₂
  exact ⟨h₂, rfl, rfl, fun _ _ => rfl, fun _ _ => rfl, fun _ _ _ => rfl⟩

theorem Sets.attempted (tree : TreeId) : Leaves c hg txn (hg.attempted tree) txn B :=
  (h.create tree.setType tree.shardKey).trans
    ⟨(h.create tree.setType tree.shardKey).sets.putBack tree true, rfl, rfl, fun _ _ => rfl, fun _ _ => rfl, fun _ _ _ => rfl⟩

/-! ### Additions and deletions -/

theorem Sets.covers_iff (tree : TreeId) (id : Bytes) :
    (hg.set tree).tree.isPathWithinCoveredPrefix (getFullPath id) = hg.covers id := by
  rw [LazyVectorCommitmentTree.isPathWithinCoveredPrefix, h.covered tree]
  rfl

theorem Sets.named_ne {tree' : TreeId} (hne : tree' ≠ tree) : (hg.set tree').tree.tree ≠ tree := by
  rw [h.named tree']
  exact hne

theorem Sets.reads (hr : hg.Read B) (tree : TreeId) : Reads 64 (B tree) (hg.set tree).tree.tree hg.store := by
  rw [h.named tree]
  exact hr tree

theorem Sets.addTo (hr : hg.Read B) (tree : TreeId) (new : Item) (hk : new.key.length = 64)
    (hc : hg.covers new.key = true) :
    ∃ hg' txn', hg.addTo c.sha3 txn tree.setType tree.phaseType tree.shardKey (hg.set tree) new = .ok (hg', txn', none) ∧
      Leaves c hg txn hg' txn' (B.bind tree new) ∧ hg'.Read (B.bind tree new) ∧
      (∀ tree', tree' ≠ tree → hg'.set tree' = hg.set tree') ∧ hg'.size = hg.size := by
  have hty : ¬tree.setType ≠ (hg.set tree).atomType := not_not.mpr (h.typed tree).symm
  obtain ⟨root, db', txn', hins, hs, hrd', hfr⟩ := (h.stores tree).insert_spec c.sha3 (h.reads hr tree) (by decide)
    (by decide) hk ((h.covers_iff tree new.key).trans hc)
  rw [h.named tree] at hfr hrd'
  have hbn : ∀ tree', tree' ≠ tree → B.bind tree new tree' = B tree' := fun tree' hne => B.bind_of_ne new hne
  have hsl : B.bind tree new tree = update (B tree) new.key (some new) := update_self _ _ _
  refine ⟨{ hg.putSet tree.setType tree.phaseType tree.shardKey
      { hg.set tree with dirty := true, tree := { (hg.set tree).tree with root } } with store := db' }, txn', ?_,
    ⟨?_, rfl, hfr.isSome, fun k hk => hfr.now k (hk tree), fun k hk => hfr.later k (hk tree),
      fun hsm k hk => hfr.held hsm k (hk tree)⟩,
    fun tree' => ?_, fun tree' hne => (hg.set_putSet tree tree' _).trans (if_neg hne), rfl⟩
  · simp [HypergraphCRDT.addTo, IdSet.add, if_neg hty, hins]
  · refine h.putSet db' (fun tree' hne => ?_) (hsl ▸ hs) (h.named tree) (h.typed tree) (h.covered tree)
    rw [hbn tree' hne]
    exact (h.stores tree').frame ((h.stores tree').backed.other (h.named_ne hne) hfr.later)
  · by_cases hne : tree' = tree
    · subst hne
      rw [hsl]
      exact hrd'
    · rw [hbn tree' hne]
      obtain ⟨leaves, hbc, hall⟩ := hr tree'
      exact ⟨leaves, hbc.other hne hfr.now, hall⟩

theorem Sets.addTo_outside (hr : hg.Read B) (tree : TreeId) (new : Item) (hk : new.key.length = 64)
    (hc : hg.covers new.key = false) :
    hg.addTo c.sha3 txn tree.setType tree.phaseType tree.shardKey (hg.set tree) new =
      .ok (hg.mark tree, txn, some outsideCovered) := by
  have hty : ¬tree.setType ≠ (hg.set tree).atomType := not_not.mpr (h.typed tree).symm
  have hins := (h.reads hr tree).insert_uncovered c.sha3 txn (by decide) hk ((h.covers_iff tree new.key).trans hc)
  simp only [HypergraphCRDT.addTo, IdSet.add, if_neg hty, hins, ok_bind]
  rfl

theorem Sets.addTo_create (hr : hg.Read B) (tree : TreeId) (new : Item) (hk : new.key.length = 64)
    (hc : hg.covers new.key = false) :
    (hg.create tree.setType tree.shardKey).addTo c.sha3 txn tree.setType tree.phaseType tree.shardKey (hg.set tree) new =
      .ok (hg.attempted tree, txn, some outsideCovered) := by
  have hadd := (h.create tree.setType tree.shardKey).sets.addTo_outside hr tree new hk hc
  rw [set_create] at hadd
  exact hadd

theorem Sets.deleteIn (tree : TreeId) (hr : hg.Read B ∨ B tree id ≠ none) (hk : id.length = 64) :
    ∃ root db' txn', (hg.set tree).tree.delete c.sha3 hg.store txn id =
        .ok ({ (hg.set tree).tree with root }, db', txn', none) ∧
      ∀ dirty, Leaves c hg txn { hg.putSet tree.setType tree.phaseType tree.shardKey
        { hg.set tree with dirty, tree := { (hg.set tree).tree with root } } with store := db' } txn' (B.unbind tree id) := by
  obtain ⟨root, db', txn', hd, hs, hfr⟩ := (h.stores tree).delete_spec c.sha3 (hr.imp_left (h.reads · tree)) (by decide) (by decide) hk
  rw [h.named tree] at hfr
  have hsl : B.unbind tree id tree = update (B tree) id none := update_self _ _ _
  refine ⟨root, db', txn', hd, fun dirty => ⟨?_, rfl, hfr.isSome, fun k hk => hfr.now k (hk tree),
    fun k hk => hfr.later k (hk tree), fun hsm k hk => hfr.held hsm k (hk tree)⟩⟩
  refine h.putSet db' (fun tree' hne => ?_) (hsl ▸ hs) (h.named tree) (h.typed tree) (h.covered tree)
  rw [B.unbind_of_ne id hne]
  exact (h.stores tree').frame ((h.stores tree').backed.other (h.named_ne hne) hfr.later)

theorem Sets.deleteFrom (hr : hg.Read B) (tree : TreeId) (hk : id.length = 64) :
    ∃ hg' txn', hg.deleteFrom c.sha3 txn tree.setType tree.phaseType tree.shardKey (hg.set tree) id = .ok (hg', txn', none) ∧
      Leaves c hg txn hg' txn' (B.unbind tree id) ∧ hg'.size = hg.size := by
  obtain ⟨root, db', txn', hd, hL⟩ := h.deleteIn tree (.inl hr) hk
  have hty : ¬tree.setType ≠ (hg.set tree).atomType := not_not.mpr (h.typed tree).symm
  refine ⟨_, txn', ?_, hL true, rfl⟩
  simp [HypergraphCRDT.deleteFrom, IdSet.delete, if_neg hty, hd]

end

/-! ### Reads -/

theorem IdSet.has_iff {set : IdSet} {db : Db} {key : Bytes} :
    set.has db key = true ↔ ∃ n, getNodeByKey db set.tree.tree key = .ok n := by
  rw [IdSet.has]
  rcases getNodeByKey db set.tree.tree key with e | n
  · simp
  · simp

theorem Sets.bound_of_has (h : Sets c hg txn B) (hr : hg.Read B) (hk : id.length = 64)
    (hh : (hg.set tree).has hg.store id = true) : B tree id ≠ none := by
  rw [IdSet.has_iff, h.named tree] at hh
  exact (hr tree).has hk hh

theorem Sets.has_iff (h : Sets c hg txn B) (ht : txn.getD [] = []) (hk : id.length = 64) :
    (hg.set tree).has hg.store id = true ↔ B tree id ≠ none := by
  have hst := h.stores tree
  rw [pending, ht] at hst
  rw [IdSet.has_iff]
  exact hst.has hk

theorem Sets.read (h : Sets c hg txn B) (ht : txn.getD [] = []) : hg.Read B := fun tree => by
  have hst := (h.stores tree).reads
  rw [h.named tree, pending, ht] at hst
  exact hst

theorem Sets.leaves_eq (h : Sets c hg none B) (tree : TreeId) :
    hg.leaves tree = .ok ((hg.set tree).tree.root.leaves.map (·.toItem)) := by
  have hst := (h.stores tree).leaves lt_treeFuel
  rw [h.named tree] at hst
  simp only [HypergraphCRDT.leaves]
  rw [show hg.store = pending hg.store none from rfl, hst]
  rfl

theorem Sets.mem_leaves (h : Sets c hg none B) (tree : TreeId) :
    ∃ items, hg.leaves tree = .ok items ∧ ∀ a : Item, a ∈ items ↔ B tree a.key = some a := by
  refine ⟨_, h.leaves_eq tree, fun a => ?_⟩
  rw [← whole_leaves]
  exact (h.stores tree).mem_iff

theorem Sets.commitTxn (h : Sets c hg txn B) : Sets c (hg.commitTxn txn) none B :=
  ⟨h.stores, h.named, h.typed, h.covered, h.listed, h.nodup⟩

theorem Sets.commitSet (h : Sets c hg none B) {fuel : Nat} (hfl : pathLength 64 < fuel) (tree : TreeId) :
    ∃ root hg', hg.commitSet c fuel tree.setType tree.phaseType tree.shardKey = .ok (root, hg') ∧
      Leaves c hg none hg' none B ∧ hg'.size = hg.size := by
  rcases hs : hg.sets tree.setType tree.phaseType tree.shardKey with _ | set
  · exact ⟨_, hg, by rw [HypergraphCRDT.commitSet, hs], h.leaves, rfl⟩
  · have hs' : hg.set tree = set := by rw [HypergraphCRDT.set, setOr, hs, Option.getD_some]
    obtain ⟨root, db', hc, hsts, hfr⟩ := (h.stores tree).commit_spec c.sha3 (by decide) hfl false
    rw [h.named tree] at hfr
    have hst : Sets c { hg.putSet tree.setType tree.phaseType tree.shardKey
        { hg.set tree with tree := { (hg.set tree).tree with root } } with store := db' } none B :=
      h.putSet db' (fun tree' hne => (h.stores tree').frame ((h.stores tree').backed.other (h.named_ne hne) hfr))
        hsts (h.named tree) (h.typed tree) (h.covered tree)
    refine ⟨rootCommitOf c.sha512 c.prover (skel (whole (hg.set tree).tree.root)), _, ?_,
      ⟨hst, rfl, rfl, fun k hk => hfr k (hk tree), fun k hk => hfr k (hk tree), by rintro ⟨⟩⟩, rfl⟩
    rw [HypergraphCRDT.commitSet, hs, ← hs']
    exact bind_eq_ok.mpr ⟨_, hc, rfl⟩

theorem Sets.commit (h : Sets c hg none B) {fuel : Nat} (hfl : pathLength 64 < fuel) :
    ∃ hg', hg.commit c fuel = .ok hg' ∧ Leaves c hg none hg' none B ∧ hg'.size = hg.size := by
  refine List.foldlM_ok_of_inv (fun _ hg' => Leaves c hg none hg' none B ∧ hg'.size = hg.size) ⟨h.leaves, rfl⟩ ?_
  rintro - ⟨m, p, s⟩ - hg₁ - ⟨hL, hsz⟩
  obtain ⟨root, hg₂, hc, hL', hsz'⟩ := hL.sets.commitSet hfl ⟨m, p, s⟩
  exact ⟨hg₂, bind_eq_ok.mpr ⟨_, hc, rfl⟩, hL.trans hL', hsz'.trans hsz⟩

theorem sets_new (c : Crypto) (cov : List Nibble) :
    Sets c (.new OrdMap.empty cov) none fun _ _ => none where
  stores _ := ⟨trivial, holds_empty .., backed_fresh (fun _ _ => rfl) fun _ => rfl⟩
  named _ := rfl
  typed _ := rfl
  covered _ := rfl
  listed _ _ _ hne := absurd rfl hne
  nodup := List.nodup_nil

/-! ### Vertices -/

theorem Leaves.covers (h : Leaves c hg txn hg' txn' B') (id : Bytes) : hg'.covers id = hg.covers id := by
  rw [HypergraphCRDT.covers, h.coveredPrefix]
  rfl

section
variable (v : Vertex)

theorem Vertex.length_id : v.id.length = 64 := length_atomId _ _

section
variable (h : Sets c hg txn B)
include h

section
variable (hr : hg.Read B)
include hr

theorem Sets.addVertex (hc : hg.covers v.id = true) :
    ∃ hg' txn', hg.addVertex c txn v = .ok (hg', txn', none) ∧ Leaves c hg txn hg' txn' (B.bind (v.tree c .adds) v.item) ∧
      hg'.Read (B.bind (v.tree c .adds) v.item) ∧ hg'.size = hg.size + v.size := by
  have hL := h.create .vertex (shardKeyOf c.shake v.appAddress)
  obtain ⟨hg₁, txn', hadd, hL', hr', -, hsz⟩ := hL.sets.addTo hr (v.tree c .adds) v.item v.length_id hc
  simp only [Vertex.tree, set_create] at hadd
  refine ⟨{ hg₁ with size := hg₁.size + v.size }, txn', ?_, (hL.trans hL').resize _, hr', congrArg (· + v.size) hsz⟩
  simp [HypergraphCRDT.addVertex, hadd]

theorem Sets.addVertex_outside (hc : hg.covers v.id = false) :
    hg.addVertex c txn v = .ok (hg.attempted (v.tree c .adds), txn, wrap "add vertex" (some outsideCovered)) := by
  have hadd := h.addTo_create hr (v.tree c .adds) v.item v.length_id hc
  simp only [Vertex.tree] at hadd ⊢
  simp [HypergraphCRDT.addVertex, hadd]

/-- `RemoveVertex`: a vertex that is there is removed; one that is not goes into both sets. -/
theorem Sets.removeVertex (hc : hg.covers v.id = true) :
    ∃ hg' txn' B', hg.removeVertex c txn v = .ok (hg', txn', none) ∧ Leaves c hg txn hg' txn' B' ∧ hg'.Read B' ∧
      if (hg.set (v.tree c .adds)).has hg.store v.id && !(hg.set (v.tree c .removes)).has hg.store v.id then
        B' = B.bind (v.tree c .removes) v.item ∧ hg'.size = hg.size - v.size
      else B' = (B.bind (v.tree c .adds) v.item).bind (v.tree c .removes) v.item ∧ hg'.size = hg.size := by
  have hL := h.create .vertex (shardKeyOf c.shake v.appAddress)
  have hlk := hg.lookupVertex_eq c v
  generalize ((hg.set (v.tree c .adds)).has hg.store v.id && !(hg.set (v.tree c .removes)).has hg.store v.id) = found
    at hlk ⊢
  cases found with
  | true =>
    obtain ⟨hg₁, txn', hadd, hL₁, hr₁, -, hsz⟩ := hL.sets.addTo hr (v.tree c .removes) v.item v.length_id hc
    simp only [Vertex.tree, set_create] at hadd
    refine ⟨{ hg₁ with size := hg₁.size - v.size }, txn', _, ?_, (hL.trans hL₁).resize _, hr₁, rfl,
      congrArg (· - v.size) hsz⟩
    simp [HypergraphCRDT.removeVertex, hlk, hadd]
  | false =>
    obtain ⟨hg₁, txn₁, hadd, hL₁, hr₁, hs, hsz⟩ := hL.sets.addTo hr (v.tree c .adds) v.item v.length_id hc
    obtain ⟨hg₂, txn', hadd₂, hL₂, hr₂, -, hsz₂⟩ := hL₁.sets.addTo hr₁ (v.tree c .removes) v.item v.length_id
      ((hL₁.covers v.id).trans hc)
    -- the removes set was looked up before the addition to the adds set
    rw [hs (v.tree c .removes) (by simp [Vertex.tree])] at hadd₂
    simp only [Vertex.tree, set_create] at hadd hadd₂
    refine ⟨hg₂, txn', _, ?_, (hL.trans hL₁).trans hL₂, hr₂, rfl, hsz₂.trans hsz⟩
    simp [HypergraphCRDT.removeVertex, hlk, hadd, hadd₂, wrap]

theorem Sets.removeVertex_outside (hc : hg.covers v.id = false) : ∃ err, hg.removeVertex c txn v =
      .ok (hg.attempted (hg.removalTree c .vertex v.appAddress v.dataAddress), txn, some err) := by
  rw [removalTree]
  split_ifs with hfn
  · have hadd := h.addTo_create hr ⟨.vertex, .removes, shardKeyOf c.shake v.appAddress⟩ v.item v.length_id hc
    refine ⟨outsideCovered, ?_⟩
    simp [HypergraphCRDT.removeVertex, HypergraphCRDT.lookupVertex, Vertex.id, hfn, hadd]
  · have hadd := h.addTo_create hr ⟨.vertex, .adds, shardKeyOf c.shake v.appAddress⟩ v.item v.length_id hc
    refine ⟨"remove vertex" ++ ": " ++ outsideCovered, ?_⟩
    simp [HypergraphCRDT.removeVertex, HypergraphCRDT.lookupVertex, Vertex.id, hfn, hadd, wrap]

end

end

end

/-! ### Hyperedges -/

theorem Node.commit_idem (sha512 : Digest 64) (prover : InclusionProver) (t : Node) :
    commit sha512 prover false (commit sha512 prover false t).2 = commit sha512 prover false t := by
  induction t with
  | nil => rfl
  | leaf n =>
    by_cases hn : n.commitment = []
    · simp [commit, LeafNode.commit, hn]
    · simp [commit, LeafNode.commit, hn]
  | branch n ch ih =>
    by_cases hn : n.commitment = []
    · have hdt : ∀ i, vectorEntry sha512 (commit sha512 prover false (ch i)).2
          (commit sha512 prover false (commit sha512 prover false (ch i)).2).1 =
          vectorEntry sha512 (ch i) (commit sha512 prover false (ch i)).1 := fun i => by
        rw [ih i, vectorEntry_eq, vectorEntry_eq, commit_skel]
      have hc : commit sha512 prover false (.branch n ch) =
          (prover.commitRaw ((List.finRange 64).flatMap fun i =>
              vectorEntry sha512 (ch i) (commit sha512 prover false (ch i)).1) 64,
            .branch { n with commitment := prover.commitRaw ((List.finRange 64).flatMap fun i =>
              vectorEntry sha512 (ch i) (commit sha512 prover false (ch i)).1) 64 }
              fun i => (commit sha512 prover false (ch i)).2) := by
        rw [commit, if_pos (.inl hn)]
      rw [hc, commit]
      simp only [hdt]
      split
      · simp [ih]
      · rfl
    · have hc : commit sha512 prover false (.branch n ch) = (n.commitment, .branch n ch) := by
        rw [commit, if_neg (by simp [hn])]
      rw [hc]
      exact hc

theorem VectorCommitmentTree.commit_idem (sha512 : Digest 64) (prover : InclusionProver) (t : VectorCommitmentTree) :
    (t.commit sha512 prover false).2.commit sha512 prover false = t.commit sha512 prover false := by
  obtain ⟨root⟩ := t
  have h := Node.commit_idem sha512 prover root
  cases root with
  | nil => rfl
  | leaf n =>
    simp only [commit]
    rw [show (Node.commit sha512 prover false (.leaf n)).2 = .leaf (n.commit sha512 false).2 from rfl] at h ⊢
    simp only [h]
    rfl
  | branch n ch =>
    obtain ⟨n', ch', hb⟩ : ∃ n' ch', (Node.commit sha512 prover false (.branch n ch)).2 =
        .branch n' ch' := by
      rw [Node.commit]
      split
      · exact ⟨_, _, rfl⟩
      · exact ⟨_, _, rfl⟩
    simp only [commit]
    rw [hb] at h ⊢
    simp [h, hb]

namespace Hyperedge
variable (sha512 : Digest 64) (prover : InclusionProver) (e : Hyperedge)

theorem length_id : e.id.length = 64 := length_atomId _ _

theorem commit_idem : (e.commit sha512 prover).2.commit sha512 prover = e.commit sha512 prover := by
  simp [commit, VectorCommitmentTree.commit_idem]

theorem getSize_commit : (e.commit sha512 prover).2.getSize = e.getSize := by
  obtain ⟨app, data, ⟨root⟩⟩ := e
  cases root with
  | nil => rfl
  | leaf n => rfl
  | branch n ch =>
    simp only [commit, VectorCommitmentTree.commit, getSize, Node.commit]
    split <;> rfl

/-- The bytes of a hyperedge are those that it has once its tree is committed. -/
def Committed : Prop := (e.commit sha512 prover).2.toBytes = e.toBytes

theorem item_commit (h : e.Committed sha512 prover) :
    (e.commit sha512 prover).2.item sha512 prover = e.item sha512 prover := by
  simp only [item, commit_idem, getSize_commit]
  rw [h]
  rfl

end Hyperedge

section
variable (e : Hyperedge)

section
variable (h : Sets c hg txn B)
include h

section
variable (hr : hg.Read B)
include hr

theorem Sets.addHyperedgeTo (p : PhaseType) (hc : hg.covers e.id = true) :
    ∃ hg' txn', hg.addHyperedgeTo c txn p (shardKeyOf c.shake e.appAddress) (hg.set (e.tree c p)) e =
        .ok (hg', (e.commit c.sha512 c.prover).2, txn', none) ∧
      Leaves c hg txn hg' txn' (B.bind (e.tree c p) (e.item c.sha512 c.prover)) ∧
      hg'.Read (B.bind (e.tree c p) (e.item c.sha512 c.prover)) ∧
      (∀ tree', tree' ≠ e.tree c p → hg'.set tree' = hg.set tree') ∧ hg'.size = hg.size := by
  obtain ⟨hg', txn', hadd, hrs⟩ := h.addTo hr (e.tree c p) (e.item c.sha512 c.prover) e.length_id hc
  have hty : (hg.set (e.tree c p)).atomType = .hyperedge := h.typed _
  refine ⟨hg', txn', ?_, hrs⟩
  simp only [Hyperedge.tree] at hadd hty ⊢
  simp [HypergraphCRDT.addHyperedgeTo, hadd, hty]

theorem Sets.addHyperedgeTo_create (p : PhaseType) (hc : hg.covers e.id = false) :
    (hg.create .hyperedge (shardKeyOf c.shake e.appAddress)).addHyperedgeTo c txn p (shardKeyOf c.shake e.appAddress)
        (hg.set (e.tree c p)) e =
      .ok (hg.attempted (e.tree c p), (e.commit c.sha512 c.prover).2, txn, some outsideCovered) := by
  have hadd := h.addTo_create hr (e.tree c p) (e.item c.sha512 c.prover) e.length_id hc
  have hty : (hg.set (e.tree c p)).atomType = .hyperedge := h.typed _
  simp only [Hyperedge.tree] at hadd hty ⊢
  simp [HypergraphCRDT.addHyperedgeTo, hadd, hty]

theorem Sets.addHyperedge_removed (hh : (hg.set (e.tree c .removes)).has hg.store e.id = true) :
    ∃ hg', hg.addHyperedge c txn e = .ok (hg', e, txn, none) ∧ Leaves c hg txn hg' txn B ∧ hg'.Read B ∧
      hg'.size = hg.size := by
  rw [Hyperedge.tree] at hh
  refine ⟨_, ?_, h.create .hyperedge (shardKeyOf c.shake e.appAddress), hr, rfl⟩
  simp [addHyperedge, hh]

theorem Sets.addHyperedge (hh : (hg.set (e.tree c .removes)).has hg.store e.id = false)
    (hc : hg.covers e.id = true) :
    ∃ hg' txn', hg.addHyperedge c txn e = .ok (hg', (e.commit c.sha512 c.prover).2, txn', none) ∧
      Leaves c hg txn hg' txn' (B.bind (e.tree c .adds) (e.item c.sha512 c.prover)) ∧
      hg'.Read (B.bind (e.tree c .adds) (e.item c.sha512 c.prover)) ∧ hg'.size = hg.size + e.getSize := by
  have hL := h.create .hyperedge (shardKeyOf c.shake e.appAddress)
  obtain ⟨hg₁, txn', hadd, hL', hr', -, hsz⟩ := hL.sets.addHyperedgeTo e hr .adds hc
  simp only [Hyperedge.tree, set_create] at hadd hh
  refine ⟨{ hg₁ with size := hg₁.size + (e.commit c.sha512 c.prover).2.getSize }, txn', ?_, (hL.trans hL').resize _, hr', ?_⟩
  · simp [HypergraphCRDT.addHyperedge, hh, hadd]
  · rw [e.getSize_commit]
    exact congrArg (· + e.getSize) hsz

theorem Sets.addHyperedge_outside (hc : hg.covers e.id = false)
    (hh : (hg.set (e.tree c .removes)).has hg.store e.id = false) :
    hg.addHyperedge c txn e = .ok (hg.attempted (e.tree c .adds), (e.commit c.sha512 c.prover).2, txn,
      wrap "add hyperedge" (some outsideCovered)) := by
  have hadd := h.addHyperedgeTo_create e hr .adds hc
  simp only [Hyperedge.tree] at hadd hh ⊢
  simp [HypergraphCRDT.addHyperedge, hh, hadd]

/-- `RemoveHyperedge`: as for vertices. An absent hyperedge is committed by the addition to the adds set. -/
theorem Sets.removeHyperedge (hc : hg.covers e.id = true) :
    ∃ hg' txn' B', hg.removeHyperedge c txn e = .ok (hg', (e.commit c.sha512 c.prover).2, txn', none) ∧
      Leaves c hg txn hg' txn' B' ∧ hg'.Read B' ∧
      if (hg.set (e.tree c .adds)).has hg.store e.id && !(hg.set (e.tree c .removes)).has hg.store e.id then
        B' = B.bind (e.tree c .removes) (e.item c.sha512 c.prover) ∧ hg'.size = hg.size - e.getSize
      else B' = (B.bind (e.tree c .adds) (e.item c.sha512 c.prover)).bind (e.tree c .removes)
          ((e.commit c.sha512 c.prover).2.item c.sha512 c.prover) ∧ hg'.size = hg.size := by
  have hL := h.create .hyperedge (shardKeyOf c.shake e.appAddress)
  have hlk := hg.lookupHyperedge_eq c e
  generalize ((hg.set (e.tree c .adds)).has hg.store e.id && !(hg.set (e.tree c .removes)).has hg.store e.id) = found
    at hlk ⊢
  cases found with
  | true =>
    obtain ⟨hg₁, txn', hadd, hL₁, hr₁, -, hsz⟩ := hL.sets.addHyperedgeTo e hr .removes hc
    simp only [Hyperedge.tree, set_create] at hadd
    refine ⟨{ hg₁ with size := hg₁.size - (e.commit c.sha512 c.prover).2.getSize }, txn', _, ?_,
      (hL.trans hL₁).resize _, hr₁, rfl, ?_⟩
    · simp [HypergraphCRDT.removeHyperedge, hlk, hadd]
    · rw [e.getSize_commit]
      exact congrArg (· - e.getSize) hsz
  | false =>
    obtain ⟨hg₁, txn₁, hadd, hL₁, hr₁, hs, hsz⟩ := hL.sets.addHyperedgeTo e hr .adds hc
    obtain ⟨hg₂, txn', hadd₂, hL₂, hr₂, -, hsz₂⟩ := hL₁.sets.addHyperedgeTo (e.commit c.sha512 c.prover).2 hr₁ .removes
      ((hL₁.covers e.id).trans hc)
    -- the removes set was looked up before the addition to the adds set
    rw [show hg₁.set ((e.commit c.sha512 c.prover).2.tree c .removes) = _ from
      hs (e.tree c .removes) (by simp [Hyperedge.tree]), e.commit_idem] at hadd₂
    simp only [Hyperedge.tree, set_create] at hadd hadd₂
    refine ⟨hg₂, txn', _, ?_, (hL.trans hL₁).trans hL₂, hr₂, rfl, hsz₂.trans hsz⟩
    rw [show (e.commit c.sha512 c.prover).2.appAddress = e.appAddress from rfl] at hadd₂
    simp [HypergraphCRDT.removeHyperedge, hlk, hadd, hadd₂, wrap]

theorem Sets.removeHyperedge_outside (hc : hg.covers e.id = false) :
    ∃ err, hg.removeHyperedge c txn e = .ok (hg.attempted (hg.removalTree c .hyperedge e.appAddress e.dataAddress),
      (e.commit c.sha512 c.prover).2, txn, some err) := by
  rw [removalTree]
  split_ifs with hfn
  · have hadd := h.addHyperedgeTo_create e hr .removes hc
    simp only [Hyperedge.tree] at hadd
    refine ⟨outsideCovered, ?_⟩
    simp [HypergraphCRDT.removeHyperedge, HypergraphCRDT.lookupHyperedge, Hyperedge.id, hfn, hadd]
  · have hadd := h.addHyperedgeTo_create e hr .adds hc
    simp only [Hyperedge.tree] at hadd
    refine ⟨"remove hyperedge" ++ ": " ++ outsideCovered, ?_⟩
    simp [HypergraphCRDT.removeHyperedge, HypergraphCRDT.lookupHyperedge, Hyperedge.id, hfn, hadd, wrap]

end

end

end

end

/-! ### Atoms -/

inductive Atom where
  | vertex (v : Vertex)
  | hyperedge (h : Hyperedge)

namespace Atom

def id : Atom → Bytes
  | .vertex v => v.id
  | .hyperedge h => h.id

def item (c : Crypto) : Atom → Item
  | .vertex v => v.item
  | .hyperedge h => h.item c.sha512 c.prover

def tree (c : Crypto) : Atom → PhaseType → TreeId
  | .vertex v => v.tree c
  | .hyperedge h => h.tree c

theorem item_key (c : Crypto) (a : Atom) : (a.item c).key = a.id := by
  cases a <;> rfl

theorem length_id (a : Atom) : a.id.length = 64 := by
  cases a with
  | vertex v => exact v.length_id
  | hyperedge h => exact h.length_id

end Atom

end Quilibrium
