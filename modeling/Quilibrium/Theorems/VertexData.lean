import Quilibrium.Theorems.ChangeRecords

/-! The data of vertices: what the iterator over a shard yields. -/

namespace Quilibrium
open List

/-! ### The range of a shard -/

theorem natOfBE_zeros (n : Nat) (b : Bytes) : natOfBE (replicate n 0 ++ b) = natOfBE b := by
  induction n with
  | zero => rfl
  | succ n ih => rw [replicate_succ, cons_append, natOfBE_cons, ih, UInt8.toNat_zero, Nat.zero_mul, Nat.zero_add]

theorem vertexDataEnd_range {p k : Bytes} (h : natOfBE p + 1 < 256 ^ p.length) (hk : p.length ≤ k.length) :
    p ≤ k ∧ k < vertexDataEnd p ↔ p <+: k := by
  have hd : (bigIntBytes (natOfBE p + 1)).length ≤ p.length := by
    rw [bigIntBytes, length_map, length_reverse]
    exact (Nat.digits_length_le_iff (by norm_num) _).mpr h
  have hl : p.length = (vertexDataEnd p).length := by
    rw [vertexDataEnd, length_append, length_replicate, Nat.sub_add_cancel hd]
  have hn : natOfBE (vertexDataEnd p) = natOfBE p + 1 := by
    rw [vertexDataEnd, natOfBE_zeros, natOfBE_bigIntBytes]
  constructor
  · rintro ⟨hle, hlt⟩
    have hq : (k.take p.length).length = p.length := length_take_of_le hk
    have hpq : ¬k.take p.length < p := fun h => by
      have := append_lt_append_of_lt hq h (k.drop p.length) []
      rw [take_append_drop, append_nil] at this
      exact this.not_ge hle
    have hqe := lt_of_le_of_lt (prefix_le ( take_prefix p.length k)) hlt
    rw [← natOfBE_lt_iff (hq.trans hl), hn] at hqe
    have hqp : ¬p < k.take p.length := by
      rw [← natOfBE_lt_iff hq.symm]
      omega
    exact prefix_iff_eq_take.mpr (le_antisymm (not_lt.mp hpq) (not_lt.mp hqp))
  · rintro ⟨t, rfl⟩
    have hp : p < vertexDataEnd p := (natOfBE_lt_iff hl).mp (by omega)
    exact ⟨prefix_le ⟨t, rfl⟩, by simpa using append_lt_append_of_lt hl hp t []⟩

theorem vertexDataKey_range (id : Bytes) :
    natOfBE (hypergraphVertexDataKey id) + 1 < 256 ^ (hypergraphVertexDataKey id).length := by
  have hl := natOfBE_lt (VERTEX_DATA :: id)
  rw [hypergraphVertexDataKey, natOfBE_cons, show HYPERGRAPH_SHARD.toNat = 9 from rfl]
  simp only [length_cons, Nat.pow_succ] at hl ⊢
  omega

/-! ### Adding and removing vertices -/

/-- What is written. Identifiers of vertices have 64 bytes, the keys of branches 32. -/
inductive VertexOp where
  | data (id : Bytes) (data : VectorCommitmentTree) (h : id.length = 64)
  | insert (tree : TreeId) (key : Bytes) (path : List Nibble) (node : LazyNode) (h : key.length = 64 ∨ key.length = 32)
  | delete (tree : TreeId) (key : Bytes) (path : List Nibble) (h : key.length = 64 ∨ key.length = 32)

namespace VertexOp

def writes : VertexOp → List Write
  | data id tree _ => saveVertexTree id tree
  | insert tree key path node _ => insertNode tree key path node
  | delete tree key path _ => deleteNode tree key path

def stored (ops : List VertexOp) : Db := Db.apply .empty (ops.flatMap writes)

inductive Key : Bytes → Prop
  | data {id : Bytes} : id.length = 64 → Key (hypergraphVertexDataKey id)
  | node (tree : TreeId) {key : Bytes} : key.length = 64 ∨ key.length = 32 → Key (tree.nodeKey key)
  | path (tree : TreeId) (p : List Nibble) : Key (tree.pathKey p)

variable {ops : List VertexOp} {s : ShardKey} {id k : Bytes} {tree : TreeId}

theorem key_of_mem {op : VertexOp} {w : Write} (hw : w ∈ op.writes) : Key w.key := by
  cases op with
  | data id data h =>
    obtain rfl := mem_singleton.mp hw
    exact .data h
  | insert tree key p node h =>
    cases node with
    | nil => cases hw
    | leaf | branch =>
      obtain rfl | hw := mem_cons.mp hw
      · exact .node tree h
      · obtain rfl := mem_singleton.mp hw
        exact .path tree _
  | delete tree key p h =>
    obtain rfl | hw := mem_cons.mp hw
    · exact .path tree p
    · obtain rfl := mem_singleton.mp hw
      exact .node tree h

theorem key_of_get (h : (stored ops).get k ≠ none) : Key k := by
  by_contra hk
  refine h ((Db.get_apply_of_untouched _ fun w hw heq => ?_).trans (OrdMap.get_empty k))
  obtain ⟨op, -, hw⟩ := mem_flatMap.mp hw
  exact hk (heq ▸ key_of_mem hw)

theorem Key.length (h : Key k) : 34 ≤ k.length := by
  cases h with
  | data h => simp [hypergraphVertexDataKey, h]
  | node tree | path tree =>
    simp only [tree.nodeKey_eq, tree.pathKey_eq, shardRecordKey, length_cons, length_append, tree.shardKey.length_l2]
    omega

theorem Key.length_node (h : Key (tree.nodeKey k)) : k.length = 64 ∨ k.length = 32 := by
  generalize hq : tree.nodeKey k = q at h
  cases h with
  | data => exact absurd (hq ▸ tree.owns_nodeKey k) (not_owns_vertexDataKey tree _)
  | node tree' h =>
    rw [tree.nodeKey_eq, tree'.nodeKey_eq] at hq
    exact (shardRecordKey_inj hq).2.2 ▸ h
  | path => exact absurd hq (TreeId.nodeKey_ne_pathKey _ _)

theorem Key.length_data (h : Key (hypergraphVertexDataKey id)) : id.length = 64 := by
  generalize hq : hypergraphVertexDataKey id = q at h
  cases h with
  | data h => exact (cons.inj (cons.inj hq).2).2 ▸ h
  | node tree => exact absurd (hq ▸ tree.owns_nodeKey _) (not_owns_vertexDataKey tree id)
  | path tree => exact absurd (hq ▸ tree.owns_pathKey _) (not_owns_vertexDataKey tree id)

/-! ### What the iterator yields -/

theorem vertexDataValue_eq {v : Value} (h : (stored ops).get (hypergraphVertexDataKey id) = some v) :
    vertexDataValue (stored ops) s (hypergraphVertexDataKey id) v = (loadVertexTree (stored ops) id).toOption := by
  have hnone : (stored ops).get (hypergraphVertexRemovesTreeNodeKey s (hypergraphVertexDataKey id)) = none := by
    by_contra hne
    have hl := (show Key (TreeId.nodeKey ⟨.vertex, .removes, s⟩ _) from key_of_get hne).length_node
    have hid := (key_of_get (h ▸ Option.some_ne_none v)).length_data
    simp [hypergraphVertexDataKey, hid] at hl
  rw [loadVertexTree, h]
  cases v with
  | node | key => rfl
  | data b =>
    rw [vertexDataValue, hnone]
    cases b with
    | nil => rfl
    | cons x b =>
      simp only [isEmpty_cons, Option.isSome_none, Bool.or_self, Bool.false_eq_true, if_false]
      cases deserializeNonLazyTree (x :: b) <;> rfl

theorem mem_dataRange {e : Bytes × Value} :
    e ∈ OrdMap.range (stored ops) (hypergraphVertexDataKey s.l2) (vertexDataEnd (hypergraphVertexDataKey s.l2)) ↔
      ∃ id, s.l2 <+: id ∧ e.1 = hypergraphVertexDataKey id ∧ (stored ops).get (hypergraphVertexDataKey id) = some e.2 := by
  have hr {k : Bytes} (hk : Key k) := vertexDataEnd_range (vertexDataKey_range s.l2)
    (by simpa [hypergraphVertexDataKey, s.length_l2] using hk.length)
  obtain ⟨k, v⟩ := e
  simp only [OrdMap.range, mem_filter, ← OrdMap.get_eq_some, decide_eq_true_eq]
  constructor
  · rintro ⟨hget, hk⟩
    obtain ⟨t, rfl⟩ := (hr (key_of_get (hget ▸ Option.some_ne_none v))).mp hk
    exact ⟨s.l2 ++ t, prefix_append _ t, rfl, hget⟩
  · rintro ⟨_, ⟨t, rfl⟩, rfl, hget⟩
    exact ⟨hget, (hr (key_of_get (hget ▸ Option.some_ne_none v))).mpr ⟨t, rfl⟩⟩

theorem mem_vertexData {value : Option VectorCommitmentTree} : (id, value) ∈ vertexDataIterator (stored ops) s ↔
    s.l2 <+: id ∧ (stored ops).get (hypergraphVertexDataKey id) ≠ none ∧
      value = (loadVertexTree (stored ops) id).toOption := by
  simp only [vertexDataIterator, mem_map, mem_dataRange]
  constructor
  · rintro ⟨⟨_, v⟩, ⟨id, hs, rfl, hget⟩, heq⟩
    obtain ⟨rfl, rfl⟩ := Prod.mk.inj heq
    exact ⟨hs, hget ▸ Option.some_ne_none v, vertexDataValue_eq hget⟩
  · rintro ⟨hs, hne, rfl⟩
    obtain ⟨v, hget⟩ := Option.ne_none_iff_exists'.mp hne
    exact ⟨(_, v), ⟨id, hs, rfl, hget⟩, Prod.ext rfl (vertexDataValue_eq hget)⟩

theorem nodup_vertexData : ((vertexDataIterator (stored ops) s).map Prod.fst).Nodup := by
  rw [vertexDataIterator, map_map, Nodup, pairwise_map]
  refine ((stored ops).sorted.filter _).imp_of_mem fun {a b} ha hb hlt heq => hlt.ne ?_
  obtain ⟨id, -, hid, -⟩ := mem_dataRange.mp ha
  obtain ⟨id', -, hid', -⟩ := mem_dataRange.mp hb
  rw [Function.comp, Function.comp, hid, hid'] at heq
  rw [hid, hid']
  exact congrArg hypergraphVertexDataKey heq

/-- The vertices of the shard with data come once each, those in the removes set with no tree, the others with theirs. -/
def Iterates (db : Db) (s : ShardKey) : Prop :=
  ((vertexDataIterator db s).map Prod.fst).Nodup ∧
  (∀ id, id ∈ (vertexDataIterator db s).map Prod.fst ↔ s.l2 <+: id ∧ db.get (hypergraphVertexDataKey id) ≠ none) ∧
  ∀ e ∈ vertexDataIterator db s, (e.2 = none ↔ db.get (hypergraphVertexRemovesTreeNodeKey s e.1) ≠ none) ∧
    (e.2 ≠ none → e.2 = (loadVertexTree db e.1).toOption)

theorem Iterates.removed_iff (h : Iterates (stored ops) s) (hs : s.l2 <+: id)
    (hne : (stored ops).get (hypergraphVertexDataKey id) ≠ none) :
    (stored ops).get (hypergraphVertexRemovesTreeNodeKey s id) ≠ none ↔ (loadVertexTree (stored ops) id).toOption = none :=
  (h.2.2 _ (mem_vertexData.mpr ⟨hs, hne, rfl⟩)).1.symm

/-- The iterator is right exactly if the vertices in the removes set are those whose data cannot be read. -/
theorem iterates_iff (ops : List VertexOp) (s : ShardKey) : Iterates (stored ops) s ↔
    ∀ id, s.l2 <+: id → (stored ops).get (hypergraphVertexDataKey id) ≠ none →
      ((stored ops).get (hypergraphVertexRemovesTreeNodeKey s id) ≠ none ↔
        (loadVertexTree (stored ops) id).toOption = none) := by
  refine ⟨fun h id => h.removed_iff, fun h => ⟨nodup_vertexData, fun id => by simp [mem_vertexData], ?_⟩⟩
  rintro ⟨id, value⟩ he
  obtain ⟨hs, hne, rfl⟩ := mem_vertexData.mp he
  exact ⟨(h id hs hne).symm, fun _ => rfl⟩

/-- A removed vertex comes with its data. -/
theorem not_iterates : ¬Iterates (stored [.data (replicate 64 0) ⟨.nil⟩ rfl,
    .insert ⟨.vertex, .removes, ⟨replicate 3 0, replicate 32 0, rfl, rfl⟩⟩ (replicate 64 0) [] (.leaf ⟨⟨[], [], [], 0⟩, []⟩)
      (.inl rfl)]) ⟨replicate 3 0, replicate 32 0, rfl, rfl⟩ := fun h =>
  have hs : replicate 32 (0 : UInt8) <+: replicate 64 0 := ⟨replicate 32 0, rfl⟩
  absurd ((h.removed_iff hs (by decide +kernel)).mp (by decide +kernel)) (by decide +kernel)

end VertexOp

end Quilibrium
