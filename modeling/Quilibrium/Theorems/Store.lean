import Quilibrium.Lib.Except
import Quilibrium.Store.Hypergraph

/-! The node store. Keys of different kinds, trees or paths differ. -/

namespace Quilibrium
open Radix List OrdMap TreeId

/-! ### Keys -/

def TreeId.nodeTag (tree : TreeId) : UInt8 :=
  match tree.setType, tree.phaseType with
  | .vertex, .adds => VERTEX_ADDS_TREE_NODE
  | .vertex, .removes => VERTEX_REMOVES_TREE_NODE
  | .hyperedge, .adds => HYPEREDGE_ADDS_TREE_NODE
  | .hyperedge, .removes => HYPEREDGE_REMOVES_TREE_NODE

def TreeId.pathTag (tree : TreeId) : UInt8 :=
  match tree.setType, tree.phaseType with
  | .vertex, .adds => VERTEX_ADDS_TREE_NODE_BY_PATH
  | .vertex, .removes => VERTEX_REMOVES_TREE_NODE_BY_PATH
  | .hyperedge, .adds => HYPEREDGE_ADDS_TREE_NODE_BY_PATH
  | .hyperedge, .removes => HYPEREDGE_REMOVES_TREE_NODE_BY_PATH

def TreeId.rootTag (tree : TreeId) : UInt8 :=
  match tree.setType, tree.phaseType with
  | .vertex, .adds => VERTEX_ADDS_TREE_ROOT
  | .vertex, .removes => VERTEX_REMOVES_TREE_ROOT
  | .hyperedge, .adds => HYPEREDGE_ADDS_TREE_ROOT
  | .hyperedge, .removes => HYPEREDGE_REMOVES_TREE_ROOT

section
variable {t t' : TreeId}

theorem TreeId.nodeKey_eq (t : TreeId) (k : Bytes) : t.nodeKey k = shardRecordKey t.nodeTag t.shardKey k := by
  obtain ⟨_ | _, _ | _, s⟩ := t <;> rfl

theorem TreeId.pathKey_eq (t : TreeId) (p : List Nibble) :
    t.pathKey p = shardRecordKey t.pathTag t.shardKey (pathBytes p) := by
  obtain ⟨_ | _, _ | _, s⟩ := t <;> rfl

theorem TreeId.rootKey_eq (t : TreeId) : t.rootKey = shardRecordKey t.rootTag t.shardKey [] := by
  obtain ⟨_ | _, _ | _, s⟩ := t <;> rfl

theorem TreeId.nodeTag_ne_pathTag : t.nodeTag ≠ t'.pathTag := by
  obtain ⟨_ | _, _ | _, _⟩ := t <;> obtain ⟨_ | _, _ | _, _⟩ := t' <;> simp only [nodeTag, pathTag] <;> decide

theorem TreeId.rootTag_ne_pathTag : t.rootTag ≠ t'.pathTag := by
  obtain ⟨_ | _, _ | _, _⟩ := t <;> obtain ⟨_ | _, _ | _, _⟩ := t' <;> simp only [rootTag, pathTag] <;> decide

theorem TreeId.rootTag_ne_nodeTag : t.rootTag ≠ t'.nodeTag := by
  obtain ⟨_ | _, _ | _, _⟩ := t <;> obtain ⟨_ | _, _ | _, _⟩ := t' <;> simp only [rootTag, nodeTag] <;> decide

theorem shardRecordKey_prefix_iff {tag tag' : UInt8} {s s' : ShardKey} {r r' : Bytes} :
    shardRecordKey tag s r <+: shardRecordKey tag' s' r' ↔ tag = tag' ∧ s = s' ∧ r <+: r' := by
  obtain ⟨l1, l2, h1, h2⟩ := s
  obtain ⟨l1', l2', h1', h2'⟩ := s'
  simp only [shardRecordKey, cons_prefix_cons, true_and, append_assoc, ShardKey.mk.injEq]
  refine and_congr_right fun _ => ?_
  constructor
  · rintro ⟨rest, h⟩
    simp only [append_assoc] at h
    obtain ⟨e1, h⟩ := append_inj h (h1.trans h1'.symm)
    obtain ⟨e2, h⟩ := append_inj h (h2.trans h2'.symm)
    exact ⟨⟨e1, e2⟩, rest, h⟩
  · rintro ⟨⟨rfl, rfl⟩, rest, rfl⟩
    exact ⟨rest, by simp⟩

theorem shardRecordKey_inj {tag tag' : UInt8} {s s' : ShardKey} {r r' : Bytes}
    (h : shardRecordKey tag s r = shardRecordKey tag' s' r') : tag = tag' ∧ s = s' ∧ r = r' := by
  have hpre : shardRecordKey tag s r <+: shardRecordKey tag' s' r' := h ▸ prefix_rfl
  obtain ⟨ht, hs, hr⟩ := shardRecordKey_prefix_iff.mp hpre
  refine ⟨ht, hs, hr.eq_of_length_le ?_⟩
  have hl := congrArg length h
  simp only [shardRecordKey, length_cons, length_append, ht, hs] at hl
  omega

theorem uint64BE_nibble (p : Nibble) : uint64BE p.val = [0, 0, 0, 0, 0, 0, 0, UInt8.ofNat p.val] := by
  revert p
  decide

theorem nibble_ofNat_inj {p q : Nibble} (h : UInt8.ofNat p.val = UInt8.ofNat q.val) : p = q := by
  revert p q
  decide

theorem pathBytes_cons (p : Nibble) (ps : List Nibble) :
    pathBytes (p :: ps) = [0, 0, 0, 0, 0, 0, 0, UInt8.ofNat p.val] ++ pathBytes ps := by
  rw [pathBytes, flatMap_cons, uint64BE_nibble, pathBytes]

theorem pathBytes_append (p q : List Nibble) : pathBytes (p ++ q) = pathBytes p ++ pathBytes q := flatMap_append

theorem pathBytes_prefix_iff {p q : List Nibble} : pathBytes p <+: pathBytes q ↔ p <+: q := by
  constructor
  · intro h
    induction p generalizing q with
    | nil => exact nil_prefix
    | cons a p ih =>
      cases q with
      | nil =>
        rw [pathBytes_cons] at h
        simp [pathBytes] at h
      | cons b q =>
        rw [pathBytes_cons, pathBytes_cons] at h
        simp only [cons_append, nil_append, cons_prefix_cons, true_and] at h
        rw [nibble_ofNat_inj h.1]
        exact (prefix_cons_inj b).mpr (ih h.2)
  · rintro ⟨r, rfl⟩
    exact ⟨pathBytes r, (pathBytes_append p r).symm⟩

theorem TreeId.pathKey_prefix_iff {p q : List Nibble} : t.pathKey p <+: t.pathKey q ↔ p <+: q := by
  rw [pathKey_eq, pathKey_eq, shardRecordKey_prefix_iff, pathBytes_prefix_iff]
  exact ⟨fun h => h.2.2, fun h => ⟨rfl, rfl, h⟩⟩

theorem TreeId.pathKey_inj {p q : List Nibble} (h : t.pathKey p = t.pathKey q) : p = q := by
  have hpq : t.pathKey p <+: t.pathKey q := h ▸ prefix_rfl
  have hqp : t.pathKey q <+: t.pathKey p := h ▸ prefix_rfl
  exact (pathKey_prefix_iff.mp hpq).eq_of_length_le (pathKey_prefix_iff.mp hqp).length_le

theorem TreeId.nodeKey_inj {k k' : Bytes} (h : t.nodeKey k = t.nodeKey k') : k = k' := by
  rw [nodeKey_eq, nodeKey_eq] at h
  exact (shardRecordKey_inj h).2.2

theorem TreeId.nodeKey_ne_pathKey (k : Bytes) (p : List Nibble) : t.nodeKey k ≠ t'.pathKey p := fun h => by
  rw [nodeKey_eq, pathKey_eq] at h
  exact nodeTag_ne_pathTag (shardRecordKey_inj h).1

theorem TreeId.rootKey_ne_pathKey (p : List Nibble) : t.rootKey ≠ t'.pathKey p := fun h => by
  rw [rootKey_eq, pathKey_eq] at h
  exact rootTag_ne_pathTag (shardRecordKey_inj h).1

theorem TreeId.rootKey_ne_nodeKey (k : Bytes) : t.rootKey ≠ t'.nodeKey k := fun h => by
  rw [rootKey_eq, nodeKey_eq] at h
  exact rootTag_ne_nodeTag (shardRecordKey_inj h).1

end

/-! ### Writes -/

def Write.key : Write → Bytes
  | .set key _ => key
  | .delete key => key

theorem Db.apply_append (db : Db) (ws ws' : List Write) : db.apply (ws ++ ws') = (db.apply ws).apply ws' := foldl_append

theorem Db.get_write_of_ne (db : Db) {w : Write} {k : Bytes} (h : w.key ≠ k) : (db.write w).get k = db.get k := by
  cases w with
  | set key value => exact get_set_ne db value (Ne.symm h)
  | delete key => exact (get_delete db key k).trans (if_neg (Ne.symm h))

theorem Db.get_apply_of_untouched {ws : List Write} (db : Db) {k : Bytes} (h : ∀ w ∈ ws, w.key ≠ k) :
    (db.apply ws).get k = db.get k := by
  induction ws generalizing db with
  | nil => rfl
  | cons w ws ih =>
    rw [← db.get_write_of_ne (h w mem_cons_self)]
    exact ih _ fun w hw => h w (mem_cons_of_mem _ hw)

section
variable {db db' : Db} {k : Bytes} (h : db.get k = db'.get k)
include h

theorem Db.get_write_congr (w : Write) : (db.write w).get k = (db'.write w).get k := by
  cases w with
  | set key value => rw [Db.write, Db.write, get_set, get_set, h]
  | delete key => rw [Db.write, Db.write, get_delete, get_delete, h]

theorem Db.get_apply_congr (ws : List Write) : (db.apply ws).get k = (db'.apply ws).get k := by
  induction ws generalizing db db' with
  | nil => exact h
  | cons w ws ih => exact ih (Db.get_write_congr h w)

end

theorem Db.apply_comm (db : Db) {ws ws' : List Write} (h : ∀ w ∈ ws, ∀ w' ∈ ws', w.key ≠ w'.key) :
    (db.apply ws).apply ws' = (db.apply ws').apply ws := by
  refine ext_get fun k => ?_
  by_cases hk : ∃ w' ∈ ws', w'.key = k
  · obtain ⟨w', hw', rfl⟩ := hk
    have hws : ∀ w ∈ ws, w.key ≠ w'.key := fun w hw => h w hw w' hw'
    rw [Db.get_apply_congr (db.get_apply_of_untouched hws), Db.get_apply_of_untouched _ hws]
  · have hws' : ∀ w' ∈ ws', w'.key ≠ k := fun w' hw' heq => hk ⟨w', hw', heq⟩
    rw [Db.get_apply_of_untouched _ hws', Db.get_apply_congr (db.get_apply_of_untouched hws')]

/-- The writes that store a record under a key and an entry for it under a path. -/
def file (tree : TreeId) (key : Bytes) (r : NodeRecord) (path : List Nibble) : List Write :=
  [.set (tree.nodeKey key) (.node r), .set (tree.pathKey path) (.key (tree.nodeKey key))]

section
variable (db : Db) (tree : TreeId) (key : Bytes) (r : NodeRecord) (p : List Nibble)

theorem insertNode_leaf (n : LeafNode) : insertNode tree key p (.leaf n) = file tree key (.leaf n) p := rfl

theorem insertNode_branch (n : LazyBranchNode) (ch : Fin 64 → LazyNode) :
    insertNode tree key p (.branch n ch) = file tree key n.record n.fullPrefix := rfl

theorem get_file_path (q : List Nibble) : (db.apply (file tree key r p)).get (tree.pathKey q) =
    if q = p then some (.key (tree.nodeKey key)) else db.get (tree.pathKey q) := by
  simp only [file, Db.apply, foldl_cons, foldl_nil, Db.write, get_set]
  rw [if_neg (nodeKey_ne_pathKey key q).symm]
  by_cases h : q = p
  · rw [if_pos h, if_pos (h ▸ rfl)]
  · rw [if_neg h, if_neg (mt pathKey_inj h)]

theorem get_file_node (k : Bytes) : (db.apply (file tree key r p)).get (tree.nodeKey k) =
    if k = key then some (.node r) else db.get (tree.nodeKey k) := by
  simp only [file, Db.apply, foldl_cons, foldl_nil, Db.write, get_set]
  rw [if_neg (nodeKey_ne_pathKey k p)]
  by_cases h : k = key
  · rw [if_pos h, if_pos (h ▸ rfl)]
  · rw [if_neg h, if_neg (mt nodeKey_inj h)]

theorem get_deleteNode_path (q : List Nibble) : (db.apply (deleteNode tree key p)).get (tree.pathKey q) =
    if q = p then none else db.get (tree.pathKey q) := by
  simp only [deleteNode, Db.apply, foldl_cons, foldl_nil, Db.write, get_delete]
  rw [if_neg (nodeKey_ne_pathKey key q).symm]
  by_cases h : q = p
  · rw [if_pos h, if_pos (h ▸ rfl)]
  · rw [if_neg h, if_neg (mt pathKey_inj h)]

theorem get_deleteNode_node (k : Bytes) : (db.apply (deleteNode tree key p)).get (tree.nodeKey k) =
    if k = key then none else db.get (tree.nodeKey k) := by
  simp only [deleteNode, Db.apply, foldl_cons, foldl_nil, Db.write, get_delete]
  rw [if_neg (nodeKey_ne_pathKey k p)]
  by_cases h : k = key
  · rw [if_pos h, if_pos (h ▸ rfl)]
  · rw [if_neg h, if_neg (mt nodeKey_inj h)]

end

/-! ### Scans of the path index -/

/-- Every key in the path index of the tree is that of a path, and its value is a node key. -/
def Indexed (db : Db) (tree : TreeId) : Prop :=
  ∀ k v, db.get k = some v → tree.pathKey [] <+: k → ∃ q nk, k = tree.pathKey q ∧ v = .key nk

section
variable {db : Db} {tree : TreeId} {p : List Nibble}

theorem Indexed.set (h : Indexed db tree) {key : Bytes} {value : Value}
    (hkey : tree.pathKey [] <+: key → ∃ q nk, key = tree.pathKey q ∧ value = .key nk) :
    Indexed (db.write (.set key value)) tree := by
  intro k v hget hk
  rw [Db.write, get_set] at hget
  split_ifs at hget with heq
  · cases hget
    exact heq ▸ hkey (heq ▸ hk)
  · exact h k v hget hk

theorem Indexed.delete (h : Indexed db tree) (key : Bytes) : Indexed (db.write (.delete key)) tree := by
  intro k v hget hk
  rw [Db.write, get_delete] at hget
  split_ifs at hget
  exact h k v hget hk

theorem nodeKey_not_indexed (key : Bytes) : ¬tree.pathKey [] <+: tree.nodeKey key := by
  rw [pathKey_eq, nodeKey_eq, shardRecordKey_prefix_iff]
  exact fun h => nodeTag_ne_pathTag h.1.symm

theorem rootKey_not_indexed : ¬tree.pathKey [] <+: tree.rootKey := by
  rw [pathKey_eq, rootKey_eq, shardRecordKey_prefix_iff]
  exact fun h => rootTag_ne_pathTag h.1.symm

theorem Indexed.file (h : Indexed db tree) (key : Bytes) (r : NodeRecord) (p : List Nibble) :
    Indexed (db.apply (file tree key r p)) tree :=
  (h.set fun hk => absurd hk (nodeKey_not_indexed key)).set fun _ => ⟨p, _, rfl, rfl⟩

theorem Indexed.deleteNode (h : Indexed db tree) (key : Bytes) (p : List Nibble) :
    Indexed (db.apply (deleteNode tree key p)) tree :=
  (h.delete _).delete _

theorem Indexed.saveRoot (h : Indexed db tree) (node : LazyNode) : Indexed (db.apply (saveRoot tree node)) tree := by
  cases node with
  | nil => exact h
  | leaf n | branch n ch => exact h.set fun hk => absurd hk rootKey_not_indexed

theorem pathKey_lt_upper {q : List Nibble} (h : p <+: q) :
    tree.pathKey q < tree.pathKey p ++ (replicate 86 [0, 0, 0, 63]).flatten := by
  obtain ⟨r, rfl⟩ := h
  have happ : tree.pathKey (p ++ r) = tree.pathKey p ++ pathBytes r := by
    rw [pathKey_eq, pathKey_eq, pathBytes_append]
    simp [shardRecordKey]
  rw [happ, append_lt_append_iff]
  cases r with
  | nil => exact Lex.nil
  | cons a r =>
    rw [pathBytes_cons]
    refine Lex.cons (Lex.cons (Lex.cons (Lex.rel ?_)))
    decide

theorem scan_range {k : Bytes} (hk : tree.pathKey [] ≤ k ∧
    k < tree.pathKey p ++ (replicate 86 [0, 0, 0, 63]).flatten ∧ tree.pathKey p ≤ k) : tree.pathKey p <+: k :=
  prefix_of_le_of_lt hk.2.2 hk.2.1

theorem scan_range_path {q : List Nibble} (h : p <+: q) : tree.pathKey [] ≤ tree.pathKey q ∧
    tree.pathKey q < tree.pathKey p ++ (replicate 86 [0, 0, 0, 63]).flatten ∧ tree.pathKey p ≤ tree.pathKey q :=
  ⟨prefix_le (pathKey_prefix_iff.mpr nil_prefix), pathKey_lt_upper h, prefix_le (pathKey_prefix_iff.mpr h)⟩

section
variable (hidx : Indexed db tree)
include hidx

theorem getNodeByPath_notFound (hnn : ∀ q, p <+: q → db.get (tree.pathKey q) = none) :
    getNodeByPath db tree p = .error .notFound := by
  have hsk : db.seekGE (tree.pathKey []) (tree.pathKey p ++ (replicate 86 [0, 0, 0, 63]).flatten)
      (tree.pathKey p) = none := by
    refine seekGE_eq_none.mpr fun k v hk hin => ?_
    have hpk := scan_range hin
    obtain ⟨q, -, rfl, -⟩ := hidx k v hk ((pathKey_prefix_iff.mpr nil_prefix).trans hpk)
    rw [hnn q (pathKey_prefix_iff.mp hpk)] at hk
    cases hk
  rw [getNodeByPath, hsk]

theorem seek_entry {q : List Nibble} (hq : p <+: q) (hget : db.get (tree.pathKey q) ≠ none) :
    ∃ e nk, p <+: e ∧ db.get (tree.pathKey e) = some (.key nk) ∧ tree.pathKey e ≤ tree.pathKey q ∧
      db.seekGE (tree.pathKey []) (tree.pathKey p ++ (replicate 86 [0, 0, 0, 63]).flatten) (tree.pathKey p) =
        some (tree.pathKey e, .key nk) := by
  obtain ⟨v, hv⟩ := Option.ne_none_iff_exists'.mp hget
  rcases hsk : db.seekGE (tree.pathKey []) (tree.pathKey p ++ (replicate 86 [0, 0, 0, 63]).flatten)
      (tree.pathKey p) with _ | ⟨k, w⟩
  · exact absurd (scan_range_path hq) (seekGE_eq_none.mp hsk _ v hv)
  · obtain ⟨hk, hin, hm⟩ := seekGE_eq_some hsk
    have hpk := scan_range hin
    obtain ⟨e, nk, rfl, rfl⟩ := hidx k w hk ((pathKey_prefix_iff.mpr nil_prefix).trans hpk)
    exact ⟨e, nk, pathKey_prefix_iff.mp hpk, hk, hm _ v hv (scan_range_path hq), rfl⟩

theorem getNodeByPath_leaf {n : LeafNode} (hr : db.get (tree.nodeKey n.key) = some (.node (.leaf n)))
    (hex : ∃ q, p <+: q ∧ db.get (tree.pathKey q) ≠ none)
    (hall : ∀ q v, p <+: q → db.get (tree.pathKey q) = some v → v = .key (tree.nodeKey n.key)) :
    getNodeByPath db tree p = .ok (.leaf n) := by
  obtain ⟨q, hq, hget⟩ := hex
  obtain ⟨e, nk, he, hent, -, hsk⟩ := seek_entry hidx hq hget
  obtain rfl : nk = tree.nodeKey n.key := Value.key.inj (hall e _ he hent)
  simp only [getNodeByPath, hsk, hr]

theorem getNodeByPath_branch {n : BranchNode} {q : List Nibble} {k : Bytes} (hpq : p <+: q)
    (hr : db.get (tree.nodeKey k) = some (.node (.branch n q)))
    (hent : db.get (tree.pathKey q) = some (.key (tree.nodeKey k)))
    (hall : ∀ e, p <+: e → db.get (tree.pathKey e) ≠ none → q <+: e) :
    getNodeByPath db tree p = .ok (NodeRecord.branch n q).toNode := by
  obtain ⟨e, nk, he, hent', hle, hsk⟩ := seek_entry hidx hpq (by rw [hent]; exact Option.some_ne_none _)
  have hqe : q <+: e := hall e he (by rw [hent']; exact Option.some_ne_none _)
  obtain rfl : e = q := pathKey_inj (le_antisymm hle (prefix_le (pathKey_prefix_iff.mpr hqe)))
  obtain rfl : nk = tree.nodeKey k := Value.key.inj (Option.some.inj (hent'.symm.trans hent))
  have hcm : pathCompatible p e = true := by
    rw [pathCompatible, if_neg (Nat.not_lt.mpr hpq.length_le)]
    exact isPrefixOf_iff_prefix.mpr hpq
  simp only [getNodeByPath, hsk, hr, hcm, if_true]

end

theorem loadNode_of_ok {node : LazyNode} (h : getNodeByPath db tree p = .ok node) : loadNode db tree p = .ok node := by
  rw [loadNode, h]

theorem loadNode_of_notFound (h : getNodeByPath db tree p = .error .notFound) : loadNode db tree p = .ok .nil := by
  rw [loadNode, h]

theorem loadChildren_of_ok {ch : Fin 64 → LazyNode} (h : ∀ i, loadNode db tree (p ++ [i]) = .ok (ch i)) :
    loadChildren db tree p = .ok ch := by
  have hnn : (finRange 64).findSome? (fun _ => (none : Option Fault)) = none := by simp
  simp [loadChildren, h, hnn]

end

end Quilibrium
