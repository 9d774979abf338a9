import Quilibrium.Theorems.Store
import Quilibrium.Theorems.TreeCommit
import Quilibrium.Tries.LazyProofTree

/-! The store-backed tree against the whole tree: the nodes in memory are a part of it (`Mirrors`), and the database
    holds all of it (`Filed`). -/

namespace Quilibrium
open Radix List TreeId

/-! ### Nodes in memory -/

def LazyBranchNode.stored (n : LazyBranchNode) : BranchNode := { n.toBranchNode with size := n.size.natAbs }

/-- The node at slot path `q` is what is loaded of the tree `t` there. -/
def Mirrors : LazyNode → List Nibble → Node → Prop
  | .nil, _, _ => True
  | .leaf n, _, t => t = .leaf n
  | .branch n children, q, t =>
    n.fullPrefix = q ++ n.pfx ∧
      ∃ slots, t = .branch n.stored slots ∧ ∀ i, Mirrors (children i) (n.fullPrefix ++ [i]) (slots i)

/-- The node that a lookup at slot path `q` gives for the tree `t` there: no children are loaded. -/
def unloaded (q : List Nibble) : Node → LazyNode
  | .nil => .nil
  | .leaf n => .leaf n
  | .branch b _ => (NodeRecord.branch b (q ++ b.pfx)).toNode

/-! ### Nodes in the store -/

def Spelled (keys : List Bytes) (p : List Nibble) : Prop := ∃ k ∈ keys, p <+: getFullPath k

/-- The digest tells the branches on the paths of these keys apart, and from the keys. -/
structure CollisionFree (sha3 : Digest 32) (keys : List Bytes) : Prop where
  inj : ∀ p q, Spelled keys p → Spelled keys q → generateKeyFromPath sha3 p = generateKeyFromPath sha3 q → p = q
  apart : ∀ p k, Spelled keys p → k ∈ keys → generateKeyFromPath sha3 p ≠ k

section
variable (sha3 : Digest 32) (tree : TreeId)

/-- The database holds the tree at slot path `q`. An entry at the empty path may be anything: it is never looked up
    below a root. -/
def Filed (db : Db) : List Nibble → Node → Prop
  | q, .nil => ∀ e, q <+: e → e ≠ [] → db.get (tree.pathKey e) = none
  | q, .leaf n =>
    db.get (tree.nodeKey n.key) = some (.node (.leaf n)) ∧ (∃ e, q <+: e ∧ e ≠ [] ∧ db.get (tree.pathKey e) ≠ none) ∧
      ∀ e v, q <+: e → e ≠ [] → db.get (tree.pathKey e) = some v → v = .key (tree.nodeKey n.key) ∧ e <+: n.path
  | q, .branch b slots =>
    (0 ≤ b.size ∧
      db.get (tree.nodeKey (generateKeyFromPath sha3 (q ++ b.pfx))) = some (.node (.branch b (q ++ b.pfx))) ∧
      (q ++ b.pfx ≠ [] →
        db.get (tree.pathKey (q ++ b.pfx)) = some (.key (tree.nodeKey (generateKeyFromPath sha3 (q ++ b.pfx))))) ∧
      ∀ e, q <+: e → e ≠ [] → db.get (tree.pathKey e) ≠ none → q ++ b.pfx <+: e) ∧
    ∀ i, Filed db (q ++ b.pfx ++ [i]) (slots i)

/-- The database keys of the nodes at or below slot path `q`. -/
inductive Within (keys : List Bytes) (q : List Nibble) : Bytes → Prop
  | path (e : List Nibble) (he : q <+: e) : Within keys q (tree.pathKey e)
  | leaf (k : Bytes) (hk : k ∈ keys) (hq : q <+: getFullPath k) : Within keys q (tree.nodeKey k)
  | branch (p : List Nibble) (hp : Spelled keys p) (hq : q <+: p) :
    Within keys q (tree.nodeKey (generateKeyFromPath sha3 p))

/-- The path index holds node keys, and the records of the keys are not branches. -/
structure Typed (keys : List Bytes) (db : Db) : Prop where
  indexed : Indexed db tree
  leaves : ∀ k ∈ keys, ∀ b p, db.get (tree.nodeKey k) ≠ some (.node (.branch b p))

/-- The database was changed at or below slot path `q` only. -/
structure Confined (keys : List Bytes) (q : List Nibble) (db db' : Db) : Prop where
  typed : Typed tree keys db → Typed tree keys db'
  frame : ∀ k, ¬Within sha3 tree keys q k → db'.get k = db.get k

end

section
variable {sha3 : Digest 32} {tree : TreeId} {keys : List Bytes} {db db' db'' : Db} {len : Nat} {p q e : List Nibble}
  {t : Node} {b : BranchNode} {slots : Fin 64 → Node}

variable {node : LazyNode} {k key : Bytes} {n : LeafNode} {i : Nibble}

theorem Mirrors.nil_inv (h : Mirrors node q .nil) : node = .nil := by
  cases node with
  | nil => rfl
  | leaf n => cases h
  | branch n ch =>
    obtain ⟨-, slots, hs, -⟩ := h
    cases hs

theorem Mirrors.leaf_inv (h : Mirrors node q (.leaf n)) (hnd : node ≠ .nil) : node = .leaf n := by
  cases node with
  | nil => exact absurd rfl hnd
  | leaf m =>
    cases h
    rfl
  | branch m ch =>
    obtain ⟨-, slots, hs, -⟩ := h
    cases hs

theorem Mirrors.branch_inv (h : Mirrors node q (.branch b slots)) (hnd : node ≠ .nil) :
    ∃ n ch, node = .branch n ch ∧ n.stored = b ∧ n.fullPrefix = q ++ n.pfx ∧
      ∀ i, Mirrors (ch i) (n.fullPrefix ++ [i]) (slots i) := by
  cases node with
  | nil => exact absurd rfl hnd
  | leaf m => cases h
  | branch n ch =>
    obtain ⟨hfl, slots', hs, hch⟩ := h
    cases hs
    exact ⟨n, ch, rfl, rfl, hfl, hch⟩

/-! ### Frames -/

theorem Within.mono (hpq : p <+: q) (h : Within sha3 tree keys q k) : Within sha3 tree keys p k := by
  cases h with
  | path e he => exact .path e (hpq.trans he)
  | leaf k hk hq => exact .leaf k hk (hpq.trans hq)
  | branch r hr hq => exact .branch r hr (hpq.trans hq)

theorem not_within_path (h : ¬q <+: p) : ¬Within sha3 tree keys q (tree.pathKey p) := by
  intro hw
  generalize hk : tree.pathKey p = k at hw
  cases hw with
  | path e he => exact h (pathKey_inj hk ▸ he)
  | leaf k hk' hq | branch r hr hq => exact absurd hk.symm (nodeKey_ne_pathKey _ _)

section
variable (hcf : CollisionFree sha3 keys)
include hcf

theorem not_within_leaf (hk : k ∈ keys) (h : ¬q <+: getFullPath k) : ¬Within sha3 tree keys q (tree.nodeKey k) := by
  intro hw
  generalize heq : tree.nodeKey k = x at hw
  cases hw with
  | path e he => exact absurd heq (nodeKey_ne_pathKey _ _)
  | leaf k' hk' hq => exact h (nodeKey_inj heq ▸ hq)
  | branch r hr hq => exact hcf.apart r k hr hk (nodeKey_inj heq).symm

theorem not_within_branch (hp : Spelled keys p) (h : ¬q <+: p) :
    ¬Within sha3 tree keys q (tree.nodeKey (generateKeyFromPath sha3 p)) := by
  intro hw
  generalize heq : tree.nodeKey (generateKeyFromPath sha3 p) = x at hw
  cases hw with
  | path e he => exact absurd heq (nodeKey_ne_pathKey _ _)
  | leaf k' hk' hq => exact hcf.apart p k' hp hk' (nodeKey_inj heq)
  | branch r hr hq => exact h (hcf.inj p r hp hr (nodeKey_inj heq) ▸ hq)

theorem Within.slot_unique {j : Nibble} (hi : Within sha3 tree keys (p ++ [i]) k)
    (hj : Within sha3 tree keys (p ++ [j]) k) : i = j := by
  cases hi with
  | path e he => exact slot_unique he (not_not.mp (mt not_within_path (not_not.mpr hj)))
  | leaf k hk hq => exact slot_unique hq (not_not.mp (mt (not_within_leaf hcf hk) (not_not.mpr hj)))
  | branch r hr hq => exact slot_unique hq (not_not.mp (mt (not_within_branch hcf hr) (not_not.mpr hj)))

end

theorem slot_not_above (p : List Nibble) (i : Nibble) : ¬p ++ [i] <+: p := by
  intro h
  have hl := h.length_le
  rw [length_append, length_singleton] at hl
  exact Nat.not_succ_le_self _ hl

theorem Within.ne_branch (hcf : CollisionFree sha3 keys) (hp : Spelled keys p)
    (hk : Within sha3 tree keys (p ++ [i]) k) : k ≠ tree.pathKey p ∧ k ≠ tree.nodeKey (generateKeyFromPath sha3 p) := by
  refine ⟨fun h => ?_, fun h => ?_⟩
  · exact not_within_path (slot_not_above p i) (h ▸ hk)
  · exact not_within_branch hcf hp (slot_not_above p i) (h ▸ hk)

theorem Confined.refl : Confined sha3 tree keys q db db := ⟨id, fun _ _ => rfl⟩

theorem Confined.trans (h : Confined sha3 tree keys q db db') (h' : Confined sha3 tree keys q db' db'') :
    Confined sha3 tree keys q db db'' :=
  ⟨fun hty => h'.typed (h.typed hty), fun k hk => (h'.frame k hk).trans (h.frame k hk)⟩

theorem Confined.mono (hpq : p <+: q) (h : Confined sha3 tree keys q db db') : Confined sha3 tree keys p db db' :=
  ⟨h.typed, fun k hk => h.frame k fun hw => hk (hw.mono hpq)⟩

theorem confined_file {r : NodeRecord} (hr : key ∈ keys → ∃ n, r = .leaf n)
    (hkey : Within sha3 tree keys q (tree.nodeKey key)) (he : q <+: e) :
    Confined sha3 tree keys q db (db.apply (file tree key r e)) := by
  refine ⟨fun h => ⟨h.indexed.file key r e, fun k hk b p hget => ?_⟩,
    fun k hk => db.get_apply_of_untouched fun w hw => ?_⟩
  · rw [get_file_node] at hget
    split_ifs at hget with heq
    · obtain ⟨n, rfl⟩ := hr (heq ▸ hk)
      cases hget
    · exact h.leaves k hk b p hget
  · simp only [file, mem_cons, not_mem_nil, or_false] at hw
    rcases hw with rfl | rfl
    · exact fun heq => hk (heq ▸ hkey)
    · exact fun heq => hk (heq ▸ Within.path e he)

theorem confined_leaf (n : LeafNode) (hk : key ∈ keys) (hq : q <+: getFullPath key) (he : q <+: e) :
    Confined sha3 tree keys q db (db.apply (file tree key (.leaf n) e)) :=
  confined_file (fun _ => ⟨n, rfl⟩) (.leaf key hk hq) he

theorem confined_branch (hcf : CollisionFree sha3 keys) (r : NodeRecord) (hp : Spelled keys p) (hq : q <+: p) :
    Confined sha3 tree keys q db (db.apply (file tree (generateKeyFromPath sha3 p) r p)) :=
  confined_file (fun hk => absurd rfl (hcf.apart p _ hp hk)) (.branch p hp hq) hq

theorem confined_deleteNode (hkey : Within sha3 tree keys q (tree.nodeKey key)) (he : q <+: e) :
    Confined sha3 tree keys q db (db.apply (deleteNode tree key e)) := by
  refine ⟨fun h => ⟨h.indexed.deleteNode key e, fun k hk b p hget => ?_⟩,
    fun k hk => db.get_apply_of_untouched fun w hw => ?_⟩
  · rw [get_deleteNode_node] at hget
    split_ifs at hget
    exact h.leaves k hk b p hget
  · simp only [deleteNode, mem_cons, not_mem_nil, or_false] at hw
    rcases hw with rfl | rfl
    · exact fun heq => hk (heq ▸ Within.path e he)
    · exact fun heq => hk (heq ▸ hkey)

/-- The tree at slot path `q` is canonical for keys of `len` bytes, and its keys are among `keys`. -/
structure Placed (len : Nat) (keys : List Bytes) (q : List Nibble) (t : Node) : Prop where
  shaped : Shaped len q (skel t)
  keyed : ∀ a ∈ (skel t).leaves, a.key ∈ keys

theorem placed_nil (len : Nat) : Placed len keys q .nil := ⟨trivial, nofun⟩

theorem placed_leaf (hp : q <+: n.path) (hk : n.key.length = len) (hn : n.key ∈ keys) :
    Placed len keys q (.leaf n) := by
  refine ⟨⟨hp, ?_⟩, fun a ha => ?_⟩
  · rw [Item.path, getFullPath_length, hk]
  · rw [skel, Trie.map_leaf, Trie.leaves_leaf, mem_singleton] at ha
    exact ha ▸ hn

theorem Placed.slot (h : Placed len keys q (.branch b slots)) (i : Nibble) :
    Placed len keys (q ++ b.pfx ++ [i]) (slots i) :=
  ⟨h.shaped.2 i, fun a ha => h.keyed a (Trie.mem_leaves_branch.mpr ⟨i, ha⟩)⟩

theorem Placed.leaf_mem (h : Placed len keys q (.leaf n)) : n.key ∈ keys := h.keyed n.toItem (by simp [skel])

theorem Placed.spelled (h : Placed len keys q (.branch b slots)) : Spelled keys (q ++ b.pfx) := by
  obtain ⟨i, -, a, -, -, ha, -⟩ := Canonical.two h.shaped
  exact ⟨a.key, (h.slot i).keyed a ha, prefix_of_append (Canonical.child_mem h.shaped ha)⟩

theorem Filed.frame (hF : Filed sha3 tree db q t) (ht : Placed len keys q t)
    (hsm : ∀ k, Within sha3 tree keys q k → db'.get k = db.get k) : Filed sha3 tree db' q t := by
  induction t generalizing q with
  | nil =>
    intro e he hne
    rw [hsm _ (.path e he)]
    exact hF e he hne
  | leaf n =>
    obtain ⟨hr, ⟨e, he, hne, hent⟩, hall⟩ := hF
    refine ⟨?_, ⟨e, he, hne, ?_⟩, fun e v he hne hget => ?_⟩
    · rw [hsm _ (.leaf n.key ht.leaf_mem ht.shaped.1)]
      exact hr
    · rw [hsm _ (.path e he)]
      exact hent
    · rw [hsm _ (.path e he)] at hget
      exact hall e v he hne hget
  | branch b slots ih =>
    obtain ⟨⟨hsz, hr, hent, hall⟩, hsl⟩ := hF
    refine ⟨⟨hsz, ?_, fun hne => ?_, fun e he hne hget => ?_⟩, fun i => ?_⟩
    · rw [hsm _ (.branch _ ht.spelled (prefix_append _ _))]
      exact hr
    · rw [hsm _ (.path _ (prefix_append _ _))]
      exact hent hne
    · rw [hsm _ (.path e he)] at hget
      exact hall e he hne hget
    · refine ih i (hsl i) (ht.slot i) fun k hk => hsm k (hk.mono ?_)
      rw [append_assoc]
      exact prefix_append _ _

theorem Filed.other_slot (hcf : CollisionFree sha3 keys) {j : Nibble} (hij : j ≠ i)
    (hF : Filed sha3 tree db (p ++ [j]) t) (ht : Placed len keys (p ++ [j]) t)
    (hcn : Confined sha3 tree keys (p ++ [i]) db db') : Filed sha3 tree db' (p ++ [j]) t :=
  hF.frame ht fun k hk => hcn.frame k fun hk' => hij (hk.slot_unique hcf hk')

/-! ### Lookups -/

theorem ne_nil_of_above (hq : q ≠ []) (he : q <+: e) : e ≠ [] := fun h => hq (prefix_nil.mp (h ▸ he))

section
variable (hF : Filed sha3 tree db q t)
include hF

theorem Filed.lookup (hidx : Indexed db tree) (hq : q ≠ []) :
    getNodeByPath db tree q = if t.isNil then .error .notFound else .ok (unloaded q t) := by
  cases t with
  | nil => exact getNodeByPath_notFound hidx fun e he => hF e he (ne_nil_of_above hq he)
  | leaf n =>
    obtain ⟨hr, ⟨e, he, -, hent⟩, hall⟩ := hF
    exact getNodeByPath_leaf hidx hr ⟨e, he, hent⟩ fun e v he hget => (hall e v he (ne_nil_of_above hq he) hget).1
  | branch b slots =>
    obtain ⟨⟨-, hr, hent, hall⟩, -⟩ := hF
    exact getNodeByPath_branch hidx (prefix_append _ _) hr (hent (ne_nil_of_above hq (prefix_append _ _)))
      fun e he hget => hall e he (ne_nil_of_above hq he) hget

theorem Filed.loadNode (hidx : Indexed db tree) (hq : q ≠ []) : Quilibrium.loadNode db tree q = .ok (unloaded q t) := by
  have h := hF.lookup hidx hq
  cases t with
  | nil => exact loadNode_of_notFound h
  | leaf n => exact loadNode_of_ok h
  | branch b slots => exact loadNode_of_ok h

theorem Filed.mirrors : Mirrors (unloaded q t) q t := by
  cases t with
  | nil => trivial
  | leaf n => rfl
  | branch b slots =>
    have hs : b = { b with size := b.size.natAbs } := by rw [Int.natAbs_of_nonneg hF.1.1]
    exact ⟨rfl, slots, congrArg (Trie.branch · slots) hs, fun _ => trivial⟩

theorem Filed.loadSlot (hidx : Indexed db tree) (hq : q ≠ []) (hm : Mirrors node q t) :
    ∃ node₁, Quilibrium.loadSlot db tree q node = .ok node₁ ∧ Mirrors node₁ q t ∧ (node₁ = .nil → t = .nil) := by
  cases node with
  | nil =>
    refine ⟨unloaded q t, hF.loadNode hidx hq, hF.mirrors, fun h => ?_⟩
    cases t with
    | nil => rfl
    | leaf n => cases h
    | branch b slots => cases h
  | leaf n => exact ⟨.leaf n, rfl, hm, nofun⟩
  | branch n ch => exact ⟨.branch n ch, rfl, hm, nofun⟩

end

theorem Filed.loadSlots (hF : Filed sha3 tree db q (.branch b slots)) (hidx : Indexed db tree) {n : LazyBranchNode}
    {ch : Fin 64 → LazyNode} (hm : Mirrors (.branch n ch) q (.branch b slots)) :
    ∃ ch₁, Quilibrium.loadSlots db tree n.fullPrefix n.fullyLoaded ch = .ok ch₁ ∧
      ∀ i, Mirrors (ch₁ i) (n.fullPrefix ++ [i]) (slots i) := by
  obtain ⟨hfl, slots', heq, hch⟩ := hm
  cases heq
  by_cases hl : n.fullyLoaded = true
  · exact ⟨ch, if_pos hl, hch⟩
  · have hsl : ∀ i, Filed sha3 tree db (n.fullPrefix ++ [i]) (slots i) := fun i => hfl ▸ hF.2 i
    refine ⟨fun i => unloaded (n.fullPrefix ++ [i]) (slots i), ?_, fun i => (hsl i).mirrors⟩
    rw [Quilibrium.loadSlots, if_neg hl]
    exact loadChildren_of_ok fun i => (hsl i).loadNode hidx (by simp)

/-! ### Filing a node -/

theorem LazyBranchNode.record_eq {n : LazyBranchNode} (h : n.fullPrefix = q ++ n.pfx) :
    n.record = .branch n.stored (q ++ n.stored.pfx) := by
  rw [record, h]
  rfl

theorem LazyBranchNode.stored_size_nonneg (n : LazyBranchNode) : 0 ≤ n.stored.size := Int.natCast_nonneg _

theorem filed_put_leaf (hall : ∀ e v, q <+: e → e ≠ [] → db.get (tree.pathKey e) = some v →
      v = .key (tree.nodeKey n.key) ∧ e <+: n.path) (he : q <+: e) (hne : e ≠ []) (hp : e <+: n.path) :
    Filed sha3 tree (db.apply (file tree n.key (.leaf n) e)) q (.leaf n) := by
  refine ⟨?_, ⟨e, he, hne, ?_⟩, fun e' v he' hne' hget => ?_⟩
  · rw [get_file_node, if_pos rfl]
  · rw [get_file_path, if_pos rfl]
    exact Option.some_ne_none _
  · rw [get_file_path] at hget
    split_ifs at hget with heq
    · cases hget
      exact ⟨rfl, heq ▸ hp⟩
    · exact hall e' v he' hne' hget

theorem filed_put_branch (hcf : CollisionFree sha3 keys) (ht : Placed len keys q (.branch b slots)) (hsz : 0 ≤ b.size)
    (hall : ∀ e, q <+: e → e ≠ [] → db.get (tree.pathKey e) ≠ none → q ++ b.pfx <+: e)
    (hsl : ∀ i, Filed sha3 tree db (q ++ b.pfx ++ [i]) (slots i)) : Filed sha3 tree
      (db.apply (file tree (generateKeyFromPath sha3 (q ++ b.pfx)) (.branch b (q ++ b.pfx)) (q ++ b.pfx))) q
      (.branch b slots) := by
  refine ⟨⟨hsz, ?_, fun _ => ?_, fun e he hne hget => ?_⟩, fun i => (hsl i).frame (ht.slot i) fun k hk => ?_⟩
  · rw [get_file_node, if_pos rfl]
  · rw [get_file_path, if_pos rfl]
  · rw [get_file_path] at hget
    split_ifs at hget with heq
    · exact heq ▸ prefix_rfl
    · exact hall e he hne hget
  · obtain ⟨hpt, hnd⟩ := hk.ne_branch hcf ht.spelled
    refine db.get_apply_of_untouched fun w hw => ?_
    simp only [file, mem_cons, not_mem_nil, or_false] at hw
    rcases hw with rfl | rfl
    · exact hnd.symm
    · exact hpt.symm

/-- The work at slot path `q` took the database from `db` to `db'` and left the node there for the tree `t`. -/
structure Lands (sha3 : Digest 32) (tree : TreeId) (keys : List Bytes) (q : List Nibble) (db db' : Db)
    (node : LazyNode) (t : Node) : Prop where
  mirrors : Mirrors node q t
  filed : Filed sha3 tree db' q t
  confined : Confined sha3 tree keys q db db'

/-! ### The whole tree -/

/-- Memory and database stand for the tree with root `root`, which is in memory and is the stored root. -/
structure Represents (sha3 : Digest 32) (len : Nat) (keys : List Bytes) (t : LazyVectorCommitmentTree) (db : Db)
    (root : Node) : Prop where
  typed : Typed t.tree keys db
  placed : Placed len keys [] root
  filed : Filed sha3 t.tree db [] root
  mirrors : Mirrors t.root [] root
  loaded : t.root = .nil → root = .nil
  saved : loadRoot db t.tree = unloaded [] root
  blank : root = .nil → db.get (t.tree.pathKey []) = none

theorem saveRoot_key {w : Write} (hw : w ∈ saveRoot tree node) : w.key = tree.rootKey := by
  cases node with
  | nil => cases hw
  | leaf n | branch n ch =>
    rw [saveRoot, mem_singleton] at hw
    exact hw ▸ rfl

theorem get_saveRoot (db : Db) (tree : TreeId) (node : LazyNode) (hk : k ≠ tree.rootKey) :
    (db.apply (saveRoot tree node)).get k = db.get k :=
  db.get_apply_of_untouched fun _ hw heq => hk (heq ▸ saveRoot_key hw)

theorem Within.ne_rootKey (h : Within sha3 tree keys q k) : k ≠ tree.rootKey := by
  cases h with
  | path e he => exact (rootKey_ne_pathKey e).symm
  | leaf k hk hq => exact (rootKey_ne_nodeKey k).symm
  | branch p hp hq => exact (rootKey_ne_nodeKey _).symm

theorem Typed.saveRoot (h : Typed tree keys db) (node : LazyNode) : Typed tree keys (db.apply (saveRoot tree node)) := by
  refine ⟨h.indexed.saveRoot node, fun k hk b p hget => h.leaves k hk b p ?_⟩
  rwa [get_saveRoot _ _ _ (rootKey_ne_nodeKey k).symm] at hget

theorem loadRoot_saveRoot (hm : Mirrors node [] t) (hnd : node ≠ .nil) :
    loadRoot (db.apply (saveRoot tree node)) tree = unloaded [] t := by
  cases node with
  | nil => exact absurd rfl hnd
  | leaf n =>
    cases hm
    simp only [loadRoot, saveRoot, Db.apply, foldl_cons, foldl_nil, Db.write, OrdMap.get_set_self]
    rfl
  | branch n ch =>
    obtain ⟨hfl, slots, rfl, -⟩ := hm
    simp only [loadRoot, saveRoot, Db.apply, foldl_cons, foldl_nil, Db.write, OrdMap.get_set_self]
    rw [n.record_eq hfl]
    rfl

theorem Lands.represents (hln : Lands sha3 tree keys [] db db' node t) (hty : Typed tree keys db)
    (ht : Placed len keys [] t) (hnd : node ≠ .nil) (c : List Nibble) :
    Represents sha3 len keys ⟨node, tree, c⟩ (db'.apply (saveRoot tree node)) t where
  typed := (hln.confined.typed hty).saveRoot node
  placed := ht
  filed := hln.filed.frame ht fun _ hk => get_saveRoot _ _ _ hk.ne_rootKey
  mirrors := hln.mirrors
  loaded h := absurd h hnd
  saved := loadRoot_saveRoot hln.mirrors hnd
  blank h := by
    have hm := hln.mirrors
    rw [h] at hm
    exact absurd hm.nil_inv hnd

end

end Quilibrium
