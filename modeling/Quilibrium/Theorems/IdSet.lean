import Quilibrium.Hypergraph.Crdt
import Quilibrium.Theorems.Resident

/-! One set of the hypergraph: its tree is in memory, stands for a map and is backed by the store with the pending
    writes (`Stores`). -/

namespace Quilibrium
open Radix Function Except Option LazyVectorCommitmentTree

/-! ### The part of the store that belongs to a tree -/

def TreeId.Owns (tree : TreeId) (k : Bytes) : Prop :=
  ∃ tag rest, tag ∈ [tree.nodeTag, tree.pathTag, tree.rootTag] ∧ k = shardRecordKey tag tree.shardKey rest

section
variable {tree tree' : TreeId} {k : Bytes}

theorem TreeId.owns_nodeKey (tree : TreeId) (k : Bytes) : tree.Owns (tree.nodeKey k) :=
  ⟨_, k, by simp, tree.nodeKey_eq k⟩

theorem TreeId.owns_pathKey (tree : TreeId) (p : List Nibble) : tree.Owns (tree.pathKey p) :=
  ⟨_, _, by simp, tree.pathKey_eq p⟩

theorem TreeId.owns_rootKey (tree : TreeId) : tree.Owns tree.rootKey := ⟨_, _, by simp, tree.rootKey_eq⟩

theorem TreeId.owns_indexed (h : tree.pathKey [] <+: k) : tree.Owns k := by
  obtain ⟨rest, rfl⟩ := h
  exact ⟨tree.pathTag, rest, by simp, by rw [TreeId.pathKey_eq]; simp [shardRecordKey, pathBytes]⟩

theorem TreeId.tag_unique {tag : UInt8} (h : tag ∈ [tree.nodeTag, tree.pathTag, tree.rootTag])
    (h' : tag ∈ [tree'.nodeTag, tree'.pathTag, tree'.rootTag]) :
    tree.setType = tree'.setType ∧ tree.phaseType = tree'.phaseType := by
  obtain ⟨_ | _, _ | _, s⟩ := tree <;> obtain ⟨_ | _, _ | _, s'⟩ := tree' <;>
    simp only [List.mem_cons, List.not_mem_nil, or_false, nodeTag, pathTag, rootTag] at h h' <;>
    rcases h with rfl | rfl | rfl <;> revert h' <;> dsimp only <;> decide

theorem TreeId.Owns.unique (h : tree.Owns k) (h' : tree'.Owns k) : tree = tree' := by
  obtain ⟨tag, rest, htag, rfl⟩ := h
  obtain ⟨tag', rest', ht', heq⟩ := h'
  obtain ⟨rfl, hs, -⟩ := shardRecordKey_inj heq
  obtain ⟨ht, hp⟩ := tag_unique htag ht'
  cases tree
  cases tree'
  simp only at ht hp hs
  rw [ht, hp, hs]

variable {len : Nat} {leaves : List Item} {db : Db}

theorem Keeps.owns {gone : Option Bytes} {w : Write} (h : Keeps tree len gone leaves w) : tree.Owns w.key := by
  cases h with
  | record n hn => exact tree.owns_nodeKey _
  | entry e k hk he => exact tree.owns_pathKey _
  | branch k r hk => exact tree.owns_nodeKey _
  | fork e k hf => exact tree.owns_pathKey _
  | forget k hk => exact tree.owns_nodeKey _
  | forgetEntry e => exact tree.owns_pathKey _

/-- Outside the tree the databases agree, as they are and with what is pending. With a transaction only the root is
    written at once. -/
structure Framed (tree : TreeId) (db : Db) (txn : Txn) (db' : Db) (txn' : Txn) : Prop where
  now : ∀ k, ¬tree.Owns k → db'.get k = db.get k
  later : ∀ k, ¬tree.Owns k → (pending db' txn').get k = (pending db txn).get k
  isSome : txn'.isSome = txn.isSome
  held : txn.isSome = true → ∀ k, k ≠ tree.rootKey → db'.get k = db.get k

theorem Db.get_apply_owned {ws : List Write} (hws : ∀ w ∈ ws, tree.Owns w.key) (hk : ¬tree.Owns k) :
    (db.apply ws).get k = db.get k :=
  db.get_apply_of_untouched fun w hw heq => hk (heq ▸ hws w hw)

theorem Backed.other {db' : Db} (h : Backed len leaves tree' db) (hne : tree' ≠ tree)
    (hfr : ∀ k, ¬tree.Owns k → db'.get k = db.get k) : Backed len leaves tree' db' :=
  h.frame (fun _ hk => hfr _ fun ho => hne ((TreeId.owns_indexed hk).unique ho))
    fun k => hfr _ fun ho => hne ((tree'.owns_nodeKey k).unique ho)

theorem Backed.rootFrame {db' : Db} (h : Backed len leaves tree db)
    (hfr : ∀ k, k ≠ tree.rootKey → db'.get k = db.get k) : Backed len leaves tree db' :=
  h.frame (fun _ hk => hfr _ fun heq => rootKey_not_indexed (heq ▸ hk))
    fun k => hfr _ (TreeId.rootKey_ne_nodeKey k).symm

end

theorem applied_frame {tree : TreeId} {db : Db} {txn : Txn} {ws : List Write} {db₁ : Db} {txn' : Txn} (root : LazyNode)
    (happ : db.applyIn txn ws = (db₁, txn')) (hws : ∀ w ∈ ws, tree.Owns w.key) :
    Framed tree db txn (db₁.apply (saveRoot tree root)) txn' ∧
      ∀ k, k ≠ tree.rootKey → (pending (db₁.apply (saveRoot tree root)) txn').get k = ((pending db txn).apply ws).get k := by
  have hrt : ∀ (db : Db) k, k ≠ tree.rootKey → (db.apply (saveRoot tree root)).get k = db.get k := fun db k hk =>
    db.get_apply_of_untouched fun w hw => saveRoot_key hw ▸ hk.symm
  have hon : ∀ {k}, ¬tree.Owns k → k ≠ tree.rootKey := fun hk heq => hk (heq ▸ tree.owns_rootKey)
  cases txn with
  | none =>
    cases happ
    refine ⟨⟨fun k hk => ?_, fun k hk => ?_, rfl, by rintro ⟨⟩⟩, fun k hk => hrt _ k hk⟩
    · rw [hrt _ k (hon hk), Db.get_apply_owned hws hk]
    · exact (hrt _ k (hon hk)).trans (Db.get_apply_owned hws hk)
  | some batch =>
    cases happ
    have hlt : ∀ k, k ≠ tree.rootKey → (pending (db.apply (saveRoot tree root)) (some (batch ++ ws))).get k =
        ((pending db (some batch)).apply ws).get k := fun k hk => by
      simp only [pending, getD_some, Db.apply_append]
      exact Db.get_apply_congr (Db.get_apply_congr (hrt db k hk) batch) ws
    refine ⟨⟨fun k hk => hrt _ k (hon hk), fun k hk => ?_, rfl, fun _ k hk => hrt _ k hk⟩, hlt⟩
    rw [hlt k (hon hk), Db.get_apply_owned hws hk]

/-! ### A tree and its map -/

/-- The tree is in memory, holds the bindings `b` of keys of `len` bytes, and is backed by the store. -/
structure Stores (sha512 : Digest 64) (prover : InclusionProver) (len : Nat) (b : Bytes → Option Item)
    (t : LazyVectorCommitmentTree) (db : Db) : Prop where
  resident : Resident [] t.root
  holds : Holds sha512 prover len b ⟨whole t.root⟩
  backed : Backed len (skel (whole t.root)).leaves t.tree db

def Reads (len : Nat) (b : Bytes → Option Item) (tree : TreeId) (db : Db) : Prop :=
  ∃ leaves, Backed len leaves tree db ∧ ∀ a ∈ leaves, a.key.length = len ∧ b a.key ≠ none

section
variable {sha512 : Digest 64} {prover : InclusionProver} {len : Nat} {b : Bytes → Option Item}
  {t : LazyVectorCommitmentTree} {db db' : Db} {txn : Txn} {new : Item} {key : Bytes} {tree : TreeId}

section
variable (h : Stores sha512 prover len b t db)
include h

theorem Stores.mem_iff {a : Item} : a ∈ (skel (whole t.root)).leaves ↔ b a.key = some a :=
  ⟨fun ha => (h.holds.binds _ a).mpr ⟨ha, rfl⟩, fun hb => ((h.holds.binds _ a).mp hb).1⟩

theorem Stores.key_eq {k : Bytes} {a : Item} (hb : b k = some a) : a.key = k := ((h.holds.binds k a).mp hb).2

theorem Stores.key_length {k : Bytes} {a : Item} (hb : b k = some a) : k.length = len := by
  obtain ⟨ha, rfl⟩ := (h.holds.binds k a).mp hb
  exact h.holds.shaped.key_length ha

theorem Stores.reads : Reads len b t.tree db :=
  ⟨_, h.backed, fun a ha => ⟨h.holds.shaped.key_length ha, by rw [h.mem_iff.mp ha]; exact some_ne_none a⟩⟩

end

theorem Reads.mono {b' : Bytes → Option Item} (h : Reads len b tree db) (hb : ∀ k, b k ≠ none → b' k ≠ none) :
    Reads len b' tree db := by
  obtain ⟨leaves, hbc, hall⟩ := h
  exact ⟨leaves, hbc, fun a ha => ⟨(hall a ha).1, hb _ (hall a ha).2⟩⟩

theorem Stores.blank (h : Stores sha512 prover len b t db) (hr : Reads len b t.tree db') :
    Blank db' t.tree [] (skel (whole t.root)) := by
  obtain ⟨leaves, hbc, hall⟩ := hr
  refine hbc.blank fun a ha _ => ?_
  obtain ⟨x, hx⟩ := ne_none_iff_exists'.mp (hall a ha).2
  have hkey := h.key_eq hx
  exact ⟨x, h.mem_iff.mpr (hkey.symm ▸ hx), by rw [Item.path, hkey, Item.path]⟩

theorem Stores.frame (h : Stores sha512 prover len b t db) (hb : Backed len (skel (whole t.root)).leaves t.tree db') :
    Stores sha512 prover len b t db' :=
  ⟨h.resident, h.holds, hb⟩

/-! ### Reads -/

theorem Backed.has {leaves : List Item} (h : Backed len leaves tree db) (hk : key.length = len) :
    (∃ n, getNodeByKey db tree key = .ok n) ↔ ∃ a ∈ leaves, a.key = key := by
  constructor
  · rintro ⟨n, hn⟩
    by_contra hnn
    rw [h.getNodeByKey_dead hk fun a ha hak => hnn ⟨a, ha, hak⟩] at hn
    cases hn
  · rintro ⟨a, ha, rfl⟩
    obtain ⟨commitment, hget⟩ := h.getNodeByKey_live ha
    exact ⟨_, hget⟩

theorem Stores.has (h : Stores sha512 prover len b t db) (hk : key.length = len) :
    (∃ n, getNodeByKey db t.tree key = .ok n) ↔ b key ≠ none := by
  rw [h.backed.has hk, ne_none_iff_exists']
  constructor
  · rintro ⟨a, ha, rfl⟩
    exact ⟨a, h.mem_iff.mp ha⟩
  · rintro ⟨a, ha⟩
    have hkey := h.key_eq ha
    exact ⟨a, h.mem_iff.mpr (hkey.symm ▸ ha), hkey⟩

theorem Reads.has (h : Reads len b tree db) (hk : key.length = len) (hn : ∃ n, getNodeByKey db tree key = .ok n) :
    b key ≠ none := by
  obtain ⟨leaves, hbc, hall⟩ := h
  obtain ⟨a, ha, rfl⟩ := (hbc.has hk).mp hn
  exact (hall a ha).2

theorem Reads.no_branch (h : Reads len b tree db) (hk : key.length = len) (n : BranchNode) (p : List Nibble) :
    db.get (tree.nodeKey key) ≠ some (.node (.branch n p)) := by
  obtain ⟨leaves, hbc, -⟩ := h
  intro hget
  by_cases hm : ∃ a ∈ leaves, a.key = key
  · obtain ⟨a, ha, rfl⟩ := hm
    obtain ⟨commitment, hlv⟩ := hbc.live a ha
    rw [hlv] at hget
    cases hget
  · rw [hbc.dead key hk fun a ha hak => hm ⟨a, ha, hak⟩] at hget
    cases hget

theorem Stores.leaves (h : Stores sha512 prover len b t db) {fuel : Nat} (hfl : pathLength len < fuel) :
    getAllLeaves db t.tree fuel t.root = .ok t.root.leaves :=
  getAllLeaves_resident (h.blank h.reads) h.resident h.holds.shaped (Nat.zero_le _) hfl

theorem whole_leaves (node : LazyNode) : (skel (whole node)).leaves = node.leaves.map (·.toItem) := by
  rw [skel, Trie.leaves_map, whole, Trie.leaves_map, List.map_id]

theorem Stores.leaves_eq {t' : LazyVectorCommitmentTree} (h : Stores sha512 prover len b t db)
    (h' : Stores sha512 prover len b t' db') : t.root.leaves.map (·.toItem) = t'.root.leaves.map (·.toItem) := by
  rw [← whole_leaves, ← whole_leaves]
  have hsk : skel (whole t.root) = skel (whole t'.root) :=
    Canonical.ext h.holds.shaped h'.holds.shaped fun a => h.mem_iff.trans h'.mem_iff.symm
  rw [hsk]

/-! ### `Insert` -/

theorem Stores.insert_spec (sha3 : Digest 32) (h : Stores sha512 prover len b t (pending db txn))
    (hr : Reads len b t.tree db) (hl : 0 < len) (hln : len ≠ 32) (hk : new.key.length = len)
    (hc : t.isPathWithinCoveredPrefix new.path = true) :
    ∃ root db' txn', t.insert sha3 db txn new = .ok ({ t with root }, db', txn', none) ∧
      Stores sha512 prover len (update b new.key (some new)) { t with root } (pending db' txn') ∧
      Reads len (update b new.key (some new)) t.tree db' ∧ Framed t.tree db txn db' txn' := by
  have hne : new.key ≠ [] := List.ne_nil_of_length_pos (hk ▸ hl)
  have hfl : pathLength len < keyFuel new.key + ([] : List Nibble).length := by
    rw [keyFuel, getFullPath_length, hk]
    exact Nat.lt_succ_self _
  obtain ⟨d, hin⟩ := insert_eq sha3 txn hne (hr.no_branch hk) hc
  obtain ⟨delta, root, ws, hins, hI⟩ := LazyNode.insert_resident sha3 sha512 prover d hln hk (h.blank hr)
    h.resident h.holds.shaped List.nil_prefix hfl
  have hs := h.holds.shaped.insert hk List.nil_prefix hI.skel_eq
  -- the in-memory tree binds the new item; its leaves are those of `root`
  obtain ⟨t', -, hhl, hsk⟩ := h.holds.insert hl hk
  have hbn : ∀ k a, update b new.key (some new) k = some a ↔ a ∈ (skel (whole root)).leaves ∧ a.key = k := fun k a => by
    rw [hI.skel_eq.trans hsk.symm]
    exact hhl.binds k a
  have hm : ∀ a, a ∈ (skel (whole root)).leaves ↔ update b new.key (some new) a.key = some a := fun a =>
    ⟨fun ha => (hbn _ a).mpr ⟨ha, rfl⟩, fun hb => ((hbn _ a).mp hb).1⟩
  have hnew : new ∈ (skel (whole root)).leaves := (hm new).mpr (update_self _ _ _)
  have hkp : ∀ a ∈ (skel (whole t.root)).leaves, ∃ x ∈ (skel (whole root)).leaves, x.key = a.key := fun a ha => by
    by_cases hak : a.key = new.key
    · exact ⟨new, hnew, hak.symm⟩
    · exact ⟨a, (hm a).mpr (by rw [update_of_ne hak]; exact h.mem_iff.mp ha), rfl⟩
  have hbc : Backed len (skel (whole root)).leaves t.tree ((pending db txn).apply ws) := by
    refine h.backed.apply hs.keyed.length hs.keyed.unique hI.keeps (fun _ hk => by cases hk)
      (fun e hf => .inl (hf.of_paths fun a ha => ?_)) (fun a ha => ?_) fun a ha => .inl (hkp a ha)
    · obtain ⟨x, hx, hkey⟩ := hkp a ha
      exact ⟨x, hx, by rw [Item.path, hkey, Item.path]⟩
    · by_cases hak : a.key = new.key
      · obtain rfl := hs.keyed.unique a ha new hnew hak
        exact .inr ⟨_, hI.recorded⟩
      · have hb := (hm a).mp ha
        rw [update_of_ne hak] at hb
        exact .inl (h.mem_iff.mpr hb)
  obtain ⟨⟨db₁, txn'⟩, happ⟩ : ∃ r, db.applyIn txn ws = r := ⟨_, rfl⟩
  obtain ⟨hfr, hlt⟩ := applied_frame root happ fun w hw => (hI.keeps w hw).owns
  have hsts : Stores sha512 prover len (update b new.key (some new)) { t with root }
      (pending (db₁.apply (saveRoot t.tree root)) txn') :=
    ⟨hI.resident, ⟨hs, hI.coherent h.holds.coherent, hbn⟩, hbc.rootFrame hlt⟩
  refine ⟨root, db₁.apply (saveRoot t.tree root), txn', ?_, hsts, ?_, hfr⟩
  · rw [hin]
    have hins' : LazyNode.insert sha3 db t.tree new d (keyFuel new.key) t.root 0 [] = .ok (delta, root, ws) := hins
    simp [hins', happ]
  · cases txn with
    | none =>
      cases happ
      exact hsts.reads
    | some batch =>
      cases happ
      obtain ⟨leaves, hb, hall⟩ := hr
      refine Reads.mono (b := b) ⟨leaves, hb.rootFrame fun k hk => ?_, hall⟩ fun k hk => ?_
      · exact db.get_apply_of_untouched fun w hw => saveRoot_key hw ▸ hk.symm
      · rw [update_apply]
        split_ifs
        · exact some_ne_none _
        · exact hk

theorem Reads.insert_uncovered (sha3 : Digest 32) (txn : Txn) (hr : Reads len b t.tree db) (hl : 0 < len)
    (hk : new.key.length = len) (hc : t.isPathWithinCoveredPrefix new.path = false) :
    t.insert sha3 db txn new = .ok (t, db, txn, some "key is outside covered prefix range") := by
  have hne : new.key ≠ [] := List.ne_nil_of_length_pos (hk ▸ hl)
  have hc' : (!t.isPathWithinCoveredPrefix (getFullPath new.key)) = true := by
    rw [Bool.not_eq_true']
    exact hc
  unfold LazyVectorCommitmentTree.insert
  rw [if_neg hne, hc']
  rcases hget : getNodeByKey db t.tree new.key with e | _ | n | ⟨n, ch⟩
  · rfl
  · rfl
  · rfl
  · rw [getNodeByKey] at hget
    split at hget
    · cases hget
    next r hrec =>
      cases r with
      | leaf n => cases hget
      | branch n p => exact absurd hrec (hr.no_branch hk n p)
    · cases hget

/-! ### `Delete` -/

theorem Stores.delete_spec (sha3 : Digest 32) (h : Stores sha512 prover len b t (pending db txn))
    (hr : Reads len b t.tree db ∨ b key ≠ none) (hl : 0 < len) (hln : len ≠ 32) (hk : key.length = len) :
    ∃ root db' txn', t.delete sha3 db txn key = .ok ({ t with root }, db', txn', none) ∧
      Stores sha512 prover len (update b key none) { t with root } (pending db' txn') ∧
      Framed t.tree db txn db' txn' := by
  have hne : key ≠ [] := List.ne_nil_of_length_pos (hk ▸ hl)
  have hfl : pathLength len < keyFuel key + ([] : List Nibble).length := by
    rw [keyFuel, getFullPath_length, hk]
    exact Nat.lt_succ_self _
  have hu : Unread db t.tree key [] (skel (whole t.root)) := by
    refine hr.imp h.blank fun hbn => ?_
    obtain ⟨a, ha⟩ := ne_none_iff_exists'.mp hbn
    obtain ⟨hm, hak⟩ := (h.holds.binds key a).mp ha
    exact ⟨a, hm, hak⟩
  obtain ⟨⟨t'⟩, hd, hhl⟩ := h.holds.delete hl hk
  obtain ⟨size, hrem⟩ : ∃ size, Node.remove key (whole t.root) (6 * ([] : List Nibble).length) = .ok (size, t') := by
    simp only [VectorCommitmentTree.delete, if_neg hne] at hd
    obtain ⟨⟨size, root⟩, hrem, hrt⟩ := bind_eq_ok.mp hd
    cases hrt
    exact ⟨size, hrem⟩
  obtain ⟨root, ws, hrun, rfl, hR⟩ := LazyNode.remove_resident sha3 hln hk hu h.resident
    h.holds.shaped List.nil_prefix hfl hrem
  have hm : ∀ a, a ∈ (skel (whole root)).leaves ↔ update b key none a.key = some a := fun a =>
    ⟨fun ha => (hhl.binds _ a).mpr ⟨ha, rfl⟩, fun hb => ((hhl.binds _ a).mp hb).1⟩
  have hot : ∀ a ∈ (skel (whole root)).leaves, a.key ≠ key ∧ a ∈ (skel (whole t.root)).leaves := fun a ha => by
    have hb := (hm a).mp ha
    by_cases hak : a.key = key
    · rw [hak, update_self] at hb
      cases hb
    · rw [update_of_ne hak] at hb
      exact ⟨hak, h.mem_iff.mpr hb⟩
  have hbc : Backed len (skel (whole root)).leaves t.tree ((pending db txn).apply ws) := by
    have hky := hhl.shaped.keyed
    refine h.backed.apply hky.length hky.unique hR.keeps (fun k hg a ha => ?_) hR.forks
      (fun a ha => .inl (hot a ha).2) fun a ha => ?_
    · cases hg
      exact (hot a ha).1
    · by_cases hak : a.key = key
      · exact .inr (hak ▸ hR.forgotten a ha hak)
      · refine .inl ⟨a, (hm a).mpr ?_, rfl⟩
        rw [update_of_ne hak]
        exact h.mem_iff.mp ha
  obtain ⟨⟨db₁, txn'⟩, happ⟩ : ∃ r, db.applyIn txn ws = r := ⟨_, rfl⟩
  obtain ⟨hfr, hlt⟩ := applied_frame root happ fun w hw => (hR.keeps w hw).owns
  refine ⟨root, db₁.apply (saveRoot t.tree root), txn', ?_, ⟨hR.resident, hhl, hbc.rootFrame hlt⟩, hfr⟩
  have hr' : LazyNode.remove sha3 db t.tree key (keyFuel key) t.root 0 [] = .ok (size, root, ws) := hrun
  simp [delete, if_neg hne, hr', happ]

/-! ### `Commit` -/

theorem Stores.commit_spec (sha3 : Digest 32) (h : Stores sha512 prover len b t db) (hln : len ≠ 32) {fuel : Nat}
    (hfl : pathLength len < fuel) (recalc : Bool) : ∃ root db', t.commit sha3 sha512 prover fuel db recalc =
        .ok (rootCommitOf sha512 prover (skel (whole t.root)), { t with root }, db') ∧
      Stores sha512 prover len b { t with root } db' ∧ ∀ k, ¬t.tree.Owns k → db'.get k = db.get k := by
  have hky := h.holds.shaped.keyed
  have hbl : Below (skel (whole t.root)).leaves [] (skel (whole t.root)) := ⟨fun _ ha => ha, fun _ ha _ => ha⟩
  obtain ⟨ho, hs, hsk⟩ := VectorCommitmentTree.commit_spec recalc h.holds.coherent
  -- what is left once the root node has been committed
  have finish : ∀ (root : LazyNode) (ws : List Write),
      whole root = (VectorCommitmentTree.commit sha512 prover ⟨whole t.root⟩ recalc).2.root → Resident [] root →
      (∀ w ∈ ws, Keeps t.tree len none (skel (whole t.root)).leaves w) →
      Stores sha512 prover len b { t with root } ((db.apply ws).apply (saveRoot t.tree root)) ∧
        ∀ k, ¬t.tree.Owns k → ((db.apply ws).apply (saveRoot t.tree root)).get k = db.get k := by
    intro root ws hwh hr hws
    rw [← hwh] at hs hsk
    refine ⟨⟨hr, ⟨?_, hs.coherent, ?_⟩, ?_⟩, fun k hk => ?_⟩
    · rw [hsk]
      exact h.holds.shaped
    · rw [hsk]
      exact h.holds.binds
    · change Backed len (skel (whole root)).leaves t.tree _
      rw [hsk]
      exact (h.backed.keep hky hws).rootFrame fun k hk =>
        Db.get_apply_of_untouched _ fun w hw => saveRoot_key hw ▸ hk.symm
    · rw [Db.get_apply_owned (fun w hw => saveRoot_key hw ▸ t.tree.owns_rootKey) hk, Db.get_apply_owned (fun w hw => (hws w hw).owns) hk]
  obtain ⟨root, tree, cov⟩ := t
  cases root with
  | nil => exact ⟨.nil, db, rfl, h, fun _ _ => rfl⟩
  | leaf n =>
    have hn : n.toItem ∈ (skel (whole (.leaf n))).leaves := by simp [whole, skel]
    obtain ⟨n', ws, hc, hn', hws⟩ := lazyLeafCommit_resident sha512 prover tree recalc db hn
      (h.holds.shaped.key_length hn) (List.nil_prefix (l := n.path))
    refine ⟨.leaf n', _, ?_, finish (.leaf n') ws hn' trivial hws⟩
    simp only [commit, Trie.isNil_leaf, Bool.false_eq_true, if_false, LazyNode.commit, hc, ok_bind]
    rw [← ho]
    rfl
  | branch n ch =>
    obtain ⟨root', ws, hc, hwh, hr, hws⟩ := LazyNode.commitNode_resident sha3 sha512 prover recalc hln
      hky h.backed hbl h.resident h.holds.shaped (by rintro ⟨⟩) (q := []) hfl
    refine ⟨root', _, ?_, finish root' ws hwh hr hws⟩
    simp only [commit, Trie.isNil_branch, Bool.false_eq_true, if_false, LazyNode.commit, hc, ok_bind]
    rw [← ho]
    rfl

end

end Quilibrium
