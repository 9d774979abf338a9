import Quilibrium.Theorems.LazyInsert

/-! The store of a tree that is in memory as a whole: no entry of the path index leads to a record below an empty slot
    (`Backed`). -/

namespace Quilibrium
open Radix TreeId

def Forks (leaves : List Item) (e : List Nibble) : Prop :=
  ∃ a ∈ leaves, ∃ b ∈ leaves, ∃ i j, i ≠ j ∧ e ++ [i] <+: a.path ∧ e ++ [j] <+: b.path

/-- An entry of the path index: it leads to a key whose path extends it, or it lies where leaves part. -/
inductive Entry (tree : TreeId) (len : Nat) (leaves : List Item) (e : List Nibble) : Value → Prop
  | leaf (k : Bytes) (hk : k.length = len) (he : e <+: getFullPath k) : Entry tree len leaves e (.key (tree.nodeKey k))
  | branch (k : Bytes) (hf : Forks leaves e) : Entry tree len leaves e (.key k)

/-- The store holds the records of the leaves and of no other key of `len` bytes. -/
structure Backed (len : Nat) (leaves : List Item) (tree : TreeId) (db : Db) : Prop where
  indexed : Indexed db tree
  entry : ∀ e v, db.get (tree.pathKey e) = some v → Entry tree len leaves e v
  live : ∀ a ∈ leaves, ∃ commitment, db.get (tree.nodeKey a.key) = some (.node (.leaf ⟨a, commitment⟩))
  dead : ∀ k, k.length = len → (∀ a ∈ leaves, a.key ≠ k) → db.get (tree.nodeKey k) = none

/-- A write of a tree with these leaves. A record of a key of `len` bytes is deleted for `gone` only. -/
inductive Keeps (tree : TreeId) (len : Nat) (gone : Option Bytes) (leaves : List Item) : Write → Prop
  | record (n : LeafNode) (hn : n.toItem ∈ leaves) : Keeps tree len gone leaves (.set (tree.nodeKey n.key) (.node (.leaf n)))
  | entry (e : List Nibble) (k : Bytes) (hk : k.length = len) (he : e <+: getFullPath k) :
    Keeps tree len gone leaves (.set (tree.pathKey e) (.key (tree.nodeKey k)))
  | branch (k : Bytes) (r : NodeRecord) (hk : k.length ≠ len) : Keeps tree len gone leaves (.set (tree.nodeKey k) (.node r))
  | fork (e : List Nibble) (k : Bytes) (hf : Forks leaves e) : Keeps tree len gone leaves (.set (tree.pathKey e) (.key k))
  | forget (k : Bytes) (hk : k.length = len → gone = some k) : Keeps tree len gone leaves (.delete (tree.nodeKey k))
  | forgetEntry (e : List Nibble) : Keeps tree len gone leaves (.delete (tree.pathKey e))

section
variable {tree : TreeId} {len : Nat} {gone : Option Bytes} {leaves leaves' : List Item} {db db' : Db} {q e : List Nibble}
  {w : Write} {ws : List Write}

theorem Forks.mono (hs : ∀ a ∈ leaves, a ∈ leaves') (h : Forks leaves e) : Forks leaves' e := by
  obtain ⟨a, ha, b, hb, hrs⟩ := h
  exact ⟨a, hs a ha, b, hs b hb, hrs⟩

theorem Forks.exists_leaf (h : Forks leaves e) : ∃ a ∈ leaves, e <+: a.path := by
  obtain ⟨a, ha, -, -, i, -, -, hi, -⟩ := h
  exact ⟨a, ha, prefix_of_append hi⟩

theorem Entry.mono (hs : Forks leaves e → Forks leaves' e) {v : Value} (h : Entry tree len leaves e v) :
    Entry tree len leaves' e v := by
  cases h with
  | leaf k hk he => exact .leaf k hk he
  | branch k hf => exact .branch k (hs hf)

theorem Keeps.mono (hs : ∀ a ∈ leaves, a ∈ leaves') (h : Keeps tree len gone leaves w) :
    Keeps tree len gone leaves' w := by
  cases h with
  | record n hn => exact .record n (hs _ hn)
  | entry e k hk he => exact .entry e k hk he
  | branch k r hk => exact .branch k r hk
  | fork e k hf => exact .fork e k (hf.mono hs)
  | forget k hk => exact .forget k hk
  | forgetEntry e => exact .forgetEntry e

/-! ### Reads -/

section
variable (h : Backed len leaves tree db)
include h

theorem Backed.loadNode_nil (hq : ∀ a ∈ leaves, ¬q <+: a.path) : loadNode db tree q = .ok .nil := by
  refine loadNode_of_notFound ?_
  by_cases hnn : ∀ p, q <+: p → db.get (tree.pathKey p) = none
  · exact getNodeByPath_notFound h.indexed hnn
  · push Not at hnn
    obtain ⟨p, hp, hget⟩ := hnn
    obtain ⟨e, nk, he, hent, -, hsk⟩ := seek_entry h.indexed hp hget
    have hr : db.get nk = none := by
      cases h.entry e _ hent with
      | leaf k hk hke =>
        refine h.dead k hk fun a ha hak => hq a ha (he.trans ?_)
        rw [Item.path, hak]
        exact hke
      | branch k hf =>
        obtain ⟨a, ha, hea⟩ := hf.exists_leaf
        exact absurd (he.trans hea) (hq a ha)
    simp only [getNodeByPath, hsk, hr]

theorem Backed.getNodeByKey_live {a : Item} (ha : a ∈ leaves) :
    ∃ commitment, getNodeByKey db tree a.key = .ok (.leaf ⟨a, commitment⟩) := by
  obtain ⟨commitment, hr⟩ := h.live a ha
  exact ⟨commitment, by simp [getNodeByKey, hr, NodeRecord.toNode]⟩

theorem Backed.getNodeByKey_dead {k : Bytes} (hk : k.length = len) (hdd : ∀ a ∈ leaves, a.key ≠ k) :
    getNodeByKey db tree k = .error .notFound := by
  simp [getNodeByKey, h.dead k hk hdd]

end

/-! ### Writes -/

theorem Db.get_apply_cases {k : Bytes} {v : Value} (h : (db.apply ws).get k = some v) :
    .set k v ∈ ws ∨ (db.get k = some v ∧ .delete k ∉ ws) := by
  induction ws generalizing db with
  | nil => exact .inr ⟨h, List.not_mem_nil⟩
  | cons w ws ih =>
    have h' : ((db.write w).apply ws).get k = some v := h
    rcases ih h' with hs | ⟨hget, hd⟩
    · exact .inl (List.mem_cons_of_mem w hs)
    · cases w with
      | set key value =>
        rw [Db.write, OrdMap.get_set] at hget
        split_ifs at hget with heq
        · cases hget
          exact .inl (heq ▸ List.mem_cons_self)
        · refine .inr ⟨hget, fun hm => ?_⟩
          rcases List.mem_cons.mp hm with hw | hm
          · cases hw
          · exact hd hm
      | delete key =>
        rw [Db.write, OrdMap.get_delete] at hget
        split_ifs at hget with heq
        refine .inr ⟨hget, fun hm => ?_⟩
        rcases List.mem_cons.mp hm with hw | hm
        · cases hw
          exact heq rfl
        · exact hd hm

theorem Db.apply_inv {P : Db → Prop} (hkp : ∀ db, ∀ w ∈ ws, P db → P (db.write w)) (h : P db) : P (db.apply ws) := by
  induction ws generalizing db with
  | nil => exact h
  | cons w ws ih =>
    exact ih (fun db w' hw' => hkp db w' (List.mem_cons_of_mem w hw')) (hkp db w List.mem_cons_self h)

theorem Db.apply_inv_of_mem {P : Db → Prop} (hw : w ∈ ws) (hmk : ∀ db : Db, P (db.write w))
    (hkp : ∀ db, ∀ w ∈ ws, P db → P (db.write w)) : P (db.apply ws) := by
  obtain ⟨before, after, rfl⟩ := List.append_of_mem hw
  rw [Db.apply_append]
  have hrs : ∀ db, ∀ w' ∈ after, P db → P (db.write w') := fun db w' hw' => hkp db w' (by simp [hw'])
  change P (((db.apply before).write w).apply after)
  exact Db.apply_inv hrs (hmk (db.apply before))

theorem Keeps.indexed (hw : Keeps tree len gone leaves w) (h : Indexed db tree) : Indexed (db.write w) tree := by
  cases hw with
  | record n hn => exact h.set fun hk => absurd hk (nodeKey_not_indexed _)
  | entry e k hk he => exact h.set fun _ => ⟨e, _, rfl, rfl⟩
  | branch k r hk => exact h.set fun hk => absurd hk (nodeKey_not_indexed _)
  | fork e k hf => exact h.set fun _ => ⟨e, _, rfl, rfl⟩
  | forget k hk => exact h.delete _
  | forgetEntry e => exact h.delete _

theorem Keeps.entry_set {v : Value} (hw : Keeps tree len gone leaves (.set (tree.pathKey e) v)) :
    Entry tree len leaves e v := by
  generalize hk : tree.pathKey e = k at hw
  cases hw with
  | record n hn => exact absurd hk.symm (nodeKey_ne_pathKey _ _)
  | entry e' k hk' he => exact pathKey_inj hk ▸ .leaf k hk' he
  | branch k r hk' => exact absurd hk.symm (nodeKey_ne_pathKey _ _)
  | fork e' k hf => exact pathKey_inj hk ▸ .branch k hf

theorem Keeps.live (hw : Keeps tree len gone leaves w) (hl : ∀ a ∈ leaves, a.key.length = len)
    (hun : ∀ a ∈ leaves, ∀ b ∈ leaves, a.key = b.key → a = b) (hgn : ∀ k, gone = some k → ∀ a ∈ leaves, a.key ≠ k)
    {a : Item} (ha : a ∈ leaves) (h : ∃ commitment, db.get (tree.nodeKey a.key) = some (.node (.leaf ⟨a, commitment⟩))) :
    ∃ commitment, (db.write w).get (tree.nodeKey a.key) = some (.node (.leaf ⟨a, commitment⟩)) := by
  by_cases hk : w.key = tree.nodeKey a.key
  · cases hw with
    | record n hn =>
      have hkey : n.key = a.key := nodeKey_inj hk
      obtain rfl : n.toItem = a := hun _ hn _ ha hkey
      exact ⟨n.commitment, OrdMap.get_set_self _ _ _⟩
    | entry e k hk' he => exact absurd hk.symm (nodeKey_ne_pathKey _ _)
    | branch k r hk' => exact absurd (nodeKey_inj hk ▸ hl a ha) hk'
    | fork e k hf => exact absurd hk.symm (nodeKey_ne_pathKey _ _)
    | forget k hk' =>
      obtain rfl : k = a.key := nodeKey_inj hk
      exact absurd rfl (hgn _ (hk' (hl a ha)) a ha)
    | forgetEntry e => exact absurd hk.symm (nodeKey_ne_pathKey _ _)
  · rw [Db.get_write_of_ne _ hk]
    exact h

theorem Keeps.dead (hw : Keeps tree len gone leaves w) {k : Bytes} (hk : k.length = len)
    (hdd : ∀ a ∈ leaves, a.key ≠ k) (h : db.get (tree.nodeKey k) = none) :
    (db.write w).get (tree.nodeKey k) = none := by
  by_cases hwk : w.key = tree.nodeKey k
  · cases hw with
    | record n hn => exact absurd (nodeKey_inj hwk) (hdd _ hn)
    | entry e k' hk' he => exact absurd hwk.symm (nodeKey_ne_pathKey _ _)
    | branch k' r hk' => exact absurd (nodeKey_inj hwk ▸ hk) hk'
    | fork e k' hf => exact absurd hwk.symm (nodeKey_ne_pathKey _ _)
    | forget k' hk' =>
      obtain rfl : k' = k := nodeKey_inj hwk
      rw [Db.write, OrdMap.get_delete, if_pos rfl]
    | forgetEntry e => exact absurd hwk.symm (nodeKey_ne_pathKey _ _)
  · rw [Db.get_write_of_ne _ hwk]
    exact h

/-- The writes of a tree whose leaves change: entries of paths where leaves no longer part and records of leaves that
    are gone are deleted, records of new leaves are written. -/
theorem Backed.apply (h : Backed len leaves tree db) (hl : ∀ a ∈ leaves', a.key.length = len)
    (hun : ∀ a ∈ leaves', ∀ b ∈ leaves', a.key = b.key → a = b) (hws : ∀ w ∈ ws, Keeps tree len gone leaves' w)
    (hgn : ∀ k, gone = some k → ∀ a ∈ leaves', a.key ≠ k)
    (hfr : ∀ e, Forks leaves e → Forks leaves' e ∨ .delete (tree.pathKey e) ∈ ws)
    (hnew : ∀ a ∈ leaves', a ∈ leaves ∨ ∃ commitment, .set (tree.nodeKey a.key) (.node (.leaf ⟨a, commitment⟩)) ∈ ws)
    (ho : ∀ a ∈ leaves, (∃ b ∈ leaves', b.key = a.key) ∨ .delete (tree.nodeKey a.key) ∈ ws) :
    Backed len leaves' tree (db.apply ws) where
  indexed := Db.apply_inv (P := fun db => Indexed db tree) (fun db w hw => (hws w hw).indexed) h.indexed
  entry e v hget := by
    rcases Db.get_apply_cases hget with hs | ⟨hget, hd⟩
    · exact (hws _ hs).entry_set
    · exact (h.entry e v hget).mono fun hf => (hfr e hf).resolve_right hd
  live a ha := by
    have hkp := fun (db : Db) w hw (hlv : ∃ commitment, db.get (tree.nodeKey a.key) = some (.node (.leaf ⟨a, commitment⟩))) =>
      (hws w hw).live hl hun hgn ha hlv
    rcases hnew a ha with hm | ⟨commitment, hm⟩
    · exact Db.apply_inv hkp (h.live a hm)
    · exact Db.apply_inv_of_mem hm (fun db => ⟨commitment, OrdMap.get_set_self _ _ _⟩) hkp
  dead k hk hdd := by
    have hkp := fun (db : Db) w hw (hnn : db.get (tree.nodeKey k) = none) => (hws w hw).dead hk hdd hnn
    by_cases hwas : ∃ a ∈ leaves, a.key = k
    · obtain ⟨a, ha, rfl⟩ := hwas
      rcases ho a ha with ⟨b, hb, hkey⟩ | hd
      · exact absurd hkey (hdd b hb)
      · exact Db.apply_inv_of_mem hd (fun db => by rw [Db.write, OrdMap.get_delete, if_pos rfl]) hkp
    · exact Db.apply_inv hkp (h.dead k hk fun a ha hak => hwas ⟨a, ha, hak⟩)

/-! ### Frames -/

theorem Backed.frame (h : Backed len leaves tree db) (hpt : ∀ k, tree.pathKey [] <+: k → db'.get k = db.get k)
    (hnd : ∀ k, db'.get (tree.nodeKey k) = db.get (tree.nodeKey k)) : Backed len leaves tree db' where
  indexed k v hget hk := h.indexed k v (hpt k hk ▸ hget) hk
  entry e v hget := h.entry e v (hpt _ (pathKey_prefix_iff.mpr List.nil_prefix) ▸ hget)
  live a ha := by
    rw [hnd]
    exact h.live a ha
  dead k hk hdead := by
    rw [hnd]
    exact h.dead k hk hdead

theorem backed_fresh (h : ∀ k, tree.pathKey [] <+: k → db.get k = none) (hnd : ∀ k, db.get (tree.nodeKey k) = none) :
    Backed len [] tree db where
  indexed k v hget hk := by simp [h k hk] at hget
  entry e v hget := by simp [h _ (pathKey_prefix_iff.mpr List.nil_prefix)] at hget
  live a ha := absurd ha List.not_mem_nil
  dead k _ _ := hnd k

end

end Quilibrium
