import Quilibrium.Lib.Except
import Quilibrium.Lib.RadixOps
import Quilibrium.Theorems.Nibble
import Quilibrium.Tries.ProofTree

/-! The in-memory tree against the path-compressed tree of its items (`skel`). -/

namespace Quilibrium
open Radix Function Except Trie Node Item

def Item.path (a : Item) : List Nibble := getFullPath a.key

def skel (t : Node) : Trie 64 (List Nibble) Item := t.map BranchNode.pfx LeafNode.toItem

/-- The node at path `p` is canonical for keys of `len` bytes. -/
def Shaped (len : Nat) (p : List Nibble) (t : Trie 64 (List Nibble) Item) : Prop :=
  Canonical Item.path (pathLength len) p t

theorem Shaped.key_length {len : Nat} {p : List Nibble} {t : Trie 64 (List Nibble) Item} (h : Shaped len p t)
    {a : Item} (ha : a ∈ t.leaves) : a.key.length = len := by
  have := (Canonical.mem h ha).2
  rw [path, getFullPath_length, pathLength, pathLength] at this
  omega

theorem Item.path_eq_iff {a b : Item} (h : a.key.length = b.key.length) : a.path = b.path ↔ a.key = b.key :=
  ⟨fun hp => getFullPath_inj h hp, fun hk => by rw [path, hk, path]⟩

/-! ### Insertion -/

section
variable {len : Nat} {p : List Nibble} {new : Item} {key : Bytes}

theorem depth_slot (p q : List Nibble) (i : Nibble) :
    6 * p.length + q.length * branchBits + branchBits = 6 * (p ++ q ++ [i]).length := by
  rw [length_slot, branchBits]
  omega

theorem fuel_succ {a b fuel : Nat} (h : a < fuel + b) (hle : b ≤ a) : ∃ f, fuel = f + 1 := ⟨fuel - 1, by omega⟩

theorem fuel_slot {a fuel : Nat} {p q : List Nibble} {i : Nibble} (h : a < fuel + 1 + p.length) :
    a < fuel + (p ++ q ++ [i]).length := by
  rw [length_slot]
  omega

theorem Node.insert_leaf {n : LeafNode} (hn : p <+: n.path) (hp : p <+: new.path) (har : Apart n.path new.path) :
    ∃ i j, i ≠ j ∧ insert new (.leaf n) (6 * p.length) = .ok (1, .branch
        { pfx := shared (n.path.drop p.length) (new.path.drop p.length), commitment := [], size := n.size + new.size,
          leafCount := 2, longestBranch := 1 }
        (update (update (fun _ => .nil) i (.leaf n)) j (.leaf { new with commitment := [] }))) ∧
      Radix.insert path new (.leaf n.toItem) p.length =
        fork (shared (n.path.drop p.length) (new.path.drop p.length)) i (.leaf n.toItem) j (.leaf new) := by
  have hne : n.key ≠ new.key := fun h => har.ne (by rw [path, path, h])
  obtain ⟨i, j, hij, e, hi, hj, -, -⟩ := insert_leaf_fork hp hn har
  refine ⟨i, j, hij, ?_, e⟩
  have hd := @getNibblesUntilDiverge_eq n.key new.key p.length
    (fun h => hij (Option.some.inj (hi.symm.trans (h.trans hj))))
  simp only [insert, if_neg hne, hd, ok_bind, ← getFullPath_getElem?]
  simp only [path] at hi hj ⊢
  simp [hi, hj, setChild]

variable {t : Node} {n : BranchNode}

theorem Node.insert_split (ch : Fin 64 → Node) (hp : p <+: new.path)
    (hend : ¬new.path <+: p ++ n.pfx) (hq : ¬n.pfx <+: new.path.drop p.length) : ∃ i j, i ≠ j ∧
      insert new (.branch n ch) (6 * p.length) = .ok (1, .branch
        { pfx := shared n.pfx (new.path.drop p.length), commitment := [], size := n.size + new.size,
          leafCount := n.leafCount + 1, longestBranch := n.longestBranch + 1 }
        (update (update (fun _ => .nil) i
          (.branch { n with pfx := n.pfx.drop ((shared n.pfx (new.path.drop p.length)).length + 1) } ch))
          j (.leaf { new with commitment := [] }))) ∧
      Radix.insert path new (skel (.branch n ch)) p.length = fork (shared n.pfx (new.path.drop p.length)) i
          (.branch (n.pfx.drop ((shared n.pfx (new.path.drop p.length)).length + 1)) fun i => skel (ch i))
          j (.leaf new) := by
  obtain ⟨i, j, hij, e, hi, hj, -, -⟩ := insert_branch_fork (fun i => skel (ch i)) hp hend hq
  refine ⟨i, j, hij, ?_, e⟩
  have hm := prefixMismatch_eq new.key p.length n.pfx 0
  simp only [Nat.add_zero, Nat.zero_add] at hm
  simp only [path] at hi hj ⊢
  rw [hi, hj] at hm
  have htk : n.pfx.take (shared n.pfx ((getFullPath new.key).drop p.length)).length =
      shared n.pfx ((getFullPath new.key).drop p.length) :=
    (List.prefix_iff_eq_take.mp (shared_prefix_left _ _)).symm
  simp [insert, hm, setChild, htk]

theorem Node.insert_descend (ch : Fin 64 → Node) (hp : p <+: new.path)
    (hend : ¬new.path <+: p ++ n.pfx) (hq : n.pfx <+: new.path.drop p.length) : ∃ i, p ++ n.pfx ++ [i] <+: new.path ∧
      Radix.insert path new (skel (.branch n ch)) p.length = .branch n.pfx (update (fun i => skel (ch i)) i
          (Radix.insert path new (skel (ch i)) (p ++ n.pfx ++ [i]).length)) ∧
      ∀ {delta : Int} {inserted : Node},
        insert new (ch i) (6 * (p ++ n.pfx ++ [i]).length) = .ok (delta, inserted) →
        insert new (.branch n ch) (6 * p.length) = .ok (delta, .branch { n with
            commitment := []
            size := if delta ≠ 0 then n.size + new.size else n.size
            leafCount := n.leafCount + delta
            longestBranch := longestAfterInsert n inserted }
          (update ch i inserted)) := by
  obtain ⟨i, e, hi, hpi⟩ := insert_branch_descend (fun i => skel (ch i)) hp hend hq
  refine ⟨i, hpi, e, fun {delta inserted} h => ?_⟩
  have hnn := prefixMismatch_eq_none.mpr hq
  have hnib : getNextNibble new.key (6 * p.length + n.pfx.length * branchBits) = some i := by
    rw [getNextNibble_depth]
    exact hi
  simp only [insert, hnn, hnib, depth_slot p n.pfx i, h, ok_bind]

theorem Node.insert_placed (h : Placed path p (skel t)) (hp : p <+: new.path)
    (hfree : ∀ a ∈ (skel t).leaves, a.key = new.key ∨ Apart a.path new.path) :
    ∃ delta t', insert new t (6 * p.length) = .ok (delta, t') ∧ skel t' = Radix.insert path new (skel t) p.length := by
  induction t generalizing p with
  | nil => exact ⟨1, _, rfl, rfl⟩
  | leaf n =>
    obtain hkey | har := hfree n.toItem (by simp [skel])
    · refine ⟨0, .leaf { new with key := n.key, commitment := [] }, by simp [insert, hkey], ?_⟩
      have hpt : n.toItem.path = new.path := by rw [path, path, hkey]
      simp [skel, map_leaf, insert_leaf_eq _ _ hpt, hkey]
    · obtain ⟨i, j, -, h, e⟩ := insert_leaf h hp har
      refine ⟨1, _, h, ?_⟩
      simp [skel, map_branch, map_leaf, map_update, e, fork]
  | branch n ch ih =>
    have hend : ¬new.path <+: p ++ n.pfx :=
      h.branch_end fun a ha => (hfree a ha).imp_left fun hkey => by rw [path, path, hkey]
    by_cases hq : n.pfx <+: new.path.drop p.length
    · obtain ⟨i, hpi, e, hd⟩ := insert_descend ch hp hend hq
      obtain ⟨delta, inserted, hins, hsk⟩ := ih i (h.2 i) hpi fun a ha =>
        hfree a (mem_leaves_branch.mpr ⟨i, ha⟩)
      refine ⟨delta, _, hd hins, ?_⟩
      rw [e, ← hsk]
      simp [skel, map_branch, map_update]
    · obtain ⟨i, j, -, h, e⟩ := insert_split ch hp hend hq
      refine ⟨1, _, h, ?_⟩
      rw [e]
      simp [skel, map_branch, map_leaf, map_update, fork]

theorem Shaped.apart {t : Trie 64 (List Nibble) Item} (hc : Shaped len p t) (hk : key.length = len) (a : Item)
    (ha : a ∈ t.leaves) : a.key = key ∨ Apart a.path (getFullPath key) := by
  by_cases hkey : a.key = key
  · exact .inl hkey
  · have hl : a.key.length = key.length := (hc.key_length ha).trans hk.symm
    refine .inr (apart_of_length ?_ (getFullPath_ne hl hkey))
    rw [path, getFullPath_length, getFullPath_length, hl]

theorem Node.insert_skel (hc : Shaped len p (skel t)) (hk : new.key.length = len) (hp : p <+: new.path) :
    ∃ delta t', insert new t (6 * p.length) = .ok (delta, t') ∧ skel t' = Radix.insert path new (skel t) p.length :=
  insert_placed (Canonical.placed hc) hp (hc.apart hk)

/-! ### Lookup and removal -/

theorem follows_pfx {q : List Nibble} (hp : p <+: getFullPath key) (hend : ¬getFullPath key <+: p ++ q)
    (hq : q <+: (getFullPath key).drop p.length) :
    ∃ i, p ++ q ++ [i] <+: getFullPath key ∧ prefixMismatch key (6 * p.length) q 0 = none ∧
      getNextNibble key (6 * p.length + q.length * branchBits) = some i := by
  obtain ⟨i, hi, hpi⟩ := path_continues hp hq hend
  exact ⟨i, hpi, prefixMismatch_eq_none.mpr hq, by rw [getNextNibble_depth]; exact hi⟩

theorem follows_slot {q : List Nibble} {i : Nibble} (hp : p <+: getFullPath key) (hpi : p ++ q ++ [i] <+: getFullPath key) :
    prefixMismatch key (6 * p.length) q 0 = none ∧
      getNextNibble key (6 * p.length + q.length * branchBits) = some i := by
  have hl := hpi.length_le
  rw [List.length_append, List.length_singleton] at hl
  obtain ⟨j, hpj, hnn, hnib⟩ := follows_pfx hp (not_prefix_of_length hl) ((append_prefix_iff hp).mp (prefix_of_append hpi))
  exact ⟨hnn, slot_unique hpj hpi ▸ hnib⟩

theorem Shaped.slot_of_key {q : List Nibble} {ch : Fin 64 → Trie 64 (List Nibble) Item} (hc : Shaped len p (.branch q ch))
    (ha : a ∈ (Trie.branch q ch).leaves) (hak : a.key = key) : ∃ i, a ∈ (ch i).leaves ∧ p ++ q ++ [i] <+: getFullPath key := by
  obtain ⟨i, hi⟩ := Trie.mem_leaves_branch.mp ha
  exact ⟨i, hi, hak ▸ Canonical.child_mem hc hi⟩

theorem leaves_pfx {q : List Nibble} (hq : ¬q <+: (getFullPath key).drop p.length) :
    ∃ m, prefixMismatch key (6 * p.length) q 0 = some m :=
  Option.ne_none_iff_exists'.mp (mt prefixMismatch_eq_none.mp hq)

theorem Node.get_placed (h : Placed path p (skel t)) (hp : p <+: getFullPath key)
    (hfree : ∀ a ∈ (skel t).leaves, a.key = key ∨ Apart a.path (getFullPath key)) : get key t (6 * p.length) =
      .ok ((lookup path (getFullPath key) (skel t) p.length).map (·.value)) := by
  induction t generalizing p with
  | nil => rfl
  | leaf n =>
    simp only [get, skel, map_leaf, lookup]
    obtain hkey | har := hfree n.toItem (by simp [skel])
    · have hpt : n.toItem.path = getFullPath key := by rw [path, hkey]
      simp [hkey, hpt]
    · have hkey : n.key ≠ key := fun hkey => har.ne (by rw [path, hkey])
      simp [hkey, har.ne]
  | branch n ch ih =>
    have hend : ¬getFullPath key <+: p ++ n.pfx :=
      h.branch_end fun a ha => (hfree a ha).imp_left fun hkey => by rw [path, hkey]
    by_cases hq : n.pfx <+: (getFullPath key).drop p.length
    · obtain ⟨i, hpi, hnn, hnib⟩ := follows_pfx hp hend hq
      have hi := hnib
      rw [getNextNibble_depth] at hi
      simp only [get, hnn, hnib]
      rw [depth_slot p n.pfx i, ih i (h.2 i) hpi fun a ha => hfree a (mem_leaves_branch.mpr ⟨i, ha⟩)]
      simp only [skel, map_branch, lookup, if_pos hq, hi, length_slot]
    · obtain ⟨m, hm⟩ := leaves_pfx hq
      simp [get, hm, skel, map_branch, lookup, if_neg hq]

theorem Node.skel_afterRemove (n : BranchNode) (size : Int) (ch : Fin 64 → Node) :
    skel (afterRemove n size ch) = collapse n.pfx fun i => skel (ch i) := by
  have ho : occupied (fun i => skel (ch i)) = occupied ch := occupied_map _ _ _
  unfold afterRemove collapse
  rw [ho]
  rcases occupied ch with _ | ⟨i, _ | ⟨j, l⟩⟩
  · rfl
  · cases h : ch i <;> simp [skel, h]
  · rfl

theorem Node.remove_branch_inv {ch : Fin 64 → Node} {depth : Nat} {size : Int} {t' : Node}
    (h : remove key (.branch n ch) depth = .ok (size, t')) :
    ((∃ m, prefixMismatch key depth n.pfx 0 = some m) ∧ size = 0 ∧ t' = .branch n ch) ∨
    ∃ i child, prefixMismatch key depth n.pfx 0 = none ∧
      getNextNibble key (depth + n.pfx.length * branchBits) = some i ∧
      remove key (ch i) (depth + n.pfx.length * branchBits + branchBits) = .ok (size, child) ∧
      t' = afterRemove n size (update ch i child) := by
  simp only [remove] at h
  split at h
  next m hm =>
    cases h
    exact .inl ⟨⟨m, hm⟩, rfl, rfl⟩
  next hm =>
    split at h
    · cases h
    next i hi =>
      obtain ⟨⟨size', child⟩, hr, h⟩ := bind_eq_ok.mp h
      cases h
      exact .inr ⟨i, child, hm, hi, hr, rfl⟩

theorem Node.remove_descend (ch : Fin 64 → Node) (hp : p <+: getFullPath key)
    (hl : (p ++ n.pfx).length < (getFullPath key).length) (hq : n.pfx <+: (getFullPath key).drop p.length) :
    ∃ i, p ++ n.pfx ++ [i] <+: getFullPath key ∧
      Radix.remove path (getFullPath key) (skel (.branch n ch)) p.length =
        collapse n.pfx (update (fun i => skel (ch i)) i
          (Radix.remove path (getFullPath key) (skel (ch i)) (p ++ n.pfx ++ [i]).length)) ∧
      ∀ {size : Int} {child : Node}, remove key (ch i) (6 * (p ++ n.pfx ++ [i]).length) = .ok (size, child) →
        remove key (.branch n ch) (6 * p.length) = .ok (size, afterRemove n size (update ch i child)) := by
  obtain ⟨i, e, hi, hpi⟩ := remove_branch_descend path (fun i => skel (ch i)) hp (not_prefix_of_length hl) hq
  refine ⟨i, hpi, e, fun {size child} h => ?_⟩
  have hnn := prefixMismatch_eq_none.mpr hq
  have hnib : getNextNibble key (6 * p.length + n.pfx.length * branchBits) = some i := by
    rw [getNextNibble_depth]
    exact hi
  simp only [remove, hnn, hnib, depth_slot p n.pfx i, h, ok_bind]

theorem Node.remove_skel (hc : Shaped len p (skel t)) (hk : key.length = len) (hp : p <+: getFullPath key) :
    ∃ size t', remove key t (6 * p.length) = .ok (size, t') ∧
      skel t' = Radix.remove path (getFullPath key) (skel t) p.length := by
  have hl : (getFullPath key).length = pathLength len := by rw [getFullPath_length, hk]
  induction t generalizing p with
  | nil => exact ⟨0, _, rfl, rfl⟩
  | leaf n =>
    have hlen : n.key.length = key.length := by
      rw [hk]
      exact hc.key_length (a := n.toItem) (by simp [skel])
    by_cases hne : n.key = key
    · have hpt : n.toItem.path = getFullPath key := by rw [path, hne]
      exact ⟨n.size, .nil, by simp [remove, hne], by simp [skel, Radix.remove, hpt]⟩
    · have hpt : n.toItem.path ≠ getFullPath key := getFullPath_ne hlen hne
      exact ⟨0, .leaf n, by simp [remove, hne], by simp [skel, Radix.remove, hpt]⟩
  | branch n ch ih =>
    have hlen : (p ++ n.pfx).length < (getFullPath key).length := hl ▸ Canonical.branch_length hc
    by_cases hq : n.pfx <+: (getFullPath key).drop p.length
    · obtain ⟨i, hpi, e, h⟩ := remove_descend ch hp hlen hq
      obtain ⟨size, child, hr, hsk⟩ := ih i (hc.2 i) hpi
      refine ⟨size, _, h hr, ?_⟩
      rw [skel_afterRemove, e, ← hsk]
      congr 1
      exact map_update _ _ _ _ _
    · obtain ⟨m, hm⟩ := leaves_pfx hq
      exact ⟨0, .branch n ch, by simp [remove, hm], by simp [skel, map_branch, Radix.remove, if_neg hq]⟩

end

end Quilibrium
