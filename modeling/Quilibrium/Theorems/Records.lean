import Mathlib.Data.Set.Basic
import Quilibrium.Theorems.ProofTree
import Quilibrium.Schema.Rdf

/-! Trees as records: no path of a key goes through the end of another one, so `Insert` and `Get` are those of a finite
    map (`Record`). -/

namespace Quilibrium
open Radix Except List VectorCommitmentTree

/-! ### Records -/

theorem Node.get_mem {key v : Bytes} {t : Node} {depth : Nat} (h : Node.get key t depth = .ok (some v)) :
    ∃ a ∈ (skel t).leaves, a.key = key ∧ a.value = v := by
  induction t generalizing depth with
  | nil => cases h
  | leaf n =>
    simp only [Node.get] at h
    split_ifs at h with hkey
    · cases h
      exact ⟨n.toItem, by simp [skel], hkey, rfl⟩
    · cases h
  | branch n ch ih =>
    simp only [Node.get] at h
    split at h
    · cases h
    · split at h
      · cases h
      · rename_i i _
        obtain ⟨a, ha, hav⟩ := ih i h
        exact ⟨a, Trie.mem_leaves_branch.mpr ⟨i, ha⟩, hav⟩

theorem VectorCommitmentTree.get_mem {t : VectorCommitmentTree} {key v : Bytes} (h : t.get key = .ok (.ok v)) :
    ∃ a ∈ (skel t.root).leaves, a.key = key ∧ a.value = v := by
  unfold get at h
  split_ifs at h
  · cases h
  · obtain ⟨found, hget, h⟩ := bind_eq_ok.mp h
    cases found with
    | none => cases h
    | some value =>
      cases h
      exact Node.get_mem hget

/-- No path of a key goes through the end of another one. -/
def Antichain (keys : Set Bytes) : Prop :=
  ∀ k ∈ keys, ∀ l ∈ keys, k = l ∨ Apart (getFullPath k) (getFullPath l)

/-- The tree has the value `f k` at each key `k`, and no other keys than `keys`. -/
structure Record (keys : Set Bytes) (f : Bytes → Option Bytes) (t : VectorCommitmentTree) : Prop where
  placed : Placed Item.path [] (skel t.root)
  mem : ∀ a ∈ (skel t.root).leaves, a.key ∈ keys
  binds : ∀ k v, f k = some v ↔ ∃ a ∈ (skel t.root).leaves, a.key = k ∧ a.value = v

section
variable {keys : Set Bytes} {f : Bytes → Option Bytes} {t : VectorCommitmentTree} {k : Bytes} {a : Item}

theorem record_empty (keys : Set Bytes) : Record keys (fun _ => none) .empty where
  placed := trivial
  mem a ha := by simp [empty, skel] at ha
  binds k v := by simp [empty, skel]

namespace Record

section
variable (h : Record keys f t)
include h

section
variable (hkeys : Antichain keys)
include hkeys

section
variable (hk : k ∈ keys)
include hk

theorem apart (ha : a ∈ (skel t.root).leaves) : a.key = k ∨ Apart a.path (getFullPath k) :=
  hkeys a.key (h.mem a ha) k hk

theorem path_eq_iff (ha : a ∈ (skel t.root).leaves) : a.path = getFullPath k ↔ a.key = k := by
  constructor
  · exact fun hpt => (h.apart hkeys hk ha).resolve_right fun har => har.ne hpt
  · rintro rfl
    rfl

theorem free : Free Item.path (getFullPath k) (skel t.root) := fun _ ha =>
  (h.apart hkeys hk ha).imp_left fun hkey => by rw [Item.path, hkey]

theorem get (hne : k ≠ []) : t.get k = .ok ((f k).elim (.error ("key not found: 0x" ++ hex k)) .ok) := by
  have hget : Node.get k t.root 0 = _ := Node.get_placed h.placed nil_prefix fun _ ha => h.apart hkeys hk ha
  simp only [VectorCommitmentTree.get, if_neg hne, hget, ok_bind]
  have hsm : ∀ a, lookup Item.path (getFullPath k) (skel t.root) 0 = some a ↔ _ := fun _ =>
    h.placed.lookup_eq_some nil_prefix (h.free hkeys hk)
  cases hl : lookup Item.path (getFullPath k) (skel t.root) 0 with
  | none =>
    have hf : f k = none := by
      refine Option.eq_none_iff_forall_ne_some.mpr fun v hv => ?_
      obtain ⟨a, ha, hak, -⟩ := (h.binds k v).mp hv
      cases hl.symm.trans ((hsm a).mpr ⟨ha, (h.path_eq_iff hkeys hk ha).mpr hak⟩)
    rw [hf]
    rfl
  | some a =>
    obtain ⟨ha, hpt⟩ := (hsm a).mp hl
    rw [(h.binds k a.value).mpr ⟨a, ha, (h.path_eq_iff hkeys hk ha).mp hpt, rfl⟩]
    rfl

end

theorem insert (new : Item) (hk : new.key ∈ keys) (hne : new.key ≠ []) :
    ∃ t', t.insert new = .ok (t', none) ∧ Record keys (Function.update f new.key (some new.value)) t' := by
  obtain ⟨delta, root, hins, hsk⟩ := Node.insert_placed h.placed nil_prefix fun _ ha => h.apart hkeys hk ha
  have hm : ∀ a, a ∈ (skel root).leaves ↔ a = new ∨ a ∈ (skel t.root).leaves ∧ a.key ≠ new.key := fun a => by
    rw [hsk, h.placed.mem_insert nil_prefix (h.free hkeys hk)]
    exact or_congr_right (and_congr_right fun ha => not_congr (h.path_eq_iff hkeys hk ha))
  refine ⟨⟨root⟩, ?_, ?_, fun a ha => ?_, fun k v => ?_⟩
  · have hins : Node.insert new t.root 0 = .ok (delta, root) := hins
    simp [VectorCommitmentTree.insert, if_neg hne, hins]
  · rw [hsk]
    exact placed_insert h.placed nil_prefix (h.free hkeys hk)
  · obtain rfl | ⟨ha, -⟩ := (hm a).mp ha
    · exact hk
    · exact h.mem a ha
  · simp only [hm, Function.update_apply]
    by_cases hkn : k = new.key
    · rw [if_pos hkn, Option.some.injEq]
      constructor
      · rintro rfl
        exact ⟨new, .inl rfl, hkn.symm, rfl⟩
      · rintro ⟨a, rfl | ⟨-, hak⟩, ha, rfl⟩
        · rfl
        · exact absurd (ha.trans hkn) hak
    · rw [if_neg hkn, h.binds k v]
      constructor
      · rintro ⟨a, ha, rfl, hv⟩
        exact ⟨a, .inr ⟨ha, hkn⟩, rfl, hv⟩
      · rintro ⟨a, rfl | ⟨ha, -⟩, hak, hv⟩
        · exact absurd hak.symm hkn
        · exact ⟨a, ha, hak, hv⟩

end

end

end Record

end

/-! ### Keys of RDF trees -/

/-- The key of the type and the keys of fields of `width` bytes: the nibble after their order is zero. -/
def rdfKeys (width : Nat) : Set Bytes :=
  {k | k = typeKey ∨ k.length = width ∧ (getFullPath k)[width]? = some (toNibble 0)}

theorem rdfKeys_ne_nil {width : Nat} (hw : 0 < width) {k : Bytes} (hk : k ∈ rdfKeys width) : k ≠ [] := by
  obtain rfl | ⟨hl, -⟩ := hk
  · exact cons_ne_nil _ _
  · exact ne_nil_of_length_pos (hl ▸ hw)

theorem getFullPath_typeKey {i : Nat} (hi : i ≤ 3) : (getFullPath typeKey)[i]? = some 63 := by
  obtain rfl | rfl | rfl | rfl : i = 0 ∨ i = 1 ∨ i = 2 ∨ i = 3 := by omega
  all_goals decide +kernel

theorem typeKey_apart {width : Nat} (hw : width ≤ 3) {k : Bytes} (hl : k.length = width)
    (hk : (getFullPath k)[width]? = some (toNibble 0)) : Apart (getFullPath typeKey) (getFullPath k) := by
  have hln : (getFullPath k).length < (getFullPath typeKey).length := by
    rw [getFullPath_length, getFullPath_length, hl, typeKey, length_replicate]
    simp only [pathLength]
    omega
  refine ⟨not_prefix_of_length hln, fun hpre => ?_⟩
  have hi : width < (getFullPath k).length := by
    by_contra hle
    rw [getElem?_eq_none (Nat.le_of_not_lt hle)] at hk
    cases hk
  obtain ⟨rest, hrs⟩ := hpre
  have hty := getFullPath_typeKey hw
  rw [← hrs, getElem?_append_left hi, hk] at hty
  exact absurd (Option.some.inj hty) (by decide)

theorem rdfKeys_antichain {width : Nat} (hw : width ≤ 3) : Antichain (rdfKeys width) := by
  rintro k (rfl | ⟨hk, hk0⟩) l (rfl | ⟨hl, hl0⟩)
  · exact .inl rfl
  · exact .inr (typeKey_apart hw hl hl0)
  · exact .inr (typeKey_apart hw hk hk0).symm
  · by_cases hkl : k = l
    · exact .inl hkl
    · have hlen : k.length = l.length := hk.trans hl.symm
      refine .inr (apart_of_length ?_ (getFullPath_ne hlen hkl))
      rw [getFullPath_length, getFullPath_length, hlen]

end Quilibrium
