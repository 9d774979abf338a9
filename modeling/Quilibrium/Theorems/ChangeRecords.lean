import Quilibrium.Theorems.Requests
import Quilibrium.Theorems.Changeset
import Quilibrium.Theorems.Serialize

/-! What `GetChanges` finds: the records of a frame are a range of the keys of the store. -/

namespace Quilibrium
open List

/-! ### Big-endian numbers -/

theorem natOfBE_lt_iff {a b : Bytes} (hl : a.length = b.length) : natOfBE a < natOfBE b ↔ a < b := by
  induction a generalizing b with
  | nil =>
    cases b with
    | nil => simp
    | cons y b => cases hl
  | cons x a ih =>
    cases b with
    | nil => cases hl
    | cons y b =>
      have hl' : a.length = b.length := Nat.succ.inj hl
      rw [natOfBE_cons, natOfBE_cons, hl', cons_lt_cons_iff, ← ih hl']
      have ha := hl' ▸ natOfBE_lt a
      have hb := natOfBE_lt b
      have hm {x y : UInt8} (h : x < y) : x.toNat * 256 ^ b.length + 256 ^ b.length ≤ y.toNat * 256 ^ b.length := by
        rw [← Nat.succ_mul]
        exact Nat.mul_le_mul_right _ (UInt8.lt_iff_toNat_lt.mp h)
      rcases lt_trichotomy x y with hxy | rfl | hyx
      · exact iff_of_true (by have := hm hxy; omega) (.inl hxy)
      · simp
      · exact iff_of_false (by have := hm hyx; omega) fun h => h.elim hyx.not_gt fun h => hyx.ne' h.1

theorem uint64BE_lt {m n : Nat} (h : m < n) (hn : n < 2 ^ 64) : uint64BE m < uint64BE n := by
  rwa [← natOfBE_lt_iff (by rw [length_uint64BE, length_uint64BE]), natOfBE_uint64BE (h.trans hn), natOfBE_uint64BE hn]

/-! ### Records -/

section
variable {db db' : Db} {tree tree' : TreeId} {frame : Nat} {key key' k : Bytes}

def Decodes (oldValue : Option VectorCommitmentTree) : Prop :=
  ∀ old, oldValue = some old → ∃ tree, deserializeNonLazyTree (serializeNonLazyTree old) = .ok tree

def recordRange (db : Db) (tree : TreeId) (frame : Nat) : List (Bytes × Value) :=
  OrdMap.range db (hypergraphChangeRecordKey tree frame []) (hypergraphChangeRecordKey tree (frame + 1) [])

theorem changeRecordKey_append (tree : TreeId) (frame : Nat) (key : Bytes) :
    hypergraphChangeRecordKey tree frame key = hypergraphChangeRecordKey tree frame [] ++ key := by
  simp [hypergraphChangeRecordKey, shardRecordKey]

theorem changeRecordKey_inj (h : hypergraphChangeRecordKey tree frame key = hypergraphChangeRecordKey tree frame key') :
    key = key' := by
  rw [changeRecordKey_append, changeRecordKey_append _ _ key'] at h
  exact append_cancel_left h

theorem TreeId.changeType_inj (h : tree.changeType = tree'.changeType) :
    tree.setType = tree'.setType ∧ tree.phaseType = tree'.phaseType := by
  obtain ⟨_ | _, _ | _, s⟩ := tree <;> obtain ⟨_ | _, _ | _, s'⟩ := tree' <;> dsimp only [TreeId.changeType] at h <;>
    first
    | exact ⟨rfl, rfl⟩
    | exact absurd h (by decide)

theorem TreeId.eq_of_changeKey {rest rest' : Bytes}
    (h : shardRecordKey tree.changeType tree.shardKey rest = shardRecordKey tree'.changeType tree'.shardKey rest') :
    tree = tree' := by
  obtain ⟨ht, hsh, -⟩ := shardRecordKey_inj h
  obtain ⟨hs, hph⟩ := TreeId.changeType_inj ht
  cases tree
  cases tree'
  cases hs
  cases hph
  cases hsh
  rfl

theorem length_changeRecordKey (tree : TreeId) (frame : Nat) (key : Bytes) :
    (hypergraphChangeRecordKey tree frame key).length = 45 + key.length := by
  simp [hypergraphChangeRecordKey, shardRecordKey, tree.shardKey.length_l1, tree.shardKey.length_l2, length_uint64BE]
  omega

theorem mem_recordRange (hfr : frame + 1 < 2 ^ 64) {value : Value}
    (h : db.get (hypergraphChangeRecordKey tree frame key) = some value) :
    (hypergraphChangeRecordKey tree frame key, value) ∈ recordRange db tree frame := by
  refine mem_filter.mpr ⟨OrdMap.get_eq_some.mp h, ?_⟩
  have hle : hypergraphChangeRecordKey tree frame [] ≤ hypergraphChangeRecordKey tree frame key := by
    rw [changeRecordKey_append tree frame key]
    exact prefix_le (prefix_append _ _)
  have hlt : hypergraphChangeRecordKey tree frame key < hypergraphChangeRecordKey tree (frame + 1) [] := by
    have hnx : uint64BE frame < uint64BE (frame + 1) := uint64BE_lt (Nat.lt_succ_self frame) hfr
    have hl : (uint64BE frame).length = (uint64BE (frame + 1)).length := by rw [length_uint64BE, length_uint64BE]
    have hsh : ∀ n rest, hypergraphChangeRecordKey tree n rest =
        (HYPERGRAPH_SHARD :: tree.changeType :: (tree.shardKey.l1 ++ tree.shardKey.l2)) ++ (uint64BE n ++ rest) := by
      intro n rest
      simp [hypergraphChangeRecordKey, shardRecordKey]
    rw [hsh, hsh, append_lt_append_iff]
    exact append_lt_append_of_lt hl hnx key []
  simpa using ⟨hle, hlt⟩

section
variable {value : Value} (h : (k, value) ∈ recordRange db tree frame)
include h

theorem key_of_mem_recordRange : ∃ rest, k = shardRecordKey tree.changeType tree.shardKey rest := by
  obtain ⟨-, hrn⟩ := mem_filter.mp h
  have hrn : hypergraphChangeRecordKey tree frame [] ≤ k ∧ k < hypergraphChangeRecordKey tree (frame + 1) [] := by
    simpa using hrn
  have hsh : ∀ n, hypergraphChangeRecordKey tree n [] = shardRecordKey tree.changeType tree.shardKey [] ++ uint64BE n := by
    intro n
    simp [hypergraphChangeRecordKey, shardRecordKey]
  rw [hsh, hsh] at hrn
  obtain ⟨rest, rfl⟩ := prefix_of_le_of_lt ((prefix_le (prefix_append _ _)).trans hrn.1) hrn.2
  exact ⟨rest, by simp [shardRecordKey]⟩

theorem not_owns_of_mem_recordRange (tree' : TreeId) : ¬tree'.Owns k := by
  obtain ⟨rest, rfl⟩ := key_of_mem_recordRange h
  exact not_owns_changeType tree tree' rest

end

/-- The entry is the record of a change in this frame, and it can be read. -/
def Recorded (tree : TreeId) (frame : Nat) (entry : Bytes × Value) : Prop :=
  ∃ key oldValue, entry = (hypergraphChangeRecordKey tree frame key, .data ((oldValue.map serializeNonLazyTree).getD [])) ∧
    Decodes oldValue

theorem Recorded.changeRecord (hfr : frame < 2 ^ 64) {entry : Bytes × Value} (h : Recorded tree frame entry) :
    ∃ oldValue, changeRecord entry = .ok (.ok ⟨entry.1.drop 45, oldValue, frame⟩) := by
  obtain ⟨key, oldValue, rfl, hd⟩ := h
  have hkey : (hypergraphChangeRecordKey tree frame key).drop 45 = key := by
    rw [changeRecordKey_append, drop_left' (by rw [length_changeRecordKey]; rfl)]
  have hnum : natOfBE (((hypergraphChangeRecordKey tree frame key).drop 37).take 8) = frame := by
    have hdp : (hypergraphChangeRecordKey tree frame key).drop 37 = uint64BE frame ++ key := by
      have hsh : hypergraphChangeRecordKey tree frame key =
          (HYPERGRAPH_SHARD :: tree.changeType :: (tree.shardKey.l1 ++ tree.shardKey.l2)) ++ (uint64BE frame ++ key) := by
        simp [hypergraphChangeRecordKey, shardRecordKey]
      rw [hsh, drop_left' (by simp [tree.shardKey.length_l1, tree.shardKey.length_l2])]
    rw [hdp, take_left' (length_uint64BE frame), natOfBE_uint64BE hfr]
  have hlg : ¬(hypergraphChangeRecordKey tree frame key).length < 2 + 3 + 32 + 8 := by
    rw [length_changeRecordKey]
    omega
  simp only [Quilibrium.changeRecord, if_neg hlg, hkey, hnum]
  cases oldValue with
  | none => exact ⟨none, rfl⟩
  | some old =>
    obtain ⟨tree', hrd⟩ := hd old rfl
    have hne : serializeNonLazyTree old ≠ [] := by
      obtain ⟨_ | _ | _⟩ := old <;> simp [serializeNonLazyTree, serializeNonLazyNode]
    obtain ⟨x, xs, hcn⟩ := exists_cons_of_ne_nil hne
    refine ⟨some tree', ?_⟩
    simp only [Option.map_some, Option.getD_some, hcn]
    rw [← hcn, hrd]

theorem getChanges_spec (hfr : frame + 1 < 2 ^ 64) (h : ∀ entry ∈ recordRange db tree frame, Recorded tree frame entry) :
    ∃ changes, getChanges db tree frame frame = .ok (.ok changes) ∧ (∀ x ∈ changes, x.frame = frame) ∧
      changes.map (·.key) = ((recordRange db tree frame).map fun entry => entry.1.drop 45).reverse := by
  have hall : ∀ entries : List (Bytes × Value), (∀ entry ∈ entries, Recorded tree frame entry) →
      ∃ changes, changeRecords entries = .ok (.ok changes) ∧ (∀ x ∈ changes, x.frame = frame) ∧
        changes.map (·.key) = entries.map fun entry => entry.1.drop 45 := by
    intro entries
    induction entries with
    | nil => exact fun _ => ⟨[], rfl, nofun, rfl⟩
    | cons entry entries ih =>
      intro hen
      obtain ⟨oldValue, ho⟩ := (hen entry mem_cons_self).changeRecord (Nat.lt_of_succ_lt hfr)
      obtain ⟨changes, hrs, hfrs, hky⟩ := ih fun e he => hen e (mem_cons_of_mem _ he)
      refine ⟨⟨entry.1.drop 45, oldValue, frame⟩ :: changes, ?_, forall_mem_cons.mpr ⟨rfl, hfrs⟩, ?_⟩
      · simp [changeRecords, ho, hrs]
      · rw [map_cons, map_cons, hky]
  obtain ⟨changes, hr, hfrs, hky⟩ := hall _ h
  refine ⟨changes.reverse, ?_, fun x hx => hfrs x (mem_reverse.mp hx), by rw [map_reverse, hky]⟩
  rw [getChanges, Nat.mod_eq_of_lt hfr]
  change (changeRecords (recordRange db tree frame) >>= _) = _
  rw [hr, Except.ok_bind]

theorem getChanges_nil (hfr : frame + 1 < 2 ^ 64) (h : recordRange db tree frame = []) :
    getChanges db tree frame frame = .ok (.ok []) := by
  have hr : ∀ entry ∈ recordRange db tree frame, Recorded tree frame entry := by simp [h]
  obtain ⟨changes, hc, -, hky⟩ := getChanges_spec hfr hr
  rw [h] at hky
  rw [hc, map_eq_nil_iff.mp hky]

theorem recordRange_nodup (db : Db) (tree : TreeId) (frame : Nat) :
    ((recordRange db tree frame).map Prod.fst).Nodup := by
  refine (pairwise_map.mpr ?_).imp fun hlt => ne_of_lt hlt
  exact db.sorted.filter _

end

end Quilibrium
