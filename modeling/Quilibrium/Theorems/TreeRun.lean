import Quilibrium.Theorems.TreeCommit

/-! Runs of the in-memory tree: it is the canonical tree of the bindings that are left (`Holds`). -/

namespace Quilibrium
open Radix Function Except List Option VectorCommitmentTree Item

inductive TreeCall where
  | insert (new : Item)
  | delete (key : Bytes)
  | commit (recalculate : Bool)

namespace TreeCall

def KeyLength (len : Nat) : TreeCall → Prop
  | insert new => new.key.length = len
  | delete key => key.length = len
  | commit _ => True

instance (len : Nat) : (c : TreeCall) → Decidable (c.KeyLength len)
  | insert new => inferInstanceAs (Decidable (new.key.length = len))
  | delete key => inferInstanceAs (Decidable (key.length = len))
  | commit _ => inferInstanceAs (Decidable True)

/-- The binding of each key after a call: `Insert` binds a key and `Delete` unbinds it. -/
def bind (b : Bytes → Option Item) : TreeCall → Bytes → Option Item
  | insert new => Function.update b new.key (some new)
  | delete key => Function.update b key none
  | commit _ => b

/-- What calls leave at each key: the item of its last `Insert`, unless a `Delete` follows. -/
def bindings (calls : List TreeCall) : Bytes → Option Item := calls.foldl bind fun _ => none

end TreeCall

namespace VectorCommitmentTree

def call (sha512 : Digest 64) (prover : InclusionProver) (t : VectorCommitmentTree) :
    TreeCall → Except Fault VectorCommitmentTree
  | .insert new => do
    let (t, _) ← t.insert new
    .ok t
  | .delete key => do
    let (t, _) ← t.delete key
    .ok t
  | .commit recalculate => .ok (t.commit sha512 prover recalculate).2

def run (sha512 : Digest 64) (prover : InclusionProver) (t : VectorCommitmentTree) (calls : List TreeCall) :
    Except Fault VectorCommitmentTree :=
  calls.foldlM (call sha512 prover) t

end VectorCommitmentTree

/-- The tree holds the bindings `b` of keys of `len` bytes, in canonical form and with coherent
    commitments. -/
structure Holds (sha512 : Digest 64) (prover : InclusionProver) (len : Nat) (b : Bytes → Option Item)
    (t : VectorCommitmentTree) : Prop where
  shaped : Shaped len [] (skel t.root)
  coherent : Coherent sha512 prover t.root
  binds : ∀ k a, b k = some a ↔ a ∈ (skel t.root).leaves ∧ a.key = k

section
variable {sha512 : Digest 64} {prover : InclusionProver} {len : Nat} {b : Bytes → Option Item}
  {t : VectorCommitmentTree}

theorem holds_empty (sha512 : Digest 64) (prover : InclusionProver) (len : Nat) :
    Holds sha512 prover len (fun _ => none) .empty where
  shaped := trivial
  coherent := trivial
  binds k a := by simp [empty, skel]

/-! ### One call -/

theorem Holds.insert (h : Holds sha512 prover len b t) (hlen : 0 < len) {new : Item} (hk : new.key.length = len) :
    ∃ t', t.insert new = .ok (t', none) ∧ Holds sha512 prover len (TreeCall.bind b (.insert new)) t' ∧
      skel t'.root = insert path new (skel t.root) 0 := by
  have hp : [] <+: new.path := nil_prefix
  have hl : new.path.length = pathLength len := by rw [path, getFullPath_length, hk]
  have hne : new.key ≠ [] := ne_nil_of_length_pos (hk ▸ hlen)
  obtain ⟨delta, root, hins, hsk⟩ := Node.insert_skel h.shaped hk hp
  refine ⟨⟨root⟩, ?_, ⟨?_, ?_, fun k a => ?_⟩, hsk⟩
  · have hins : Node.insert new t.root 0 = .ok (delta, root) := hins
    simp [VectorCommitmentTree.insert, if_neg hne, hins]
  · rw [Shaped, hsk]
    exact insert_canonical h.shaped hp hl
  · exact Node.insert_coherent h.shaped hk hp h.coherent hins
  · rw [hsk, mem_insert h.shaped hp hl, TreeCall.bind, update_apply]
    have hkey : a ∈ (skel t.root).leaves → (a.path ≠ new.path ↔ a.key ≠ new.key) := fun ha =>
      not_congr (path_eq_iff ((h.shaped.key_length ha).trans hk.symm))
    by_cases hkn : k = new.key
    · rw [if_pos hkn, some.injEq]
      constructor
      · rintro rfl
        exact ⟨.inl rfl, hkn.symm⟩
      · rintro ⟨rfl | ⟨ha, hpt⟩, hak⟩
        · rfl
        · exact absurd (hak.trans hkn) ((hkey ha).mp hpt)
    · rw [if_neg hkn, h.binds k a]
      constructor
      · rintro ⟨ha, rfl⟩
        exact ⟨.inr ⟨ha, (hkey ha).mpr hkn⟩, rfl⟩
      · rintro ⟨rfl | ⟨ha, -⟩, hak⟩
        · exact absurd hak.symm hkn
        · exact ⟨ha, hak⟩

theorem Holds.delete (h : Holds sha512 prover len b t) (hlen : 0 < len) {key : Bytes} (hk : key.length = len) :
    ∃ t', t.delete key = .ok (t', none) ∧ Holds sha512 prover len (TreeCall.bind b (.delete key)) t' := by
  have hp : [] <+: getFullPath key := nil_prefix
  have hl : (getFullPath key).length = pathLength len := by rw [getFullPath_length, hk]
  have hne : key ≠ [] := ne_nil_of_length_pos (hk ▸ hlen)
  obtain ⟨size, root, hr, hsk⟩ := Node.remove_skel h.shaped hk hp
  refine ⟨⟨root⟩, ?_, ?_, ?_, fun k a => ?_⟩
  · have hr : Node.remove key t.root 0 = .ok (size, root) := hr
    simp [VectorCommitmentTree.delete, if_neg hne, hr]
  · rw [Shaped, hsk]
    exact remove_canonical h.shaped hp hl
  · exact Node.remove_coherent h.coherent hr
  · rw [hsk, mem_remove h.shaped hp hl, TreeCall.bind, update_apply]
    have hkey : a ∈ (skel t.root).leaves → (a.path ≠ getFullPath key ↔ a.key ≠ key) := fun ha =>
      not_congr ⟨fun he => getFullPath_inj ((h.shaped.key_length ha).trans hk.symm) he, fun he => by rw [path, he]⟩
    by_cases hkn : k = key
    · rw [if_pos hkn]
      constructor
      · intro hn
        cases hn
      · rintro ⟨⟨ha, hpt⟩, hak⟩
        exact absurd (hak.trans hkn) ((hkey ha).mp hpt)
    · rw [if_neg hkn, h.binds k a]
      constructor
      · rintro ⟨ha, rfl⟩
        exact ⟨⟨ha, (hkey ha).mpr hkn⟩, rfl⟩
      · rintro ⟨⟨ha, -⟩, hak⟩
        exact ⟨ha, hak⟩

theorem VectorCommitmentTree.commit_spec (recalc : Bool) (h : Coherent sha512 prover t.root) :
    (t.commit sha512 prover recalc).1 = rootCommitOf sha512 prover (skel t.root) ∧
      Settled sha512 prover (t.commit sha512 prover recalc).2.root ∧
      skel (t.commit sha512 prover recalc).2.root = skel t.root := by
  obtain ⟨root⟩ := t
  have hsp := Node.commit_spec recalc fun _ => h
  have hsk : skel (Node.commit sha512 prover recalc root).2 = skel root := Node.commit_skel recalc root
  cases root with
  | nil => exact ⟨rfl, trivial, rfl⟩
  | leaf n | branch n ch => exact ⟨hsp.1, hsp.2, hsk⟩

section
variable (h : Holds sha512 prover len b t)
include h

theorem Holds.call (hl : 0 < len) {c : TreeCall} (hc : c.KeyLength len) :
    ∃ t', t.call sha512 prover c = .ok t' ∧ Holds sha512 prover len (TreeCall.bind b c) t' := by
  cases c with
  | insert new =>
    obtain ⟨t', ht', hh, -⟩ := h.insert hl hc
    exact ⟨t', by simp [VectorCommitmentTree.call, ht'], hh⟩
  | delete key =>
    obtain ⟨t', ht', hh⟩ := h.delete hl hc
    exact ⟨t', by simp [VectorCommitmentTree.call, ht'], hh⟩
  | commit recalc =>
    obtain ⟨-, hs, hsk⟩ := VectorCommitmentTree.commit_spec recalc h.coherent
    exact ⟨_, rfl, by rw [hsk]; exact h.shaped, hs.coherent, by rw [hsk]; exact h.binds⟩

/-! ### Every run -/

theorem Holds.run (hl : 0 < len) {calls : List TreeCall} (hcl : ∀ c ∈ calls, c.KeyLength len) :
    ∃ t', t.run sha512 prover calls = .ok t' ∧ Holds sha512 prover len (calls.foldl TreeCall.bind b) t' := by
  induction calls generalizing b t with
  | nil => exact ⟨t, rfl, h⟩
  | cons c calls ih =>
    obtain ⟨t₁, hcall, h₁⟩ := h.call hl (hcl c mem_cons_self)
    obtain ⟨t', hr, h'⟩ := ih h₁ fun d hd => hcl d (mem_cons_of_mem _ hd)
    refine ⟨t', ?_, h'⟩
    rw [run, foldlM_cons, hcall, ok_bind]
    exact hr

theorem Holds.lookup {k : Bytes} (hk : k.length = len) : lookup path (getFullPath k) (skel t.root) 0 = b k := by
  have hl : (getFullPath k).length = pathLength len := by rw [getFullPath_length, hk]
  refine ext fun a => ?_
  rw [h.binds k a]
  refine (lookup_eq_some h.shaped nil_prefix hl).trans (and_congr_right fun ha => ?_)
  exact ⟨fun he => getFullPath_inj ((h.shaped.key_length ha).trans hk.symm) he, fun he => by rw [path, he]⟩

theorem Holds.get (hl : 0 < len) {k : Bytes} (hk : k.length = len) : t.get k = .ok (match b k with
      | some a => .ok a.value | none => .error ("key not found: 0x" ++ hex k)) := by
  have hne : k ≠ [] := ne_nil_of_length_pos (hk ▸ hl)
  have hget : Node.get k t.root 0 = .ok ((b k).map (·.value)) := by
    rw [← h.lookup hk]
    exact Node.get_placed (Canonical.placed h.shaped) nil_prefix (h.shaped.apart hk)
  rw [VectorCommitmentTree.get, if_neg hne, hget]
  cases b k <;> rfl

theorem Holds.leaves_nodup : (t.getAllPreloadedLeaves.map (·.key)).Nodup := by
  have hnd := Canonical.nodup h.shaped
  rw [skel, Trie.leaves_map, List.map_map] at hnd
  have hcm : path ∘ LeafNode.toItem = getFullPath ∘ fun n : LeafNode => n.key := rfl
  rw [hcm, ← List.map_map] at hnd
  exact hnd.of_map

theorem Holds.mem_leaves (a : Item) : a ∈ t.getAllPreloadedLeaves.map (·.toItem) ↔ b a.key = some a := by
  rw [h.binds, skel, Trie.leaves_map]
  simp [getAllPreloadedLeaves]

end

/-- After every run the tree is the finite map of its bindings: `Get` returns the bound value or an error,
    and the leaves are the bindings, each once. -/
theorem run_is_finite_map (sha512 : Digest 64) (prover : InclusionProver) {len : Nat} (hlen : 0 < len)
    {calls : List TreeCall} (hcalls : ∀ c ∈ calls, c.KeyLength len) :
    ∃ t, VectorCommitmentTree.run sha512 prover .empty calls = .ok t ∧
      (∀ k, k.length = len → t.get k = .ok (match TreeCall.bindings calls k with
        | some a => .ok a.value
        | none => .error ("key not found: 0x" ++ VectorCommitmentTree.hex k))) ∧
      (t.getAllPreloadedLeaves.map (·.key)).Nodup ∧
      ∀ a : Item, a ∈ t.getAllPreloadedLeaves.map (·.toItem) ↔ TreeCall.bindings calls a.key = some a := by
  obtain ⟨t, hr, h⟩ := (holds_empty sha512 prover len).run hlen hcalls
  exact ⟨t, hr, fun k hk => h.get hlen hk, h.leaves_nodup, h.mem_leaves⟩

theorem run_is_finite_map_after_delete : ∃ t, VectorCommitmentTree.run (Digest.zeros 64) .transparent .empty
        [.insert ⟨[1], [7], [], 1⟩, .insert ⟨[2], [8], [], 1⟩, .delete [1]] = .ok t ∧
      t.get [2] = .ok (.ok [8]) ∧ t.get [1] = .ok (.error "key not found: 0x01") := by
  obtain ⟨t, hr, hget, -⟩ := run_is_finite_map (Digest.zeros 64) .transparent (by decide : 0 < 1)
    (by decide : ∀ c ∈ [TreeCall.insert ⟨[1], [7], [], 1⟩, .insert ⟨[2], [8], [], 1⟩, .delete [1]], c.KeyLength 1)
  exact ⟨t, hr, hget [2] rfl, hget [1] rfl⟩

/-! ### The root commitment -/

/-- An item without its size, which no commitment reads. -/
def Item.content (a : Item) : Item := { a with size := 0 }

theorem commitOf_content (t : Trie 64 (List Nibble) Item) :
    commitOf sha512 prover (t.map id content) = commitOf sha512 prover t := by
  induction t with
  | nil => rfl
  | leaf a => rfl
  | branch q ch ih =>
    simp only [Trie.map_branch, commitOf]
    congr 2
    funext i
    rw [ih i]
    cases ch i <;> rfl

theorem rootCommitOf_content (t : Trie 64 (List Nibble) Item) :
    rootCommitOf sha512 prover (t.map id content) = rootCommitOf sha512 prover t := by
  cases t with
  | nil => rfl
  | leaf a => rfl
  | branch q ch => exact commitOf_content (.branch q ch)

theorem Holds.rootCommit_eq {b' : Bytes → Option Item} {t' : VectorCommitmentTree}
    (h : Holds sha512 prover len b t) (h' : Holds sha512 prover len b' t')
    (hb : ∀ k, (b k).map content = (b' k).map content) :
    rootCommitOf sha512 prover (skel t.root) = rootCommitOf sha512 prover (skel t'.root) := by
  rw [← rootCommitOf_content, ← rootCommitOf_content (skel t'.root)]
  congr 1
  have hc : ∀ {d : Bytes → Option Item} {u : VectorCommitmentTree}, Holds sha512 prover len d u →
      Shaped len [] ((skel u.root).map id content) := fun hu => hu.shaped.map fun _ => rfl
  refine Canonical.ext (hc h) (hc h') fun c => ?_
  -- both trees hold `c` exactly if their bindings of its key have its content
  have mem : ∀ {d : Bytes → Option Item} {u : VectorCommitmentTree}, Holds sha512 prover len d u →
      (c ∈ ((skel u.root).map id content).leaves ↔ (d c.key).map content = some c) := by
    intro d u hu
    simp only [Trie.leaves_map, List.mem_map, map_eq_some_iff]
    refine exists_congr fun a => ?_
    constructor
    · rintro ⟨ha, rfl⟩
      exact ⟨(hu.binds _ _).mpr ⟨ha, rfl⟩, rfl⟩
    · rintro ⟨ha, rfl⟩
      exact ⟨((hu.binds _ _).mp ha).1, rfl⟩
  rw [mem h, mem h', hb]

/-- Two runs that leave the same map from keys to values and hash targets, with `Commit` called anywhere
    between, end in the same root commitment, and it is the one that `Commit(true)` recomputes. -/
theorem root_commitment_history_independent (sha512 : Digest 64) (prover : InclusionProver) {len : Nat}
    (hlen : 0 < len) {calls calls' : List TreeCall} (hcalls : ∀ c ∈ calls, c.KeyLength len)
    (hcalls' : ∀ c ∈ calls', c.KeyLength len)
    (hsame : ∀ k, (TreeCall.bindings calls k).map (fun a => (a.value, a.hashTarget)) =
      (TreeCall.bindings calls' k).map fun a => (a.value, a.hashTarget)) :
    ∃ t t', VectorCommitmentTree.run sha512 prover .empty calls = .ok t ∧
      VectorCommitmentTree.run sha512 prover .empty calls' = .ok t' ∧
      (t.commit sha512 prover false).1 = (t'.commit sha512 prover false).1 ∧
      (t.commit sha512 prover false).1 = (t.commit sha512 prover true).1 := by
  obtain ⟨t, hr, h⟩ := (holds_empty sha512 prover len).run hlen hcalls
  obtain ⟨t', hr', h'⟩ := (holds_empty sha512 prover len).run hlen hcalls'
  refine ⟨t, t', hr, hr', ?_, ?_⟩
  · rw [(t.commit_spec false h.coherent).1, (t'.commit_spec false h'.coherent).1]
    refine h.rootCommit_eq h' fun k => ?_
    have hk := hsame k
    cases hb : TreeCall.bindings calls k with
    | none =>
      rw [hb, map_none, eq_comm, map_eq_none_iff] at hk
      rw [show calls.foldl TreeCall.bind (fun _ => none) k = none from hb,
        show calls'.foldl TreeCall.bind (fun _ => none) k = none from hk]
    | some a =>
      rw [hb, map_some, eq_comm, map_eq_some_iff] at hk
      obtain ⟨a', hb', hc⟩ := hk
      rw [show calls.foldl TreeCall.bind (fun _ => none) k = some a from hb,
        show calls'.foldl TreeCall.bind (fun _ => none) k = some a' from hb', map_some, map_some]
      have hka := ((h.binds k a).mp hb).2
      have hka' := ((h'.binds k a').mp hb').2
      obtain ⟨hv, ht⟩ := Prod.mk.inj hc
      simp [content, hka, hka', hv, ht]
  · rw [(t.commit_spec false h.coherent).1, (t.commit_spec true h.coherent).1]

theorem root_commitment_other_order : ∃ t t', VectorCommitmentTree.run (Digest.zeros 64) .transparent .empty
        [.insert ⟨[1], [7], [], 1⟩, .commit false, .insert ⟨[2], [8], [], 1⟩] = .ok t ∧
      VectorCommitmentTree.run (Digest.zeros 64) .transparent .empty
        [.insert ⟨[2], [8], [], 5⟩, .insert ⟨[3], [9], [], 1⟩, .commit false, .delete [3], .insert ⟨[1], [7], [], 1⟩] =
          .ok t' ∧
      (t.commit (Digest.zeros 64) .transparent false).1 = (t'.commit (Digest.zeros 64) .transparent false).1 ∧
      (t.commit (Digest.zeros 64) .transparent false).1 = (t.commit (Digest.zeros 64) .transparent true).1 :=
  root_commitment_history_independent (Digest.zeros 64) .transparent (by decide : 0 < 1) (by decide) (by decide)
    fun k => by
      simp only [TreeCall.bindings, TreeCall.bind, foldl, update_apply]
      split_ifs <;> simp_all

end

end Quilibrium
