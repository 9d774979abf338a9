import Quilibrium.Theorems.ProofTree

/-! Commitments of the in-memory tree. A node holds no commitment or the right one for its subtree (`Coherent`). -/

namespace Quilibrium
open Radix Function Node

section
variable (sha512 : Digest 64) (prover : InclusionProver)

def entryOf (t : Trie 64 (List Nibble) Item) (out : Bytes) : Bytes :=
  match t with
  | .nil => List.replicate 64 0
  | .leaf _ => out
  | .branch q _ => hashBranch sha512 (q.map Fin.val) out

def commitOf : Trie 64 (List Nibble) Item → Bytes
  | .nil => []
  | .leaf a => a.hash sha512
  | .branch _ children =>
    prover.commitRaw ((List.finRange 64).flatMap fun i => entryOf sha512 (children i) (commitOf (children i))) 64

def rootCommitOf (t : Trie 64 (List Nibble) Item) : Bytes :=
  match t with
  | .nil => List.replicate 64 0
  | t => commitOf sha512 prover t

def Settled : Node → Prop
  | .nil => True
  | .leaf n => n.commitment = n.toItem.hash sha512
  | .branch n children =>
    n.commitment = commitOf sha512 prover (skel (.branch n children)) ∧ ∀ i, Settled (children i)

/-- A node that holds a commitment is settled, and so is every node below it. -/
def Coherent : Node → Prop
  | .nil => True
  | .leaf n => n.commitment ≠ [] → Settled sha512 prover (.leaf n)
  | .branch n children =>
    (n.commitment ≠ [] → Settled sha512 prover (.branch n children)) ∧ ∀ i, Coherent (children i)

end

section
variable {sha512 : Digest 64} {prover : InclusionProver}

theorem skel_branch (n : BranchNode) (children : Fin 64 → Node) :
    skel (.branch n children) = .branch n.pfx fun i => skel (children i) := rfl

@[simp] theorem vectorEntry_eq (t : Node) (out : Bytes) : vectorEntry sha512 t out = entryOf sha512 (skel t) out := by
  cases t <;> rfl

variable {t : Node} {children : Fin 64 → Node}

theorem Settled.commitment_eq (h : Settled sha512 prover t) : commitment t = commitOf sha512 prover (skel t) := by
  cases t with
  | nil => rfl
  | leaf n => exact h
  | branch n children => exact h.1

theorem Settled.coherent (h : Settled sha512 prover t) : Coherent sha512 prover t := by
  induction t with
  | nil => trivial
  | leaf n => exact fun _ => h
  | branch n children ih => exact ⟨fun _ => h, fun i => ih i (h.2 i)⟩

theorem getPolynomial_settled (h : ∀ i, Settled sha512 prover (children i)) :
    getPolynomial sha512 children = (List.finRange 64).flatMap fun i =>
      entryOf sha512 (skel (children i)) (commitOf sha512 prover (skel (children i))) := by
  unfold getPolynomial
  congr 1
  funext i
  rw [vectorEntry_eq, (h i).commitment_eq]

/-! ### `Commit` -/

theorem Node.commit_skel (recalc : Bool) (t : Node) : skel (commit sha512 prover recalc t).2 = skel t := by
  induction t with
  | nil => rfl
  | leaf n =>
    by_cases hn : n.commitment = [] ∨ recalc
    · simp [commit, LeafNode.commit, if_pos hn, skel, Trie.map_leaf]
    · simp [commit, LeafNode.commit, if_neg hn]
  | branch n children ih =>
    unfold commit
    split
    · simp [skel_branch, ih]
    · rfl

/-- `Commit` returns the commitment of the tree and leaves it settled. With `recalculate` it trusts nothing
    it finds; without, it relies on the commitments that are there. -/
theorem Node.commit_spec (recalc : Bool) (h : recalc = false → Coherent sha512 prover t) :
    (commit sha512 prover recalc t).1 = commitOf sha512 prover (skel t) ∧
      Settled sha512 prover (commit sha512 prover recalc t).2 := by
  induction t with
  | nil => exact ⟨rfl, trivial⟩
  | leaf n =>
    by_cases hn : n.commitment = [] ∨ recalc
    · simp only [commit, LeafNode.commit, if_pos hn]
      exact ⟨rfl, rfl⟩
    · simp only [commit, LeafNode.commit, if_neg hn]
      obtain ⟨hne, hr⟩ := not_or.mp hn
      have hs := h (Bool.eq_false_iff.mpr hr) hne
      exact ⟨hs, hs⟩
  | branch n children ih =>
    have ih := fun i => ih i fun hr => (h hr).2 i
    unfold commit
    split
    · have hdt : prover.commitRaw ((List.finRange 64).flatMap fun i =>
          vectorEntry sha512 (children i) (commit sha512 prover recalc (children i)).1) 64 =
          commitOf sha512 prover (skel (.branch n children)) := by
        simp [vectorEntry_eq, fun i => (ih i).1, skel_branch, commitOf]
      refine ⟨hdt, ?_, fun i => (ih i).2⟩
      rw [hdt]
      simp [skel_branch, commit_skel]
    · rename_i hn
      obtain ⟨hne, hr⟩ := not_or.mp hn
      have hs := (h (Bool.eq_false_iff.mpr hr)).1 hne
      exact ⟨hs.1, hs⟩

/-! ### `Insert` and `Delete` keep commitments coherent -/

theorem Coherent.cleared {n : BranchNode} (hn : n.commitment = [])
    (h : ∀ i, Coherent sha512 prover (children i)) : Coherent sha512 prover (.branch n children) :=
  ⟨fun hne => absurd hn hne, h⟩

theorem coherent_update (h : ∀ i, Coherent sha512 prover (children i)) (i : Nibble) (ht : Coherent sha512 prover t) (j : Nibble) :
    Coherent sha512 prover (update children i t j) :=
  update_slots (fun _ t => Coherent sha512 prover t) ht (fun m _ => h m) j

theorem coherent_fresh (new : Item) : Coherent sha512 prover (.leaf { new with commitment := [] }) :=
  fun h => absurd rfl h

theorem coherent_slots (ht : Coherent sha512 prover t) (i j : Nibble) (new : Item) (k : Nibble) : Coherent sha512 prover
      (update (update (fun _ => (Trie.nil : Node)) i t) j (.leaf { new with commitment := [] }) k) := by
  refine fork_slots (fun _ t => Coherent sha512 prover t) ht (coherent_fresh new) (fun _ _ _ => ?_) k
  trivial

variable {len : Nat} {p : List Nibble} {new : Item} {key : Bytes}

theorem Node.insert_coherent {t' : Node} {delta : Int} (hc : Shaped len p (skel t)) (hk : new.key.length = len)
    (hp : p <+: new.path) (ht : Coherent sha512 prover t)
    (h : insert new t (6 * p.length) = .ok (delta, t')) : Coherent sha512 prover t' := by
  have hl : new.path.length = pathLength len := by rw [Item.path, getFullPath_length, hk]
  induction t generalizing p delta t' with
  | nil =>
    cases h
    exact coherent_fresh new
  | leaf n =>
    by_cases hne : n.key = new.key
    · simp only [insert, if_pos hne] at h
      cases h
      exact fun h => absurd rfl h
    · have har := (hc.apart hk n.toItem (by simp [skel])).resolve_left hne
      obtain ⟨i, j, -, h', -⟩ := insert_leaf hc.1 hp har
      cases h'.symm.trans h
      exact Coherent.cleared rfl (coherent_slots ht i j new)
  | branch n children ih =>
    have hend := not_prefix_of_length (hl ▸ Canonical.branch_length hc)
    by_cases hq : n.pfx <+: new.path.drop p.length
    · obtain ⟨i, hpi, -, h'⟩ := insert_descend children hp hend hq
      obtain ⟨delta₁, inserted, hins, -⟩ := insert_skel (hc.2 i) hk hpi
      cases (h' hins).symm.trans h
      exact Coherent.cleared rfl (coherent_update ht.2 i (ih i (hc.2 i) hpi (ht.2 i) hins))
    · obtain ⟨i, j, -, h', -⟩ := insert_split children hp hend hq
      cases h'.symm.trans h
      -- the split branch keeps its commitment under a shorter prefix
      have hs : Coherent sha512 prover (.branch
          { n with pfx := n.pfx.drop ((shared n.pfx (new.path.drop p.length)).length + 1) } children) :=
        ⟨fun hne => ⟨(ht.1 hne).1, (ht.1 hne).2⟩, ht.2⟩
      exact Coherent.cleared rfl (coherent_slots hs i j new)

theorem Node.afterRemove_coherent (n : BranchNode) (size : Int)
    (h : ∀ i, Coherent sha512 prover (children i)) : Coherent sha512 prover (afterRemove n size children) := by
  unfold afterRemove
  split
  · trivial
  · rename_i i _
    split
    · rename_i c grandchildren hi
      have := h i
      rw [hi] at this
      exact Coherent.cleared rfl this.2
    · exact h i
  · exact Coherent.cleared rfl h

theorem Node.remove_coherent {t' : Node} {size : Int} {depth : Nat} (ht : Coherent sha512 prover t)
    (h : remove key t depth = .ok (size, t')) : Coherent sha512 prover t' := by
  induction t generalizing depth size t' with
  | nil =>
    cases h
    trivial
  | leaf n =>
    simp only [remove] at h
    split at h <;> cases h
    · trivial
    · exact ht
  | branch n children ih =>
    rcases remove_branch_inv h with ⟨-, -, rfl⟩ | ⟨i, child, -, -, hr, rfl⟩
    · exact ht
    · exact afterRemove_coherent _ _ (coherent_update ht.2 i (ih i (ht.2 i) hr))

end

end Quilibrium
