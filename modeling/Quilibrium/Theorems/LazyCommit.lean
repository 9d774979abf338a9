import Quilibrium.Theorems.LazyTree

/-! `Commit` and `GetAllLeaves` of the store-backed tree give what they give on the whole tree. -/

namespace Quilibrium
open Radix Function Except List Node

section
variable {sha3 : Digest 32} {sha512 : Digest 64} {prover : InclusionProver} {tree : TreeId} {keys : List Bytes}
  {recalculate : Bool} {db db' : Db} {len fuel : Nat} {q : List Nibble} {t : Node} {node : LazyNode}

theorem Placed.of_skel {t' : Node} (h : Placed len keys q t) (hsk : skel t' = skel t) : Placed len keys q t' :=
  ⟨by rw [hsk]; exact h.shaped, by rw [hsk]; exact h.keyed⟩

theorem Placed.length_le (h : Placed len keys q t) (ht : t ≠ .nil) : q.length ≤ pathLength len := by
  cases t with
  | nil => exact absurd rfl ht
  | leaf n =>
    have hl := (Canonical.mem h.shaped (a := n.toItem) (by simp [skel])).2
    exact hl ▸ h.shaped.1.length_le
  | branch b slots =>
    have hl := Canonical.branch_length h.shaped
    rw [length_append] at hl
    omega

theorem Mirrors.vectorEntry (hm : Mirrors node q t) (hnil : node = .nil → t = .nil) (out : Bytes) :
    lazyVectorEntry sha512 node out = Quilibrium.vectorEntry sha512 t out := by
  cases node with
  | nil => rw [hnil rfl]; rfl
  | leaf n => rw [hm]; rfl
  | branch n children =>
    obtain ⟨-, slots, rfl, -⟩ := hm
    rfl

/-! ### `Commit` -/

theorem lazyLeafCommit_lands (sha512 : Digest 64) (prover : InclusionProver) (recalculate : Bool) {n : LeafNode}
    (ht : Placed len keys q (.leaf n)) (hF : Filed sha3 tree db q (.leaf n)) (hne : n.path ≠ []) :
    ∃ n' db', lazyLeafCommit sha512 tree recalculate (getFullPath n.key) n db =
        ((commit sha512 prover recalculate (.leaf n)).1, n', db') ∧
      Lands sha3 tree keys q db db' (.leaf n') (commit sha512 prover recalculate (.leaf n)).2 := by
  by_cases hn : n.commitment = [] ∨ recalculate
  · simp only [lazyLeafCommit, if_pos hn, commit, LeafNode.commit]
    exact ⟨_, _, rfl, rfl, filed_put_leaf (n := { n with commitment := n.toItem.hash sha512 }) hF.2.2 ht.shaped.1 hne
      prefix_rfl, confined_leaf _ ht.leaf_mem ht.shaped.1 ht.shaped.1⟩
  · simp only [lazyLeafCommit, if_neg hn, commit, LeafNode.commit]
    exact ⟨n, db, rfl, rfl, hF, .refl⟩

def committedSlots (sha512 : Digest 64) (prover : InclusionProver) (recalculate : Bool) (slots : Fin 64 → Node)
    (done : List Nibble) (i : Nibble) : Node :=
  if i ∈ done then (Node.commit sha512 prover recalculate (slots i)).2 else slots i

theorem skel_committedSlots (slots : Fin 64 → Node) (done : List Nibble) (i : Nibble) :
    skel (committedSlots sha512 prover recalculate slots done i) = skel (slots i) := by
  unfold committedSlots
  split
  · exact commit_skel _ _
  · rfl

variable {i : Nibble} {p done : List Nibble} {slots : Fin 64 → Node} {children : Fin 64 → LazyNode} {data : Bytes}

theorem committedSlots_of_ne (slots : Fin 64 → Node) (done : List Nibble) {m : Nibble} (h : m ≠ i) :
    committedSlots sha512 prover recalculate slots (done ++ [i]) m =
      committedSlots sha512 prover recalculate slots done m := by
  simp [committedSlots, h]

theorem committedSlots_self (slots : Fin 64 → Node) (done : List Nibble) (i : Nibble) :
    committedSlots sha512 prover recalculate slots (done ++ [i]) i =
      (commit sha512 prover recalculate (slots i)).2 := by
  simp [committedSlots]

/-- The loop of `commitNode` below full prefix `p`, when the slots in `done` are committed. -/
structure CommitLoop (sha3 : Digest 32) (sha512 : Digest 64) (prover : InclusionProver) (tree : TreeId)
    (keys : List Bytes) (recalculate : Bool) (p : List Nibble) (slots : Fin 64 → Node) (db : Db) (done : List Nibble)
    (data : Bytes) (children : Fin 64 → LazyNode) (db' : Db) : Prop where
  data_eq : data = done.flatMap fun i =>
    vectorEntry sha512 (slots i) (Node.commit sha512 prover recalculate (slots i)).1
  mirrors : ∀ i, Mirrors (children i) (p ++ [i]) (committedSlots sha512 prover recalculate slots done i)
  filed : ∀ i, Filed sha3 tree db' (p ++ [i]) (committedSlots sha512 prover recalculate slots done i)
  confined : Confined sha3 tree keys p db db'

theorem commitLoop_init
    (hch : ∀ i, Mirrors (children i) (p ++ [i]) (slots i)) (hsl : ∀ i, Filed sha3 tree db (p ++ [i]) (slots i)) :
    CommitLoop sha3 sha512 prover tree keys recalculate p slots db [] [] children db where
  data_eq := rfl
  mirrors i := by simpa [committedSlots] using hch i
  filed i := by simpa [committedSlots] using hsl i
  confined := .refl

section
variable (h : CommitLoop sha3 sha512 prover tree keys recalculate p slots db done data children db')
include h

theorem CommitLoop.skip (hnil : slots i = .nil) : CommitLoop sha3 sha512 prover tree keys recalculate p slots db (done ++ [i])
      (data ++ lazyVectorEntry sha512 .nil []) children db' := by
  have hsm : committedSlots sha512 prover recalculate slots (done ++ [i]) =
      committedSlots sha512 prover recalculate slots done := by
    funext m
    by_cases hm : m = i
    · subst hm
      rw [committedSlots_self, committedSlots, hnil]
      split <;> rfl
    · exact committedSlots_of_ne slots done hm
  refine ⟨?_, hsm ▸ h.mirrors, hsm ▸ h.filed, h.confined⟩
  rw [h.data_eq, flatMap_append, flatMap_singleton, hnil]
  rfl

theorem CommitLoop.commit (hcf : CollisionFree sha3 keys) {db'' : Db} {child committed : LazyNode}
    (hsl : ∀ m, Placed len keys (p ++ [m]) (slots m)) (hm : Mirrors child (p ++ [i]) (slots i)) (hch : child ≠ .nil)
    (hln : Lands sha3 tree keys (p ++ [i]) db' db'' committed (commit sha512 prover recalculate (slots i)).2) :
    CommitLoop sha3 sha512 prover tree keys recalculate p slots db (done ++ [i])
      (data ++ lazyVectorEntry sha512 child (commit sha512 prover recalculate (slots i)).1)
      (if (children i).isNil then children else update children i committed) db'' := by
  refine ⟨?_, fun m => ?_, fun m => ?_, h.confined.trans (hln.confined.mono (prefix_append _ _))⟩
  · rw [h.data_eq, flatMap_append, flatMap_singleton, hm.vectorEntry fun hnil => absurd hnil hch]
  · by_cases hmi : m = i
    · subst hmi
      rw [committedSlots_self]
      by_cases hnil : (children m).isNil = true
      · rw [if_pos hnil, Trie.isNil_iff.mp hnil]
        trivial
      · rw [if_neg hnil, update_self]
        exact hln.mirrors
    · rw [committedSlots_of_ne slots done hmi]
      have hot : (if (children i).isNil then children else update children i committed) m = children m := by
        split
        · rfl
        · exact update_of_ne hmi _ _
      rw [hot]
      exact h.mirrors m
  · by_cases hmi : m = i
    · subst hmi
      rw [committedSlots_self]
      exact hln.filed
    · rw [committedSlots_of_ne slots done hmi]
      exact (h.filed m).other_slot hcf hmi ((hsl m).of_skel (skel_committedSlots slots done m)) hln.confined

theorem CommitLoop.round (hcf : CollisionFree sha3 keys) (hty : Typed tree keys db)
    {commitNode : LazyNode → Db → Except Fault (Bytes × LazyNode × Db)} (hi : i ∉ done)
    (hsl : ∀ m, Placed len keys (p ++ [m]) (slots m))
    (hcom : ∀ child db₁, Typed tree keys db₁ → Filed sha3 tree db₁ (p ++ [i]) (slots i) →
      Mirrors child (p ++ [i]) (slots i) → child ≠ .nil → ∃ node' db₂,
        commitNode child db₁ = .ok ((Node.commit sha512 prover recalculate (slots i)).1, node', db₂) ∧
        Lands sha3 tree keys (p ++ [i]) db₁ db₂ node' (Node.commit sha512 prover recalculate (slots i)).2) :
    ∃ s, commitSlot sha512 tree p commitNode (data, children, db') i = .ok s ∧
      CommitLoop sha3 sha512 prover tree keys recalculate p slots db (done ++ [i]) s.1 s.2.1 s.2.2 := by
  have hst : committedSlots sha512 prover recalculate slots done i = slots i := if_neg hi
  have hFi := h.filed i
  have hmi := h.mirrors i
  rw [hst] at hFi hmi
  have hty' := h.confined.typed hty
  obtain ⟨child, hld, hmc, hnil⟩ := hFi.loadSlot hty'.indexed (by simp) hmi
  cases hc : child.isNil with
  | true =>
    obtain rfl := Trie.isNil_iff.mp hc
    refine ⟨(_, _, _), ?_, h.skip (hnil rfl)⟩
    simp [commitSlot, hld, hc]
  | false =>
    have hch := Trie.isNil_eq_false.mp hc
    obtain ⟨committed, db₂, hr, hln⟩ := hcom child db' hty' hFi hmc hch
    refine ⟨(_, if (children i).isNil then children else update children i committed, _), ?_,
      h.commit hcf hsl hmc hch hln⟩
    simp [commitSlot, hld, hc, hr]

end

theorem trusted_iff {commitment : Bytes} : commitment ≠ [] ∧ !recalculate ↔ ¬(commitment = [] ∨ recalculate = true) := by
  cases recalculate <;> simp

theorem not_mem_done {done rest : List Nibble} {i : Nibble} (h : finRange 64 = done ++ i :: rest) : i ∉ done := fun hi => by
  have hnd := nodup_finRange 64
  rw [h, nodup_append] at hnd
  exact hnd.2.2 i hi i mem_cons_self rfl

theorem LazyNode.commitNode_lands (sha512 : Digest 64) (prover : InclusionProver) (recalculate : Bool)
    (hcf : CollisionFree sha3 keys) (hl : 0 < len) (ht : Placed len keys q t)
    (hty : Typed tree keys db) (hF : Filed sha3 tree db q t) (hfl : pathLength len < fuel + q.length)
    (hm : Mirrors node q t) (hnd : node ≠ .nil) :
    ∃ node' db', LazyNode.commitNode sha3 sha512 prover tree recalculate fuel node db =
        .ok ((Node.commit sha512 prover recalculate t).1, node', db') ∧
      Lands sha3 tree keys q db db' node' (Node.commit sha512 prover recalculate t).2 ∧ node' ≠ .nil := by
  induction t generalizing q fuel node db with
  | nil => exact absurd hm.nil_inv hnd
  | leaf n =>
    obtain ⟨fuel, rfl⟩ := fuel_succ hfl (ht.length_le (by rintro ⟨⟩))
    obtain rfl := hm.leaf_inv hnd
    have hne : n.path ≠ [] := by
      refine ne_nil_of_length_pos ?_
      rw [(Canonical.mem ht.shaped (a := n.toItem) (by simp [skel])).2, pathLength]
      omega
    obtain ⟨n', db', hc, hln⟩ := lazyLeafCommit_lands sha512 prover recalculate ht hF hne
    exact ⟨.leaf n', db', by simp [LazyNode.commitNode, hc], hln, by rintro ⟨⟩⟩
  | branch b slots ih =>
    obtain ⟨fuel, rfl⟩ := fuel_succ hfl (ht.length_le (by rintro ⟨⟩))
    obtain ⟨n, children, rfl, rfl, hfu, hch⟩ := hm.branch_inv hnd
    by_cases hn : n.commitment ≠ [] ∧ !recalculate
    · have hn' : ¬(n.stored.commitment = [] ∨ recalculate = true) := trusted_iff.mp hn
      simp only [LazyNode.commitNode, if_pos hn, Node.commit, if_neg hn']
      exact ⟨_, db, rfl, ⟨⟨hfu, slots, rfl, hch⟩, hF, .refl⟩, by rintro ⟨⟩⟩
    · have hn' : n.stored.commitment = [] ∨ recalculate = true := not_not.mp (mt trusted_iff.mpr hn)
      simp only [LazyNode.commitNode, if_neg hn, Node.commit, if_pos hn']
      rw [hfu] at hch ⊢
      have hin : CommitLoop sha3 sha512 prover tree keys recalculate (q ++ n.pfx) slots db [] [] children db :=
        commitLoop_init hch hF.2
      obtain ⟨⟨data, children', db'⟩, hlp, hdt, hch', hsl', hcn⟩ := foldlM_ok_of_inv
        (l := finRange 64) (b := ([], children, db))
        (f := commitSlot sha512 tree (q ++ n.pfx) (commitNode sha3 sha512 prover tree recalculate fuel))
        (fun done s => CommitLoop sha3 sha512 prover tree keys recalculate (q ++ n.pfx) slots db done s.1 s.2.1 s.2.2)
        hin fun done i rest s hsp hinv => by
          have hi : i ∉ done := not_mem_done hsp
          refine hinv.round hcf hty hi ht.slot fun child db₁ hty₁ hF₁ hm₁ hcl => ?_
          obtain ⟨node', db₂, hr, hln, -⟩ := ih i (ht.slot i) hty₁ hF₁ (fuel_slot hfl) hm₁ hcl
          exact ⟨node', db₂, hr, hln⟩
      have hall : ∀ i, committedSlots sha512 prover recalculate slots (finRange 64) i =
          (Node.commit sha512 prover recalculate (slots i)).2 := fun i => if_pos (mem_finRange i)
      simp only [hall] at hch' hsl'
      simp only [hlp, ok_bind, ← hdt]
      set n' : LazyBranchNode := { n with commitment := prover.commitRaw data 64, fullPrefix := q ++ n.pfx }
      have ht' : Placed len keys q (.branch n'.stored fun i => (Node.commit sha512 prover recalculate (slots i)).2) := by
        refine ht.of_skel ?_
        simp only [skel_branch, commit_skel]
        rfl
      refine ⟨_, _, rfl, ⟨⟨rfl, _, rfl, hch'⟩, ?_, ?_⟩, by rintro ⟨⟩⟩
      · rw [insertNode_branch, n'.record_eq rfl]
        refine filed_put_branch hcf ht' n'.stored_size_nonneg (fun e he hne hget => ?_) hsl'
        by_cases hp : q ++ n.pfx <+: e
        · exact hp
        · rw [hcn.frame _ (not_within_path hp)] at hget
          exact hF.1.2.2.2 e he hne hget
      · exact (hcn.mono (prefix_append _ _)).trans (confined_branch hcf _ ht.spelled (prefix_append _ _))

theorem lazyLeafCommit_root (sha512 : Digest 64) (prover : InclusionProver) (recalculate : Bool) {n : LeafNode}
    (ht : Placed len keys [] (.leaf n)) (hF : Filed sha3 tree db [] (.leaf n)) :
    ∃ n' db', lazyLeafCommit sha512 tree recalculate [] n db =
        ((commit sha512 prover recalculate (.leaf n)).1, n', db') ∧
      Lands sha3 tree keys [] db db' (.leaf n') (commit sha512 prover recalculate (.leaf n)).2 := by
  by_cases hn : n.commitment = [] ∨ recalculate
  · simp only [lazyLeafCommit, if_pos hn, commit, LeafNode.commit]
    refine ⟨_, _, rfl, rfl, ?_, confined_leaf _ ht.leaf_mem nil_prefix nil_prefix⟩
    obtain ⟨-, ⟨e, he, hne, hent⟩, hall⟩ := hF
    refine ⟨?_, ⟨e, he, hne, ?_⟩, fun e v he hne hget => ?_⟩
    · rw [insertNode_leaf, get_file_node, if_pos rfl]
    · rw [insertNode_leaf, get_file_path, if_neg hne]
      exact hent
    · rw [insertNode_leaf, get_file_path, if_neg hne] at hget
      exact hall e v he hne hget
  · simp only [lazyLeafCommit, if_neg hn, commit, LeafNode.commit]
    exact ⟨n, db, rfl, rfl, hF, .refl⟩

theorem Represents.commit {t : LazyVectorCommitmentTree} {root : Node} (h : Represents sha3 len keys t db root)
    (hcf : CollisionFree sha3 keys) (hl : 0 < len) (hfl : pathLength len < fuel) (sha512 : Digest 64)
    (prover : InclusionProver) (recalculate : Bool) : ∃ node db', t.commit sha3 sha512 prover fuel db recalculate =
        .ok ((VectorCommitmentTree.commit sha512 prover ⟨root⟩ recalculate).1, { t with root := node }, db') ∧
      Represents sha3 len keys { t with root := node } db'
        (VectorCommitmentTree.commit sha512 prover ⟨root⟩ recalculate).2.root := by
  have hpla : Placed len keys [] (Node.commit sha512 prover recalculate root).2 :=
    h.placed.of_skel (commit_skel recalculate root)
  cases root with
  | nil =>
    refine ⟨t.root, db, ?_, h⟩
    rw [LazyVectorCommitmentTree.commit, if_pos (Trie.isNil_iff.mpr h.mirrors.nil_inv)]
    rfl
  | leaf n =>
    have hr := h.mirrors.leaf_inv fun hn => by cases h.loaded hn
    obtain ⟨n', db', hc, hln⟩ := lazyLeafCommit_root sha512 prover recalculate h.placed h.filed
    refine ⟨.leaf n', _, ?_, hln.represents h.typed hpla (by rintro ⟨⟩) t.coveredPrefix⟩
    rw [LazyVectorCommitmentTree.commit, hr]
    simp only [Trie.isNil_leaf, Bool.false_eq_true, if_false, LazyNode.commit, hc, ok_bind]
    rfl
  | branch b slots =>
    obtain ⟨n, children, hr, -, -, -⟩ := h.mirrors.branch_inv fun hn => by cases h.loaded hn
    obtain ⟨node, db', hc, hln, hnd⟩ := LazyNode.commitNode_lands sha512 prover recalculate hcf hl h.placed
      h.typed h.filed hfl h.mirrors fun hn => by cases h.loaded hn
    refine ⟨node, _, ?_, hln.represents h.typed hpla hnd t.coveredPrefix⟩
    rw [hr] at hc
    rw [LazyVectorCommitmentTree.commit, hr]
    simp only [Trie.isNil_branch, Bool.false_eq_true, if_false, LazyNode.commit, hc, ok_bind]
    rfl

/-! ### `GetAllLeaves` -/

theorem getAllLeaves_eq (hidx : Indexed db tree) (ht : Placed len keys q t) (hF : Filed sha3 tree db q t)
    (hq : q.length ≤ pathLength len) (hfl : pathLength len < fuel + q.length) (hm : Mirrors node q t)
    (hnil : node = .nil → t = .nil) : getAllLeaves db tree fuel node = .ok t.leaves := by
  induction t generalizing q fuel node with
  | nil =>
    obtain ⟨fuel, rfl⟩ := fuel_succ hfl hq
    rw [hm.nil_inv]
    rfl
  | leaf n =>
    obtain ⟨fuel, rfl⟩ := fuel_succ hfl hq
    rw [hm.leaf_inv fun h => by cases hnil h]
    rfl
  | branch b slots ih =>
    obtain ⟨fuel, rfl⟩ := fuel_succ hfl hq
    obtain ⟨n, children, rfl, rfl, hfu, hch⟩ := hm.branch_inv fun h => by cases hnil h
    have hl := Canonical.branch_length ht.shaped
    rw [getAllLeaves, foldlM_append_ok (g := fun i => (slots i).leaves) fun i _ leaves => ?_]
    · rfl
    · have hFi := hF.2 i
      have hsl : (q ++ n.stored.pfx ++ [i]).length ≤ pathLength len := by
        rw [length_append, length_singleton]
        exact hl
      obtain ⟨child, hld, hmc, hnl⟩ := hFi.loadSlot hidx (by simp) (hfu ▸ hch i)
      have hld' : loadSlot db tree (n.fullPrefix ++ [i]) (children i) = .ok child := hfu ▸ hld
      rw [hld', ok_bind, ih i (ht.slot i) hFi hsl (fuel_slot hfl) hmc hnl, ok_bind]

theorem Represents.leaves {t : LazyVectorCommitmentTree} {root : Node} (h : Represents sha3 len keys t db root)
    (hfl : pathLength len < fuel) : getAllLeaves db t.tree fuel t.root = .ok root.leaves :=
  getAllLeaves_eq h.typed.indexed h.placed h.filed (Nat.zero_le _) hfl h.mirrors h.loaded

end

end Quilibrium
