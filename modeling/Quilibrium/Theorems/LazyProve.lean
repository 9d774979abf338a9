import Quilibrium.Theorems.LazyRun
import Quilibrium.Theorems.Prove

/-! Proofs of the store-backed tree: `Prove` goes on in memory only, so it ends at the first branch whose next child is
    not loaded. -/

namespace Quilibrium
open Radix Except List LazyVectorCommitmentTree LazyNode

/-- The node at slot path `q` is the tree `t` there, with all of its nodes. -/
def Loaded : LazyNode → List Nibble → Node → Prop
  | .nil, _, t => t = .nil
  | .leaf n, _, t => t = .leaf n
  | .branch n children, q, t =>
    n.fullPrefix = q ++ n.pfx ∧
      ∃ slots, t = .branch n.stored slots ∧ ∀ i, Loaded (children i) (n.fullPrefix ++ [i]) (slots i)

/-- Every branch on the path has the child loaded that the path continues in. -/
def LazyNode.pathLoaded : LazyNode → List Nibble → Bool
  | .nil, _ => false
  | .leaf _, _ => true
  | .branch n children, path =>
    match path.drop n.pfx.length with
    | [] => false
    | i :: rest => LazyNode.pathLoaded (children i) rest

/-- The tree at slot path `q` is in the store: a lookup of a slot of one of its branches finds the node there, if
    there is one. -/
def Stored (db : Db) (tree : TreeId) (q : List Nibble) (t : Node) : Prop :=
  ∀ p slots, BranchAt t q p slots → ∀ i, getNodeByPath db tree (p ++ [i]) =
    if (slots i).isNil then .error .notFound else .ok (unloaded (p ++ [i]) (slots i))

section
variable (sha512 : Digest 64) (prover : InclusionProver)

/-- Every node of the subtree holds its commitment, which is not empty. -/
def Committed : Node → Prop
  | .nil => True
  | .leaf n => n.commitment = n.toItem.hash sha512
  | .branch n children =>
    (n.commitment = commitOf sha512 prover (skel (.branch n children)) ∧ n.commitment ≠ []) ∧
      ∀ i, Committed (children i)

/-- The walk along a path of the tree `t`, as far as the tree is loaded in `node`. -/
def walkOf : LazyNode → Trie 64 (List Nibble) Item → List Nibble → Walk
  | .leaf _, .leaf a, _ => .leaf (a.hash sha512) a.target
  | .branch _ children, .branch q slots, path =>
    match path.drop q.length with
    | [] => .empty
    | i :: rest => .branch (polynomialOf sha512 prover slots) (commitOf sha512 prover (.branch q slots))
        (entryOf sha512 (slots i) (commitOf sha512 prover (slots i))) (q ++ [i]) (walkOf (children i) (slots i) rest)
  | _, _, _ => .empty

end

section
variable {sha3 : Digest 32} {sha512 : Digest 64} {prover : InclusionProver} {tree : TreeId} {db : Db}
  {len fuel commitFuel : Nat} {q : List Nibble} {t : Node} {node : LazyNode} {key : Bytes} {a : Item}

theorem Committed.settled (h : Committed sha512 prover t) : Settled sha512 prover t := by
  induction t with
  | nil => trivial
  | leaf n => exact h
  | branch n ch ih => exact ⟨h.1.1, fun i => ih i (h.2 i)⟩

theorem Settled.committed (hprv : ∀ data, data.length = 64 * 64 → prover.commitRaw data 64 ≠ [])
    (h : Settled sha512 prover t) : Committed sha512 prover t := by
  induction t with
  | nil => trivial
  | leaf n => exact h
  | branch n ch ih =>
    refine ⟨⟨h.1, ?_⟩, fun i => ih i (h.2 i)⟩
    rw [h.1]
    exact hprv _ (polynomialOf_length fun i => skel (ch i))

theorem Loaded.mirrors (h : Loaded node q t) : Mirrors node q t := by
  induction node generalizing q t with
  | nil => trivial
  | leaf n => exact h
  | branch n ch ih =>
    obtain ⟨hfl, slots, rfl, hch⟩ := h
    exact ⟨hfl, slots, rfl, fun i => ih i (hch i)⟩

theorem Stored.slot {b : BranchNode} {slots : Fin 64 → Node} (h : Stored db tree q (.branch b slots)) (i : Nibble) :
    Stored db tree (q ++ b.pfx ++ [i]) (slots i) :=
  fun p slots' hb => h p slots' (.inSlot i hb)

/-! ### Polynomials -/

theorem Mirrors.entry (hm : Mirrors node q t) (hnil : node = .nil → t = .nil) (ht : Settled sha512 prover t) :
    lazyVectorEntry sha512 node (commitment node) = entryOf sha512 (skel t) (commitOf sha512 prover (skel t)) := by
  rw [hm.vectorEntry hnil, vectorEntry_eq, ← ht.commitment_eq]
  cases node with
  | nil => rw [hnil rfl]; rfl
  | leaf n => rw [hm]; rfl
  | branch n ch =>
    obtain ⟨-, slots, rfl, -⟩ := hm
    rfl

theorem lazyGetPolynomial_eq {n : LazyBranchNode} {ch : Fin 64 → LazyNode} {slots : Fin 64 → Node}
    (hst : Stored db tree q (.branch n.stored slots)) (hfl : n.fullPrefix = q ++ n.pfx)
    (hm : ∀ i, Mirrors (ch i) (n.fullPrefix ++ [i]) (slots i)) (ht : ∀ i, Settled sha512 prover (slots i)) :
    lazyGetPolynomial sha512 db tree n ch = .ok (polynomialOf sha512 prover fun i => skel (slots i)) := by
  refine (foldlM_append_ok (fun i _ data => ?_) []).trans (by rw [nil_append]; rfl)
  have hlk : getNodeByPath db tree (q ++ n.pfx ++ [i]) = _ := hst _ slots (.here n.stored slots q) i
  by_cases hnil : (ch i).isNil
  · have hld : loadSlot db tree (n.fullPrefix ++ [i]) (ch i) = .ok (unloaded (n.fullPrefix ++ [i]) (slots i)) := by
      rw [loadSlot, if_pos hnil, hfl]
      by_cases hs : (slots i).isNil
      · rw [if_pos hs] at hlk
        rw [loadNode_of_notFound hlk, Trie.isNil_iff.mp hs]
        rfl
      · rw [if_neg hs] at hlk
        exact loadNode_of_ok hlk
    rw [hld, ok_bind, ← (ht i).commitment_eq]
    dsimp only
    cases slots i <;> rfl
  · rw [loadSlot, if_neg hnil, ok_bind, (hm i).entry (fun h => by simp [h] at hnil) (ht i)]

/-! ### Walks -/

theorem lazyLeafCommit_settled {n : LeafNode} (h : Settled sha512 prover (.leaf n)) (path : List Nibble) :
    lazyLeafCommit sha512 tree false path n db = (n.toItem.hash sha512, n, db) := by
  have hn : ¬(n.commitment = [] ∨ false = true) := by
    rintro (hnil | hf)
    · have hl : (n.toItem.hash sha512).length = 64 := n.toItem.hash_length
      rw [← show n.commitment = n.toItem.hash sha512 from h, hnil] at hl
      cases hl
    · cases hf
  rw [lazyLeafCommit, if_neg hn, show n.commitment = n.toItem.hash sha512 from h]

/-- `Prove` of a key in a committed tree walks along its path as far as that is loaded. It changes neither
    the nodes in memory nor the store. -/
theorem LazyNode.prove_eq (hc : Shaped len q (skel t)) (ht : Committed sha512 prover t) (hst : Stored db tree q t)
    (hm : Mirrors node q t) (hp : q <+: getFullPath key) (ha : a ∈ (skel t).leaves) (hak : a.key = key)
    (hfu : (getFullPath key).length < q.length + fuel) :
    prove sha3 sha512 prover tree (commitFuel + 1) key fuel node (6 * q.length) db =
      .ok (walkOf sha512 prover node (skel t) ((getFullPath key).drop q.length), node, db) := by
  induction fuel generalizing q t node with
  | zero => exact absurd hp.length_le (by omega)
  | succ fuel ih =>
    cases node with
    | nil => rfl
    | leaf n =>
      rw [show t = .leaf n from hm] at ha ht ⊢
      obtain rfl : a = n.toItem := by simpa [skel] using ha
      simp only [prove, lazyLeafCommit_settled ht.settled, show n.key = key from hak, if_true]
      rfl
    | branch n ch =>
      obtain ⟨hfl, slots, rfl, hch⟩ := hm
      obtain ⟨j, hi, hpj⟩ : ∃ j, _ ∧ q ++ n.pfx ++ [j] <+: _ := hc.slot_of_key ha hak
      obtain ⟨hnn, hnib⟩ := follows_slot hp hpj
      have hrs := ih (hc.2 j) (ht.2 j) (hst.slot j) (hfl ▸ hch j) hpj hi (by rw [length_slot]; omega)
      rw [← depth_slot] at hrs
      have hcom : n.commitment = commitOf sha512 prover (skel (.branch n.stored slots)) := ht.1.1
      have hne : commitOf sha512 prover (.branch n.pfx fun i => skel (slots i)) ≠ [] := hcom ▸ ht.1.2
      have hpl := lazyGetPolynomial_eq hst hfl hch fun i => (ht.2 i).settled
      have hpfx : n.stored.pfx = n.pfx := rfl
      rw [hpfx] at hrs
      simp [prove, hnn, hnib, commitNode, hne, hpl, evaluation_polynomialOf, hrs, Function.update_eq_self, hcom,
        skel_branch, hpfx, walkOf, drop_slot hpj]

theorem walkOf_commits_ne_nil (hm : Mirrors node q t) (hnd : node ≠ .nil) (hc : Shaped len q (skel t))
    (ha : a ∈ (skel t).leaves) (hak : a.key = key) :
    (walkOf sha512 prover node (skel t) ((getFullPath key).drop q.length)).commits ≠ [] := by
  cases node with
  | nil => exact absurd rfl hnd
  | leaf n =>
    rw [show t = .leaf n from hm]
    exact cons_ne_nil _ _
  | branch n ch =>
    obtain ⟨-, slots, rfl, -⟩ := hm
    obtain ⟨i, -, hpi⟩ := hc.slot_of_key ha hak
    rw [skel_branch, walkOf, drop_slot hpi]
    exact cons_ne_nil _ _

theorem walkOf_indices (node : LazyNode) (s : Trie 64 (List Nibble) Item) (path : List Nibble) :
    (walkOf sha512 prover node s path).subProof.paths.mapM lastIndex =
      .ok (walkOf sha512 prover node s path).indices := by
  induction node generalizing s path with
  | nil => cases s <;> rfl
  | leaf n => cases s <;> rfl
  | branch n ch ih =>
    cases s with
    | nil => rfl
    | leaf a => rfl
    | branch q slots =>
      rw [walkOf]
      split
      · rfl
      · exact Walk.mapM_lastIndex_branch (ih _ _ _)

/-! ### What is loaded -/

/-- Against a node that has the path loaded, another one gives the same walk if it has it loaded too, and
    a shorter one if not. -/
theorem walkOf_compare (sha512 : Digest 64) (prover : InclusionProver) {node₁ node₂ : LazyNode} {path : List Nibble}
    (h₁ : Mirrors node₁ q t) (h₂ : Mirrors node₂ q t) (hl : node₂.pathLoaded path = true) :
    if node₁.pathLoaded path then walkOf sha512 prover node₁ (skel t) path = walkOf sha512 prover node₂ (skel t) path
    else (walkOf sha512 prover node₁ (skel t) path).commits.length <
      (walkOf sha512 prover node₂ (skel t) path).commits.length := by
  induction t generalizing q node₁ node₂ path with
  | nil =>
    rw [h₂.nil_inv] at hl
    cases hl
  | leaf n =>
    rw [h₂.leaf_inv (by rintro rfl; cases hl)]
    by_cases hnil : node₁ = .nil
    · rw [hnil]
      exact Nat.zero_lt_one
    · rw [h₁.leaf_inv hnil]
      rfl
  | branch b slots ih =>
    obtain ⟨n₂, ch₂, rfl, rfl, hf₂, hc₂⟩ := h₂.branch_inv (by rintro rfl; cases hl)
    rw [pathLoaded] at hl
    split at hl
    · cases hl
    next i rest hdp =>
      have hdp' : path.drop n₂.stored.pfx.length = i :: rest := hdp
      by_cases hnil : node₁ = .nil
      · rw [hnil, skel_branch, walkOf, hdp']
        exact Nat.succ_pos _
      · obtain ⟨n₁, ch₁, rfl, hb, hf₁, hc₁⟩ := h₁.branch_inv hnil
        have hpfx : n₁.stored.pfx = n₂.stored.pfx := by rw [hb]
        change n₁.pfx = n₂.pfx at hpfx
        have hfl : n₁.fullPrefix = n₂.fullPrefix := by rw [hf₁, hf₂, hpfx]
        have hrs := ih i (hfl ▸ hc₁ i) (hc₂ i) hl
        rw [skel_branch, pathLoaded, hpfx, hdp, walkOf, walkOf, hdp']
        by_cases hl₁ : pathLoaded (ch₁ i) rest = true
        · rw [if_pos hl₁] at hrs
          rw [if_pos hl₁]
          simp [hrs]
        · rw [if_neg hl₁] at hrs
          rw [if_neg hl₁]
          exact Nat.succ_lt_succ hrs

theorem walkOf_subProof_eq_iff {node₁ node₂ : LazyNode} {path : List Nibble} (h₁ : Mirrors node₁ q t)
    (h₂ : Mirrors node₂ q t) (hl : node₂.pathLoaded path = true) :
    (walkOf sha512 prover node₁ (skel t) path).subProof = (walkOf sha512 prover node₂ (skel t) path).subProof ↔
      node₁.pathLoaded path = true := by
  have hc := walkOf_compare sha512 prover h₁ h₂ hl
  by_cases hl₁ : node₁.pathLoaded path = true
  · rw [if_pos hl₁] at hc
    exact iff_of_true (congrArg Walk.subProof hc) hl₁
  · rw [if_neg hl₁] at hc
    refine iff_of_false (fun heq => ?_) hl₁
    have hlen := congrArg (fun p : TraversalSubProof => p.commits.length) heq
    exact absurd hlen (Nat.ne_of_lt hc)

theorem Loaded.pathLoaded (h : Loaded node q t) (hc : Shaped len q (skel t)) (ha : a ∈ (skel t).leaves)
    (hak : a.key = key) : node.pathLoaded ((getFullPath key).drop q.length) = true := by
  induction t generalizing q node with
  | nil => simp [skel] at ha
  | leaf n => rw [h.mirrors.leaf_inv (by rintro rfl; cases h)]; rfl
  | branch b slots ih =>
    obtain ⟨n, ch, rfl, rfl, hfl, -⟩ := h.mirrors.branch_inv (by rintro rfl; cases h)
    obtain ⟨-, slots', heq, hch⟩ := h
    cases heq
    obtain ⟨i, hi, hpi⟩ : ∃ i, _ ∧ q ++ n.pfx ++ [i] <+: _ := hc.slot_of_key ha hak
    rw [pathLoaded, drop_slot hpi]
    exact ih i (hfl ▸ hch i) (hc.2 i) hi

end

/-! ### `Prove` and `ProveMultiple` -/

/-- The tree is a copy of the committed tree `root`, of which some nodes may not be loaded but all are in
    the store. -/
structure CommittedCopy (sha512 : Digest 64) (prover : InclusionProver) (len : Nat) (t : LazyVectorCommitmentTree)
    (db : Db) (root : Node) : Prop where
  shaped : Shaped len [] (skel root)
  committed : Committed sha512 prover root
  stored : Stored db t.tree [] root
  mirrors : Mirrors t.root [] root
  rooted : t.root = .nil → root = .nil

section
variable {sha3 : Digest 32} {sha512 : Digest 64} {prover : InclusionProver} {len commitFuel : Nat}
  {t : LazyVectorCommitmentTree} {db : Db} {root : Node} {key : Bytes} {keys : List Bytes} {a : Item}

theorem Represents.committedCopy {inserted : List Bytes} (h : Represents sha3 len inserted t db root)
    (hc : Committed sha512 prover root) : CommittedCopy sha512 prover len t db root where
  shaped := h.placed.shaped
  committed := hc
  stored := fun _ _ hb i => h.filed.lookup_slot h.typed.indexed hb i
  mirrors := h.mirrors
  rooted := h.loaded

namespace CommittedCopy

section
variable (h : CommittedCopy sha512 prover len t db root)
include h

theorem of_loaded {node : LazyNode} (hnd : Loaded node [] root) :
    CommittedCopy sha512 prover len { t with root := node } db root :=
  { h with
    mirrors := hnd.mirrors
    rooted := fun hnil => by
      rw [show node = .nil from hnil] at hnd
      exact hnd }

section
variable (ha : a ∈ (skel root).leaves)
include ha

theorem key_length (hak : a.key = key) : key.length = len := hak ▸ h.shaped.key_length ha

theorem walk (hak : a.key = key) : prove sha3 sha512 prover t.tree (commitFuel + 1) key (keyFuel key) t.root 0 db =
      .ok (walkOf sha512 prover t.root (skel root) (getFullPath key), t.root, db) :=
  prove_eq h.shaped h.committed h.stored h.mirrors nil_prefix ha hak
    (by rw [keyFuel]; simp)

theorem commits_ne_nil (hak : a.key = key) :
    (walkOf sha512 prover t.root (skel root) (getFullPath key)).commits ≠ [] := by
  refine walkOf_commits_ne_nil h.mirrors (fun hnil => ?_) h.shaped ha hak
  rw [h.rooted hnil] at ha
  simp [skel] at ha

end

end

theorem prove (sha3 : Digest 32) (commitFuel : Nat) (h : CommittedCopy sha512 prover len t db root) (hl : 0 < len)
    (ha : a ∈ (skel root).leaves) (hak : a.key = key) :
    ∃ p, t.prove sha3 sha512 prover (commitFuel + 1) db key = .ok (some p, t, db) ∧
      p.subProofs = [(walkOf sha512 prover t.root (skel root) (getFullPath key)).subProof] := by
  have hne : key ≠ [] := ne_nil_of_length_pos (h.key_length ha hak ▸ hl)
  simp only [LazyVectorCommitmentTree.prove, if_neg hne, h.walk ha hak, ok_bind, walkOf_indices,
    if_neg (h.commits_ne_nil ha hak)]
  exact ⟨_, rfl, rfl⟩

theorem gather (sha3 : Digest 32) (commitFuel : Nat) (h : CommittedCopy sha512 prover len t db root)
    (hky : ∀ k ∈ keys, ∃ a ∈ (skel root).leaves, a.key = k) (g : Gathered) :
    ∃ g', gather sha3 sha512 prover (commitFuel + 1) t.tree keys g t.root db =
        .ok (g', t.root, db) ∧ g'.subProofs = g.subProofs ++
        keys.map fun k => (walkOf sha512 prover t.root (skel root) (getFullPath k)).subProof := by
  induction keys generalizing g with
  | nil => exact ⟨g, rfl, (append_nil _).symm⟩
  | cons k keys ih =>
    obtain ⟨a, ha, hak⟩ := hky k mem_cons_self
    have hdp : dropLast (walkOf sha512 prover t.root (skel root) (getFullPath k)).commits = .ok _ :=
      if_neg (h.commits_ne_nil ha hak)
    simp only [LazyVectorCommitmentTree.gather, h.walk ha hak, ok_bind, Gathered.add, walkOf_indices, hdp]
    obtain ⟨g', hg', hs⟩ := ih (fun k hk => hky k (mem_cons_of_mem _ hk)) _
    exact ⟨g', hg', by rw [hs, map_cons, append_assoc]; rfl⟩

theorem proveMultiple (sha3 : Digest 32) (commitFuel : Nat) (h : CommittedCopy sha512 prover len t db root)
    (hlen : 0 < len) (hky : ∀ k ∈ keys, ∃ a ∈ (skel root).leaves, a.key = k) :
    ∃ p, t.proveMultiple sha3 sha512 prover (commitFuel + 1) db keys = .ok (p, t, db) ∧
      p.map (·.subProofs) = if keys = [] then none
        else some (keys.map fun k => (walkOf sha512 prover t.root (skel root) (getFullPath k)).subProof) := by
  by_cases hne : keys = []
  · rw [hne]
    exact ⟨none, rfl, rfl⟩
  · have hnil := keys_nonempty hlen hne fun k hk => (hky k hk).elim fun a ha => h.key_length ha.1 ha.2
    obtain ⟨g, hg, hs⟩ := h.gather sha3 commitFuel hky .empty
    refine ⟨some (g.proof prover), ?_, ?_⟩
    · rw [LazyVectorCommitmentTree.proveMultiple, if_neg hnil, hg, ok_bind]
    · rw [if_neg hne, Option.map_some]
      exact congrArg some hs

end CommittedCopy

/-- A copy of a committed tree whose nodes are in the store proves keys as the tree in memory does if and only if
    every branch on the path of each key has the next child loaded. -/
theorem lazy_proofs_equal_iff_loaded (sha3 : Digest 32) (hlen : 0 < len) (commitFuel : Nat)
    {full copy : LazyVectorCommitmentTree} (hfull : CommittedCopy sha512 prover len full db root)
    (hloaded : Loaded full.root [] root) (hcopy : CommittedCopy sha512 prover len copy db root)
    (hkeys : ∀ k ∈ keys, ∃ a ∈ (skel root).leaves, a.key = k) :
    (∃ p p', full.proveMultiple sha3 sha512 prover (commitFuel + 1) db keys = .ok (p, full, db) ∧
      copy.proveMultiple sha3 sha512 prover (commitFuel + 1) db keys = .ok (p', copy, db) ∧
      (p'.map (·.subProofs) = p.map (·.subProofs) ↔ ∀ k ∈ keys, copy.root.pathLoaded (getFullPath k) = true)) ∧
    ∀ k ∈ keys, ∃ p p', full.prove sha3 sha512 prover (commitFuel + 1) db k = .ok (some p, full, db) ∧
      copy.prove sha3 sha512 prover (commitFuel + 1) db k = .ok (some p', copy, db) ∧
      (p'.subProofs = p.subProofs ↔ copy.root.pathLoaded (getFullPath k) = true) := by
  have hiff : ∀ k ∈ keys, (walkOf sha512 prover copy.root (skel root) (getFullPath k)).subProof =
      (walkOf sha512 prover full.root (skel root) (getFullPath k)).subProof ↔
      copy.root.pathLoaded (getFullPath k) = true := fun k hk => by
    obtain ⟨a, ha, hak⟩ := hkeys k hk
    exact walkOf_subProof_eq_iff hcopy.mirrors hfull.mirrors (hloaded.pathLoaded hfull.shaped ha hak)
  constructor
  · obtain ⟨p, hp, hs⟩ := hfull.proveMultiple sha3 commitFuel hlen hkeys
    obtain ⟨p', hp', hs'⟩ := hcopy.proveMultiple sha3 commitFuel hlen hkeys
    refine ⟨p, p', hp, hp', ?_⟩
    rw [hs, hs']
    by_cases hne : keys = []
    · simp [hne]
    · rw [if_neg hne, if_neg hne, Option.some_inj, map_inj_left]
      exact forall₂_congr hiff
  · intro k hk
    obtain ⟨a, ha, hak⟩ := hkeys k hk
    obtain ⟨p, hp, hs⟩ := hfull.prove sha3 commitFuel hlen ha hak
    obtain ⟨p', hp', hs'⟩ := hcopy.prove sha3 commitFuel hlen ha hak
    refine ⟨p, p', hp, hp', ?_⟩
    rw [hs, hs', cons.injEq, and_iff_left rfl]
    exact hiff k hk

end

/-! ### A restart -/

/-- The tree at slot path `q` with all of its nodes in memory. -/
def loadAll (q : List Nibble) : Node → LazyNode
  | .nil => .nil
  | .leaf n => .leaf n
  | .branch b slots =>
    .branch { b with fullPrefix := q ++ b.pfx, fullyLoaded := true } fun i => loadAll (q ++ b.pfx ++ [i]) (slots i)

theorem Filed.loadAll {sha3 : Digest 32} {tree : TreeId} {db : Db} {q : List Nibble} {t : Node}
    (h : Filed sha3 tree db q t) : Loaded (Quilibrium.loadAll q t) q t := by
  induction t generalizing q with
  | nil => rfl
  | leaf n => rfl
  | branch b slots ih =>
    refine ⟨rfl, slots, ?_, fun i => ih i (h.2 i)⟩
    rw [LazyBranchNode.stored, Int.natAbs_of_nonneg h.1.1]

theorem restarted_copy : ∃ copy db root, run Digest.padded (Digest.zeros 64) .transparent 4
        (⟨.nil, zeroTree, []⟩, OrdMap.empty) (reloading ++ [.commit false, .reload]) = .ok (copy, db) ∧
      Represents Digest.padded 1 (LazyCall.keys reloading) copy db root ∧
      Committed (Digest.zeros 64) .transparent root ∧ (skel root).leaves.map (·.key) = [[0], [1]] ∧
      copy.root = unloaded [] root := by
  have hcf : CollisionFree Digest.padded (LazyCall.keys reloading) := Digest.padded_collisionFree (by decide)
  obtain ⟨node, db, root, eager, hrun, heg, hr, hcoh, hsk, -⟩ := ((fresh_empty zeroTree).represents []).run hcf
    Nat.one_pos (by decide : pathLength 1 < 4) rfl trivial (holds_empty (Digest.zeros 64) .transparent 1) rfl
    reloading_keys reloading_entriesReach
  obtain ⟨node', db', hcmm, hr'⟩ := hr.commit hcf Nat.one_pos (by decide : pathLength 1 < 4) (Digest.zeros 64)
    .transparent false
  obtain ⟨-, hs, hsk'⟩ := VectorCommitmentTree.commit_spec false hcoh
  have hl : (VectorCommitmentTree.run (Digest.zeros 64) .transparent .empty
      (LazyCall.inserts reloading)).toOption.map (fun t => (skel t.root).leaves.map (·.key)) = some [[0], [1]] := by
    decide +kernel
  refine ⟨_, db', _, ?_, hr'.reload, hs.committed fun data hdt => ?_, ?_, hr'.saved⟩
  · have hcall : call Digest.padded (Digest.zeros 64) .transparent 4
        (⟨node, zeroTree, []⟩, db) (.commit false) = .ok (⟨node', zeroTree, []⟩, db') := by
      rw [call, hcmm, ok_bind]
    rw [run, foldlM_append, show foldlM _ _ _ = _ from hrun, ok_bind]
    rw [← run, run_cons hcall]
    rfl
  · exact ne_nil_of_length_pos (show 0 < data.length by omega)
  · rw [heg] at hl
    rw [hsk', hsk]
    exact Option.some.inj hl

section
variable {root : Node} (h : (skel root).leaves.map (·.key) = [[0], [1]])
include h

theorem mem_restarted : ∀ k ∈ [[0], [1]], ∃ a ∈ (skel root).leaves, a.key = k := fun k hk => by
  rw [← h] at hk
  exact mem_map.mp hk

theorem unloaded_not_pathLoaded (path : List Nibble) : pathLoaded (unloaded [] root) path = false := by
  cases root with
  | nil => cases h
  | leaf n => simp [skel] at h
  | branch b slots =>
    rw [unloaded, NodeRecord.toNode, pathLoaded]
    split <;> rfl

end

/-- After a restart the proof of a key holds the root commitment alone. -/
theorem restart_truncates_proof :
    ∃ full copy db root p p', LazyVectorCommitmentTree.run Digest.padded (Digest.zeros 64) .transparent 4
        (⟨.nil, zeroTree, []⟩, OrdMap.empty) (reloading ++ [.commit false, .reload]) = .ok (copy, db) ∧
      CommittedCopy (Digest.zeros 64) .transparent 1 full db root ∧ Loaded full.root [] root ∧
      CommittedCopy (Digest.zeros 64) .transparent 1 copy db root ∧ (∃ a ∈ (skel root).leaves, a.key = [0]) ∧
      full.prove Digest.padded (Digest.zeros 64) .transparent 1 db [0] = .ok (some p, full, db) ∧
      copy.prove Digest.padded (Digest.zeros 64) .transparent 1 db [0] = .ok (some p', copy, db) ∧
      p'.subProofs ≠ p.subProofs := by
  obtain ⟨copy, db, root, hrun, hr, hc, hky, hrt⟩ := restarted_copy
  have hcp := hr.committedCopy hc
  have hld := hr.filed.loadAll
  have hfl := hcp.of_loaded hld
  obtain ⟨a, ha, hak⟩ := mem_restarted hky [0] (by decide)
  obtain ⟨p, hp, hs⟩ := hfl.prove Digest.padded 0 Nat.one_pos ha hak
  obtain ⟨p', hp', hs'⟩ := hcp.prove Digest.padded 0 Nat.one_pos ha hak
  refine ⟨_, copy, db, root, p, p', hrun, hfl, hld, hcp, ⟨a, ha, hak⟩, hp, hp', fun heq => ?_⟩
  rw [hs, hs', cons.injEq, and_iff_left rfl] at heq
  have hpt := (walkOf_subProof_eq_iff hcp.mirrors hfl.mirrors (hld.pathLoaded hcp.shaped ha hak)).mp heq
  rw [hrt, unloaded_not_pathLoaded hky] at hpt
  cases hpt

theorem lazy_proofs_equal_iff_loaded_restarted :
    ∃ (full copy : LazyVectorCommitmentTree) (db : Db) (root : Node), Loaded full.root [] root ∧ (skel root).leaves.map (·.key) = [[0], [1]] ∧
      (∃ p p', full.proveMultiple Digest.padded (Digest.zeros 64) .transparent 1 db [[0], [1]] = .ok (p, full, db) ∧
        copy.proveMultiple Digest.padded (Digest.zeros 64) .transparent 1 db [[0], [1]] = .ok (p', copy, db) ∧
        (p'.map (·.subProofs) = p.map (·.subProofs) ↔ ∀ k ∈ [[0], [1]], copy.root.pathLoaded (getFullPath k) = true)) ∧
      ∀ k ∈ [[0], [1]], ∃ p p',
        full.prove Digest.padded (Digest.zeros 64) .transparent 1 db k = .ok (some p, full, db) ∧
        copy.prove Digest.padded (Digest.zeros 64) .transparent 1 db k = .ok (some p', copy, db) ∧
        (p'.subProofs = p.subProofs ↔ copy.root.pathLoaded (getFullPath k) = true) := by
  obtain ⟨copy, db, root, -, hr, hc, hky, -⟩ := restarted_copy
  have hcp := hr.committedCopy hc
  have hld := hr.filed.loadAll
  exact ⟨_, copy, db, root, hld, hky, lazy_proofs_equal_iff_loaded Digest.padded Nat.one_pos 0
    (hcp.of_loaded hld) hld hcp (mem_restarted hky)⟩

end Quilibrium
