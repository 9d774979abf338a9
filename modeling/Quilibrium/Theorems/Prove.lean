import Quilibrium.Lib.Blocks
import Quilibrium.Theorems.TreeRun
import Quilibrium.Tries.TraversalProof

/-! Proofs of the in-memory tree. `Opens t w` says what a walk through `t` to a leaf returns. -/

namespace Quilibrium
open Radix Function Except List VectorCommitmentTree

section
variable (sha512 : Digest 64) (prover : InclusionProver)

def polynomialOf (children : Fin 64 → Trie 64 (List Nibble) Item) : Bytes :=
  (List.finRange 64).flatMap fun i => entryOf sha512 (children i) (commitOf sha512 prover (children i))

inductive Opens : Trie 64 (List Nibble) Item → Walk → Prop
  | leaf (a : Item) : Opens (.leaf a) (.leaf (a.hash sha512) a.target)
  | branch (q : List Nibble) (children : Fin 64 → Trie 64 (List Nibble) Item) (i : Nibble) {rest : Walk} :
    Opens (children i) rest → Opens (.branch q children) (.branch (polynomialOf sha512 prover children)
      (commitOf sha512 prover (.branch q children)) (entryOf sha512 (children i) (commitOf sha512 prover (children i)))
      (q ++ [i]) rest)

def entryAt (poly : Bytes) (index : UInt64) : Bytes := (poly.drop (index.toNat * 64)).take 64

end

/-- For vectors of 64 entries of 64 bytes and an index into each, `VerifyMultiple` accepts what `ProveMultiple`
    returns, and that is not empty. -/
def InclusionProver.Complete (prover : InclusionProver) : Prop :=
  ∀ (polys : List Bytes) (indices : List UInt64), polys ≠ [] → polys.length = indices.length →
    (∀ poly ∈ polys, poly.length = 64 * 64) → (∀ i ∈ indices, i.toNat < 64) →
    let commits := polys.map (prover.commitRaw · 64)
    let multiproof := prover.proveMultiple commits polys indices 64
    multiproof.multicommitment ≠ [] ∧ multiproof.proof ≠ [] ∧
      prover.verifyMultiple commits (List.zipWith entryAt polys indices) indices 64
        multiproof.multicommitment multiproof.proof = true

section
variable {sha512 : Digest 64} {prover : InclusionProver}

theorem Item.hash_length (a : Item) : (a.hash sha512).length = 64 := sha512.length_sum _

theorem entryOf_length (t : Trie 64 (List Nibble) Item) :
    (entryOf sha512 t (commitOf sha512 prover t)).length = 64 := by
  cases t with
  | nil => exact length_replicate
  | leaf a => exact a.hash_length
  | branch q ch => exact sha512.length_sum _

theorem polynomialOf_length (ch : Fin 64 → Trie 64 (List Nibble) Item) :
    (polynomialOf sha512 prover ch).length = 64 * 64 := by
  rw [polynomialOf, length_flatMap_const _ _ fun i _ => entryOf_length (ch i), length_finRange]

theorem nibble_toNat (i : Nibble) : (UInt64.ofNat i.val).toNat = i.val := by
  exact Nat.mod_eq_of_lt (by omega)

theorem entryAt_polynomialOf (ch : Fin 64 → Trie 64 (List Nibble) Item) (i : Nibble) :
    entryAt (polynomialOf sha512 prover ch) (UInt64.ofNat i.val) =
      entryOf sha512 (ch i) (commitOf sha512 prover (ch i)) := by
  rw [entryAt, nibble_toNat]
  exact take_drop_flatMap_finRange _ (fun i => entryOf_length (ch i)) i

theorem evaluation_polynomialOf (ch : Fin 64 → Trie 64 (List Nibble) Item) (i : Nibble) :
    evaluation (polynomialOf sha512 prover ch) i =
      .ok (entryOf sha512 (ch i) (commitOf sha512 prover (ch i))) := by
  have hi : ¬(polynomialOf sha512 prover ch).length < (i.val + 1) * 64 := by
    rw [polynomialOf_length]
    omega
  rw [evaluation, if_neg hi, ← entryAt_polynomialOf ch i, entryAt, nibble_toNat]

/-! ### Walks of the tree -/

theorem Node.commit_branch (recalc : Bool) (n : BranchNode) (ch : Fin 64 → Node) :
    Node.commit sha512 prover recalc (.branch n ch) = ((n.commit sha512 prover recalc ch).1,
        .branch (n.commit sha512 prover recalc ch).2.1 (n.commit sha512 prover recalc ch).2.2) := by
  unfold Node.commit BranchNode.commit
  split <;> rfl

theorem LeafNode.commit_coherent {n : LeafNode} (h : Coherent sha512 prover (.leaf n)) :
    ∃ n', n.commit sha512 false = (n.toItem.hash sha512, n') ∧ n'.toItem = n.toItem ∧
      Settled sha512 prover (.leaf n') := by
  unfold LeafNode.commit
  split
  · exact ⟨_, rfl, rfl, rfl⟩
  · rename_i hn
    have hs : n.commitment = n.toItem.hash sha512 := h (not_or.mp hn).1
    exact ⟨n, by rw [hs], rfl, hs⟩

theorem BranchNode.commit_coherent {n : BranchNode} {ch : Fin 64 → Node}
    (h : Coherent sha512 prover (.branch n ch)) : ∃ n' ch', n.commit sha512 prover false ch =
        (commitOf sha512 prover (skel (.branch n ch)), n', ch') ∧
      n'.pfx = n.pfx ∧ (∀ i, skel (ch' i) = skel (ch i)) ∧ Settled sha512 prover (.branch n' ch') := by
  obtain ⟨hc, hs⟩ := Node.commit_spec false fun _ => h
  have hsk : skel (Node.commit sha512 prover false (.branch n ch)).2 = skel (.branch n ch) :=
    Node.commit_skel false _
  rw [Node.commit_branch] at hc hs hsk
  obtain ⟨hq, hch⟩ := Trie.branch.inj hsk
  exact ⟨_, _, Prod.ext hc rfl, hq, congrFun hch, hs⟩

/-- `Prove` of a key in a canonical tree with coherent commitments walks to its leaf, and settles the nodes
    it visits. -/
theorem Node.prove_opens {len : Nat} {p : List Nibble} {key : Bytes} {a : Item} {t : Node} {fuel : Nat}
    (hc : Shaped len p (skel t)) (ht : Coherent sha512 prover t) (hp : p <+: getFullPath key)
    (ha : a ∈ (skel t).leaves) (hak : a.key = key) (hfl : (getFullPath key).length < p.length + fuel) :
    ∃ w t', Node.prove sha512 prover key fuel t (6 * p.length) = .ok (w, t') ∧ Opens sha512 prover (skel t) w ∧
      Settled sha512 prover t' ∧ skel t' = skel t := by
  induction fuel generalizing p t with
  | zero => exact absurd hp.length_le (by omega)
  | succ fuel ih =>
    cases t with
    | nil => simp [skel] at ha
    | leaf n =>
      obtain rfl : a = n.toItem := by simpa [skel] using ha
      obtain ⟨n', hcom, hn', hs⟩ := LeafNode.commit_coherent ht
      refine ⟨_, .leaf n', ?_, .leaf n.toItem, hs, by rw [skel, skel, Trie.map_leaf, Trie.map_leaf, hn']⟩
      simp [Node.prove, hcom, hn', hak]
    | branch n ch =>
      obtain ⟨j, hi, hpj⟩ := hc.slot_of_key ha hak
      obtain ⟨hnn, hnib⟩ := follows_slot hp hpj
      obtain ⟨n', ch', hcom, hpfx, hsk, hs⟩ := BranchNode.commit_coherent ht
      have hpl : getPolynomial sha512 ch' = polynomialOf sha512 prover fun i => skel (ch i) := by
        rw [getPolynomial_settled hs.2]
        simp [hsk, polynomialOf]
      obtain ⟨rest, child, hrs, hop, hst, hch⟩ := ih (t := ch' j) (by rw [hsk]; exact hc.2 j)
        (hs.2 j).coherent hpj (by rw [hsk]; exact hi) (by rw [length_slot]; omega)
      rw [hsk] at hop hch
      have hup : ∀ i, skel (update ch' j child i) = skel (ch i) := fun i => by
        by_cases hij : i = j
        · rw [hij, update_self, hch]
        · rw [update_of_ne hij, hsk]
      refine ⟨_, .branch n' (update ch' j child), ?_, .branch n.pfx (fun i => skel (ch i)) j hop,
        ⟨?_, fun i => ?_⟩, ?_⟩
      · rw [← depth_slot] at hrs
        simp [Node.prove, hnn, hnib, hcom, hpfx, hpl, evaluation_polynomialOf, hrs, skel_branch]
      · rw [hs.1, skel_branch, skel_branch]
        simp [hsk, hup]
      · by_cases hij : i = j
        · rw [hij, update_self]
          exact hst
        · rw [update_of_ne hij]
          exact hs.2 i
      · rw [skel_branch, skel_branch, hpfx, funext hup]

/-! ### Verification of walks -/

theorem dropLast_concat {α : Type} (s : List α) (a : α) : dropLast (s ++ [a]) = .ok s := by
  simp [dropLast]

def Walk.indices (w : Walk) : List UInt64 := w.subProof.paths.filterMap List.getLast?

@[simp] theorem Walk.subProof_commits (w : Walk) : w.subProof.commits = w.commits := rfl
@[simp] theorem Walk.subProof_ys (w : Walk) : w.subProof.ys = w.ys := rfl

theorem Walk.indices_branch (poly commitment y : Bytes) (q : List Nibble) (i : Nibble) (rest : Walk) :
    (Walk.branch poly commitment y (q ++ [i]) rest).indices = UInt64.ofNat i.val :: rest.indices := by
  simp [Walk.indices, Walk.subProof, Walk.branch]

theorem Walk.mapM_lastIndex_branch {poly commitment y : Bytes} {q : List Nibble} {i : Nibble} {rest : Walk}
    (h : rest.subProof.paths.mapM lastIndex = .ok rest.indices) :
    (Walk.branch poly commitment y (q ++ [i]) rest).subProof.paths.mapM lastIndex =
      .ok (Walk.branch poly commitment y (q ++ [i]) rest).indices := by
  have hls : lastIndex ((q ++ [i]).map fun i : Nibble => UInt64.ofNat i.val) = .ok (UInt64.ofNat i.val) := by
    simp [lastIndex]
  rw [Walk.indices_branch]
  simp only [Walk.subProof, Walk.branch, map_cons, mapM_cons] at h ⊢
  rw [hls, ok_bind, h]
  rfl

namespace Opens
variable {t : Trie 64 (List Nibble) Item} {w : Walk}

section
variable (h : Opens sha512 prover t w)
include h

theorem head : w.commits.head? = some (commitOf sha512 prover t) := by
  cases h <;> rfl

theorem commits_eq : ∃ last, w.commits = w.polynomials.map (prover.commitRaw · 64) ++ [last] := by
  induction h with
  | leaf a => exact ⟨_, rfl⟩
  | branch q ch i _ ih =>
    obtain ⟨last, hls⟩ := ih
    exact ⟨last, congrArg (cons _) hls⟩

theorem ys_eq : ∃ last, w.ys = zipWith entryAt w.polynomials w.indices ++ [last] := by
  induction h with
  | leaf a => exact ⟨a.target, rfl⟩
  | branch q ch i _ ih =>
    obtain ⟨last, hls⟩ := ih
    refine ⟨last, ?_⟩
    rw [Walk.indices_branch]
    simp [Walk.branch, hls, zipWith_cons_cons, entryAt_polynomialOf]

theorem indices_eq : w.subProof.paths.mapM lastIndex = .ok w.indices := by
  induction h with
  | leaf a => rfl
  | branch q ch i _ ih => exact Walk.mapM_lastIndex_branch ih

theorem polynomials_length : w.polynomials.length = w.indices.length ∧ w.paths.length = w.polynomials.length := by
  induction h with
  | leaf a => exact ⟨rfl, rfl⟩
  | branch q ch i _ ih =>
    rw [Walk.indices_branch]
    exact ⟨congrArg (· + 1) ih.1, congrArg (· + 1) ih.2⟩

theorem polynomial_length : ∀ poly ∈ w.polynomials, poly.length = 64 * 64 := by
  induction h with
  | leaf a => simp [Walk.leaf]
  | branch q ch i _ ih => exact forall_mem_cons.mpr ⟨polynomialOf_length ch, ih⟩

theorem index_lt : ∀ i ∈ w.indices, i.toNat < 64 := by
  induction h with
  | leaf a => simp [Walk.indices, Walk.subProof, Walk.leaf]
  | branch q ch i _ ih =>
    rw [Walk.indices_branch]
    refine forall_mem_cons.mpr ⟨?_, ih⟩
    rw [nibble_toNat]
    exact i.isLt

theorem wellSized : w.subProof.wellSized = true := by
  obtain ⟨c, hc⟩ := h.commits_eq
  obtain ⟨y, hy⟩ := h.ys_eq
  obtain ⟨hp, hl⟩ := h.polynomials_length
  have hcl : w.commits.length = w.polynomials.length + 1 := by rw [hc]; simp
  have hyl : w.ys.length = w.polynomials.length + 1 := by rw [hy]; simp [← hp]
  simp [TraversalSubProof.wellSized, Walk.subProof, hcl, hyl, hl]

theorem links : verifyLinks sha512 w.commits w.subProof.paths w.ys = .ok true := by
  induction h with
  | leaf a => rfl
  | @branch q ch i rest hrs ih =>
    generalize ch i = child at hrs ih ⊢
    cases hrs with
    | leaf a => simp [Walk.branch, Walk.leaf, Walk.subProof, verifyLinks, linkOut, entryOf, commitOf]
    | @branch q' ch' j rest' hrs' =>
      obtain ⟨last, hls⟩ := hrs'.commits_eq
      have hne : rest'.commits ≠ [] := by simp [hls]
      simp only [Walk.branch, Walk.subProof, map_cons, map_append, map_nil] at ih ⊢
      have hq : (q'.map fun i : Nibble => UInt64.ofNat i.val).map UInt64.toNat = q'.map Fin.val := by
        rw [map_map]
        exact map_congr_left fun i _ => nibble_toNat i
      rw [verifyLinks]
      simp only [linkOut, if_neg hne, getElem?_cons_succ, getElem?_cons_zero, dropLast_concat, ok_bind, hq,
        entryOf, ne_eq, not_true_eq_false, if_false]
      exact ih

theorem collect : collectOpenings sha512 [w.subProof] = .ok (some (w.polynomials.map (prover.commitRaw · 64),
      zipWith entryAt w.polynomials w.indices, w.indices)) := by
  obtain ⟨c, hc⟩ := h.commits_eq
  obtain ⟨y, hy⟩ := h.ys_eq
  have hln := h.links
  have hind := h.indices_eq
  by_cases ho : w.commits.length ≤ 1
  · have hnil : w.polynomials = [] := by
      rw [hc] at ho
      simpa using ho
    have hidx : w.indices = [] := by
      rw [← length_eq_zero_iff, ← h.polynomials_length.1, hnil, length_nil]
    rw [collectOpenings, Walk.subProof_commits, if_pos ho, hnil, hidx]
    rfl
  · rw [collectOpenings, Walk.subProof_commits, if_neg ho, Walk.subProof_ys, hln, hind, hc, hy,
      dropLast_concat, dropLast_concat]
    simp [collectOpenings]

end

end Opens

theorem collectOpenings_append {xs ys : List TraversalSubProof} {c c' y y' : List Bytes} {i i' : List UInt64}
    (hx : collectOpenings sha512 xs = .ok (some (c, y, i))) (hy : collectOpenings sha512 ys = .ok (some (c', y', i'))) :
    collectOpenings sha512 (xs ++ ys) = .ok (some (c ++ c', y ++ y', i ++ i')) := by
  induction xs generalizing c y i with
  | nil =>
    obtain ⟨rfl, rfl, rfl⟩ : c = [] ∧ y = [] ∧ i = [] := by simpa [collectOpenings, eq_comm] using hx
    exact hy
  | cons subProof xs ih =>
    rw [cons_append, collectOpenings]
    rw [collectOpenings] at hx
    split at hx
    · rename_i hone
      rw [if_pos hone]
      exact ih hx
    · rename_i hone
      obtain ⟨indices, hind, hx⟩ := bind_eq_ok.mp hx
      obtain ⟨commits, hcm, hx⟩ := bind_eq_ok.mp hx
      obtain ⟨ys₁, hys₁, hx⟩ := bind_eq_ok.mp hx
      obtain ⟨linked, hln, hx⟩ := bind_eq_ok.mp hx
      cases linked with
      | false => simp at hx
      | true =>
        obtain ⟨rest, hrs, hx⟩ := bind_eq_ok.mp hx
        obtain _ | ⟨c₂, y₂, i₂⟩ := rest
        · simp at hx
        · obtain ⟨rfl, rfl, rfl⟩ : commits ++ c₂ = c ∧ ys₁ ++ y₂ = y ∧ indices ++ i₂ = i := by simpa using hx
          simp [if_neg hone, hind, hcm, hys₁, hln, ih hrs, append_assoc]

/-! ### Proofs of several keys -/

/-- What `ProveMultiple` gathers from walks through a tree with root commitment `rootCommit`. -/
structure Gathered.Sound (sha512 : Digest 64) (prover : InclusionProver) (rootCommit : Bytes) (g : Gathered) :
    Prop where
  commitments : g.commitments = g.polynomials.map (prover.commitRaw · 64)
  length : g.polynomials.length = g.indices.length
  polynomial_length : ∀ poly ∈ g.polynomials, poly.length = 64 * 64
  index_lt : ∀ i ∈ g.indices, i.toNat < 64
  collect : collectOpenings sha512 g.subProofs =
    .ok (some (g.commitments, List.zipWith entryAt g.polynomials g.indices, g.indices))
  wellSized : ∀ p ∈ g.subProofs, p.wellSized = true
  heads : ∀ p ∈ g.subProofs, p.commits.head? = some rootCommit

theorem Gathered.sound_empty (rootCommit : Bytes) : Gathered.Sound sha512 prover rootCommit .empty where
  commitments := rfl
  length := rfl
  polynomial_length := by simp [Gathered.empty]
  index_lt := by simp [Gathered.empty]
  collect := rfl
  wellSized := by simp [Gathered.empty]
  heads := by simp [Gathered.empty]

theorem Gathered.Sound.add {t : Trie 64 (List Nibble) Item} {g : Gathered} {w : Walk}
    (h : g.Sound sha512 prover (commitOf sha512 prover t)) (hw : Opens sha512 prover t w) :
    ∃ g', g.add w = .ok g' ∧ g'.polynomials = g.polynomials ++ w.polynomials ∧
      g'.Sound sha512 prover (commitOf sha512 prover t) := by
  obtain ⟨c, hc⟩ := hw.commits_eq
  have hadd : g.add w = .ok
      { polynomials := g.polynomials ++ w.polynomials
        commitments := g.commitments ++ w.polynomials.map (prover.commitRaw · 64)
        indices := g.indices ++ w.indices
        subProofs := g.subProofs ++ [w.subProof] } := by
    rw [Gathered.add, hw.indices_eq, hc, dropLast_concat]
    rfl
  refine ⟨_, hadd, rfl, ?_, ?_, ?_, ?_, ?_, ?_, ?_⟩
  · rw [h.commitments, map_append]
  · rw [length_append, length_append, h.length, hw.polynomials_length.1]
  · exact forall_mem_append.mpr ⟨h.polynomial_length, hw.polynomial_length⟩
  · exact forall_mem_append.mpr ⟨h.index_lt, hw.index_lt⟩
  · rw [zipWith_append h.length]
    exact collectOpenings_append h.collect hw.collect
  · exact forall_mem_append.mpr ⟨h.wellSized, by simpa using hw.wellSized⟩
  · exact forall_mem_append.mpr ⟨h.heads, by simpa using hw.head⟩

theorem Gathered.Sound.verify {rootCommit : Bytes} {g : Gathered} (h : g.Sound sha512 prover rootCommit)
    (hp : prover.Complete) (hne : g.polynomials ≠ []) :
    ∃ v, verifyTreeTraversalProof sha512 prover rootCommit (g.proof prover) = .ok v ∧ v.accepted = true := by
  obtain ⟨hmc, hpf, hvl⟩ := hp g.polynomials g.indices hne h.length h.polynomial_length h.index_lt
  rw [← h.commitments] at hmc hpf hvl
  have hsz : (g.proof prover).wellSized = true := by
    simpa [TraversalProof.wellSized, Gathered.proof, hmc, hpf] using h.wellSized
  have hhd : g.subProofs.all (fun p => p.commits.head? = some rootCommit) = true := by
    simpa using h.heads
  have hc := h.collect
  rw [verifyTreeTraversalProof, hsz]
  simp only [verifyAgainst, Gathered.proof, hhd, hc, Bool.not_true, Bool.false_eq_true, if_false, ok_bind]
  split
  · exact ⟨_, rfl, hvl⟩
  · exact ⟨_, rfl, rfl⟩

section
variable {len : Nat} {b : Bytes → Option Item} {t : VectorCommitmentTree}

theorem keys_nonempty {keys : List Bytes} (hl : 0 < len) (hne : keys ≠ []) (hky : ∀ k ∈ keys, k.length = len) :
    ¬(keys.isEmpty || keys.any (·.isEmpty)) = true := by
  simp only [Bool.or_eq_true, List.isEmpty_iff, any_eq_true, not_or, not_exists, not_and]
  exact ⟨hne, fun k hk => ne_nil_of_length_pos (hky k hk ▸ hl)⟩

section
variable (h : Holds sha512 prover len b t)
include h

theorem Holds.key_length {k : Bytes} {a : Item} (ha : b k = some a) : k.length = len := by
  obtain ⟨hm, rfl⟩ := (h.binds k a).mp ha
  exact h.shaped.key_length hm

theorem Holds.prove {root : Node} (hrt : skel root = skel t.root) (hc : Coherent sha512 prover root) {k : Bytes}
    {a : Item} (ha : b k = some a) : ∃ w root', Node.prove sha512 prover k (keyFuel k) root 0 = .ok (w, root') ∧
      Opens sha512 prover (skel t.root) w ∧ Settled sha512 prover root' ∧ skel root' = skel t.root := by
  obtain ⟨hm, hk⟩ := (h.binds k a).mp ha
  rw [← hrt] at hm ⊢
  exact Node.prove_opens (by rw [hrt]; exact h.shaped) hc nil_prefix hm hk
    (by rw [keyFuel]; simp)

theorem Holds.gather {keys : List Bytes} (hky : ∀ k ∈ keys, ∃ a, b k = some a) {g : Gathered}
    (hg : g.Sound sha512 prover (commitOf sha512 prover (skel t.root))) {root : Node}
    (hrt : skel root = skel t.root) (hc : Coherent sha512 prover root) :
    ∃ g' root', gather sha512 prover keys g root = .ok (g', root') ∧
      g'.Sound sha512 prover (commitOf sha512 prover (skel t.root)) ∧ g.polynomials <+: g'.polynomials := by
  induction keys generalizing g root with
  | nil => exact ⟨g, root, rfl, hg, prefix_rfl⟩
  | cons k keys ih =>
    obtain ⟨a, ha⟩ := hky k mem_cons_self
    obtain ⟨w, root₁, hpr, hw, hs, hsk⟩ := h.prove hrt hc ha
    obtain ⟨g₁, hadd, hpl, hg₁⟩ := hg.add hw
    obtain ⟨g', root', hgat, hg', hpre⟩ := ih (fun k hk => hky k (mem_cons_of_mem _ hk)) hg₁ hsk hs.coherent
    refine ⟨g', root', ?_, hg', (prefix_append _ _).trans (hpl ▸ hpre)⟩
    simp [VectorCommitmentTree.gather, hpr, hadd, hgat]

theorem Holds.proveMultiple_verifies (hl : 0 < len) (hp : prover.Complete) {q : List Nibble}
    {ch : Fin 64 → Trie 64 (List Nibble) Item} (hrt : skel t.root = .branch q ch) {keys : List Bytes}
    (hne : keys ≠ []) (hky : ∀ k ∈ keys, ∃ a, b k = some a) :
    ∃ proof t', t.proveMultiple sha512 prover keys = .ok (some proof, t') ∧
      ∃ v, verifyTreeTraversalProof sha512 prover (commitOf sha512 prover (skel t.root)) proof = .ok v ∧
        v.accepted = true := by
  have hnil := keys_nonempty hl hne fun k hk => (hky k hk).elim fun a ha => h.key_length ha
  obtain ⟨k, keys, rfl⟩ := exists_cons_of_ne_nil hne
  obtain ⟨a, ha⟩ := hky k mem_cons_self
  obtain ⟨w, root₁, hpr, hw, hs, hsk⟩ := h.prove rfl h.coherent ha
  obtain ⟨g₁, hadd, hpl, hg₁⟩ := (Gathered.sound_empty _).add hw
  obtain ⟨g', root', hgat, hg', hpre⟩ := h.gather (fun k hk => hky k (mem_cons_of_mem _ hk)) hg₁ hsk hs.coherent
  rw [hrt] at hw
  have hpo : g'.polynomials ≠ [] := by
    intro hnil
    rw [hnil, prefix_nil, hpl] at hpre
    cases hw
    exact cons_ne_nil _ _ (append_eq_nil_iff.mp hpre).2
  refine ⟨_, ⟨root'⟩, ?_, hg'.verify hp hpo⟩
  simp only [proveMultiple, if_neg hnil, VectorCommitmentTree.gather, hpr, hadd, hgat, ok_bind]

end

theorem VectorCommitmentTree.prove_eq_proveMultiple (t : VectorCommitmentTree) (key : Bytes) :
    t.prove sha512 prover key = t.proveMultiple sha512 prover [key] := by
  have hnil : (isEmpty [key] || any [key] (·.isEmpty)) = true ↔ key = [] := by simp
  simp only [prove, proveMultiple, hnil, gather]
  cases Node.prove sha512 prover key (keyFuel key) t.root 0 with
  | error e => rfl
  | ok r =>
    simp only [ok_bind]
    cases Gathered.empty.add r.1 with
    | error e => rfl
    | ok g => rfl

end

/-- After any run and `Commit`, the proof of any keys of a tree with a branch as root is accepted for the root
    commitment, and so is that of each one alone. -/
theorem committed_tree_proofs_verify (sha512 : Digest 64) {prover : InclusionProver} (hp : prover.Complete) {len : Nat}
    (hlen : 0 < len) {calls : List TreeCall} (hcalls : ∀ c ∈ calls, c.KeyLength len) {t : VectorCommitmentTree}
    (hrun : VectorCommitmentTree.run sha512 prover .empty calls = .ok t)
    {n : BranchNode} {children : Fin 64 → Node} (hroot : t.root = .branch n children) (recalculate : Bool)
    {keys : List Bytes} (hne : keys ≠ []) (hkeys : ∀ k ∈ keys, ∃ a, TreeCall.bindings calls k = some a) :
    let (rootCommit, committed) := t.commit sha512 prover recalculate
    (∃ proof t', committed.proveMultiple sha512 prover keys = .ok (some proof, t') ∧
      ∃ v, verifyTreeTraversalProof sha512 prover rootCommit proof = .ok v ∧ v.accepted = true) ∧
    ∀ k ∈ keys, ∃ proof t', committed.prove sha512 prover k = .ok (some proof, t') ∧
      ∃ v, verifyTreeTraversalProof sha512 prover rootCommit proof = .ok v ∧ v.accepted = true := by
  obtain ⟨t₁, hr₁, h⟩ := (holds_empty sha512 prover len).run hlen hcalls
  obtain rfl : t₁ = t := ok.inj (hr₁.symm.trans hrun)
  obtain ⟨hc, hs, hsk⟩ := VectorCommitmentTree.commit_spec recalculate h.coherent
  have hb : skel (t₁.commit sha512 prover recalculate).2.root = .branch n.pfx fun i => skel (children i) := by
    rw [hsk, hroot, skel_branch]
  have h' : Holds sha512 prover len (TreeCall.bindings calls) (t₁.commit sha512 prover recalculate).2 :=
    ⟨by rw [hsk]; exact h.shaped, hs.coherent, by rw [hsk]; exact h.binds⟩
  have hrt' : (t₁.commit sha512 prover recalculate).1 =
      commitOf sha512 prover (skel (t₁.commit sha512 prover recalculate).2.root) := by
    rw [hc, hsk, hroot]
    rfl
  simp only [hrt']
  refine ⟨h'.proveMultiple_verifies hlen hp hb hne hkeys, fun k hk => ?_⟩
  rw [prove_eq_proveMultiple]
  exact h'.proveMultiple_verifies hlen hp hb (cons_ne_nil k []) (by simpa using hkeys k hk)

theorem zip_entryAt (polys : List Bytes) (indices : List UInt64) :
    (polys.zip ((zipWith entryAt polys indices).zip indices)).all
      (fun (c, y, i) => (c.drop (i.toNat * 64)).take 64 == y) = true := by
  induction polys generalizing indices with
  | nil => rfl
  | cons poly polys ih =>
    cases indices with
    | nil => rfl
    | cons i indices =>
      simp only [zipWith_cons_cons, zip_cons_cons, all_cons, entryAt, beq_self_eq_true, Bool.true_and]
      exact ih indices

theorem InclusionProver.transparent_complete : InclusionProver.transparent.Complete := by
  intro polys indices _ hl _ _
  refine ⟨cons_ne_nil _ _, cons_ne_nil _ _, ?_⟩
  simpa [InclusionProver.transparent, hl] using zip_entryAt polys indices

theorem committed_pair_proofs_verify : ∃ t, VectorCommitmentTree.run (Digest.zeros 64) .transparent .empty
        [.insert ⟨[1], [7], [], 1⟩, .insert ⟨[2], [8], [], 1⟩] = .ok t ∧
      ∃ proof t', (t.commit (Digest.zeros 64) .transparent false).2.proveMultiple (Digest.zeros 64) .transparent
          [[2], [1], [2]] = .ok (some proof, t') ∧ ∃ v, verifyTreeTraversalProof (Digest.zeros 64) .transparent
          (t.commit (Digest.zeros 64) .transparent false).1 proof = .ok v ∧ v.accepted = true :=
  ⟨_, rfl, (committed_tree_proofs_verify (Digest.zeros 64) InclusionProver.transparent_complete (by decide : 0 < 1)
    (by decide : ∀ c ∈ [TreeCall.insert ⟨[1], [7], [], 1⟩, .insert ⟨[2], [8], [], 1⟩], c.KeyLength 1) rfl rfl false
    (by decide) (by simp [TreeCall.bindings, TreeCall.bind, update_apply])).1⟩

end

end Quilibrium
