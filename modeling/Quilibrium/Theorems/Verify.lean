import Quilibrium.Lib.Except
import Quilibrium.Tries.LazyProofTree

/-! Verification of traversal proofs. A proof is linked if each of its commitments is the evaluation of the branch
    before it. -/

namespace Quilibrium
open Radix Except List LazyVectorCommitmentTree

/-! ### What a verifier checks -/

/-- The evaluation of a branch for its child: the commitment of a leaf, or the hash of the next branch with the
    prefix in the next path. -/
def linkEntry (sha512 : Digest 64) (commit : Bytes) (path : Option (List UInt64)) : Bytes :=
  match path with
  | none => commit
  | some path => hashBranch sha512 (path.dropLast.map UInt64.toNat) commit

/-- Each commitment after the first is the evaluation of the branch before it. -/
def Links (sha512 : Digest 64) (commits : List Bytes) (paths : List (List UInt64)) (ys : List Bytes) : Prop :=
  ∀ j c, commits[j + 1]? = some c → ys[j]? = some (linkEntry sha512 c paths[j + 1]?)

namespace TraversalSubProof

/-- No path of the subproof is empty and its commitments are linked. -/
def Linked (sha512 : Digest 64) (p : TraversalSubProof) : Prop :=
  [] ∉ p.paths ∧ Links sha512 p.commits p.paths p.ys

def openings (p : TraversalSubProof) : List (Bytes × Bytes × UInt64) :=
  (p.commits.zip (p.ys.zip p.paths)).filterMap fun (c, y, path) => path.getLast?.map fun i => (c, y, i)

end TraversalSubProof

namespace TraversalProof

def openings (proof : TraversalProof) : List (Bytes × Bytes × UInt64) :=
  proof.subProofs.flatMap TraversalSubProof.openings

def Rooted (rootCommit : Bytes) (proof : TraversalProof) : Prop :=
  ∀ p ∈ proof.subProofs, p.commits.head? = some rootCommit

/-- The proof has the right sizes, starts at the root commitment and is linked. -/
def Linked (sha512 : Digest 64) (rootCommit : Bytes) (proof : TraversalProof) : Prop :=
  proof.wellSized = true ∧ proof.Rooted rootCommit ∧ ∀ p ∈ proof.subProofs, p.Linked sha512

/-- The loop over the subproofs reaches an empty path: no subproof before it fails. -/
def ReachesEmptyPath (sha512 : Digest 64) (rootCommit : Bytes) (proof : TraversalProof) : Prop :=
  proof.wellSized = true ∧ proof.Rooted rootCommit ∧
    ∃ before p after, proof.subProofs = before ++ p :: after ∧ (∀ b ∈ before, b.Linked sha512) ∧ [] ∈ p.paths

end TraversalProof

def MultipleCheck.openings (c : MultipleCheck) : List (Bytes × Bytes × UInt64) := c.commits.zip (c.ys.zip c.indices)

/-- If the proof was accepted, `VerifyMultiple` accepted a list with all of its openings. -/
def OpeningsChecked (prover : InclusionProver) (proof : TraversalProof) (v : Verdict) : Prop :=
  v.accepted = true → ∃ c ∈ v.checks, c.valid = true ∧
    c.valid = prover.verifyMultiple c.commits c.ys c.indices 64 proof.multiproof.multicommitment
      proof.multiproof.proof ∧
    proof.openings.Subperm c.openings

section
variable {sha512 : Digest 64}

/-! ### One subproof -/

variable {paths : List (List UInt64)} {p : TraversalSubProof} {commits ys : List Bytes} {ps : List TraversalSubProof}

theorem links_cons {c₀ c₁ y : Bytes} {path : List UInt64} :
    Links sha512 (c₀ :: c₁ :: commits) (path :: paths) (y :: ys) ↔
      linkEntry sha512 c₁ paths[0]? = y ∧ Links sha512 (c₁ :: commits) paths ys := by
  constructor
  · intro h
    refine ⟨?_, fun j c hc => ?_⟩
    · simpa [eq_comm] using h 0 c₁ rfl
    · simpa using h (j + 1) c hc
  · rintro ⟨h₀, h⟩ j c hc
    cases j with
    | zero =>
      obtain rfl : c₁ = c := by simpa using hc
      simpa using h₀.symm
    | succ j => simpa using h j c (by simpa using hc)

open Classical in
theorem verifyLinks_eq (hp : commits.length = paths.length + 1) (hy : ys.length = commits.length) (hne : [] ∉ paths) :
    verifyLinks sha512 commits paths ys = .ok (decide (Links sha512 commits paths ys)) := by
  induction commits generalizing paths ys with
  | nil => simp at hp
  | cons c₀ commits ih =>
    cases commits with
    | nil =>
      have : Links sha512 [c₀] paths ys := fun j c hc => by simp at hc
      simp [verifyLinks, this]
    | cons c₁ commits =>
      obtain ⟨path, paths, rfl⟩ : ∃ p ps, paths = p :: ps := exists_cons_of_length_pos (by simp at hp; omega)
      obtain ⟨y, ys, rfl⟩ : ∃ y t, ys = y :: t := exists_cons_of_length_pos (by rw [hy]; simp)
      have hp' : (c₁ :: commits).length = paths.length + 1 := by simpa using hp
      have ih' := ih hp' (by simpa using hy) (fun h => hne (mem_cons_of_mem _ h))
      -- the next path is there exactly if another commitment follows
      have ho : linkOut sha512 c₁ commits (path :: paths) = .ok (linkEntry sha512 c₁ paths[0]?) := by
        cases paths with
        | nil =>
          obtain rfl : commits = [] := by simpa using hp'
          rfl
        | cons p ps =>
          have hpne : p ≠ [] := fun h => hne (by simp [h])
          have hc : commits ≠ [] := by
            rintro rfl
            simp at hp'
          simp [linkOut, hc, dropLast, hpne, linkEntry]
      rw [verifyLinks, ho, ok_bind]
      simp only [links_cons]
      by_cases h : linkEntry sha512 c₁ paths[0]? = y
      · simp [h, ih']
      · simp [h]

theorem mapM_lastIndex_eq (hne : [] ∉ paths) : paths.mapM lastIndex = .ok (paths.filterMap getLast?) := by
  induction paths with
  | nil => rfl
  | cons p ps ih =>
    have hp : p ≠ [] := fun h => hne (by simp [h])
    have hl : p.getLast? = some (p.getLast hp) := getLast?_eq_some_getLast hp
    rw [mapM_cons, ih fun h => hne (mem_cons_of_mem _ h), filterMap_cons, hl]
    simp [lastIndex, hl]

theorem mapM_lastIndex_error (hm : [] ∈ paths) : paths.mapM lastIndex = .error .indexOutOfRange := by
  induction paths with
  | nil => simp at hm
  | cons p ps ih =>
    rw [mapM_cons]
    cases p with
    | nil => rfl
    | cons a p =>
      have hl : (a :: p).getLast? = some ((a :: p).getLast (cons_ne_nil a p)) := getLast?_eq_some_getLast _
      rw [ih (by simpa using hm), lastIndex, hl]
      rfl

theorem TraversalSubProof.wellSized_iff :
    p.wellSized = true ↔ p.commits.length = p.paths.length + 1 ∧ p.ys.length = p.commits.length := by
  simp only [TraversalSubProof.wellSized, decide_eq_true_eq]
  omega

theorem collectOpenings_empty (ps : List TraversalSubProof) (h : p.wellSized = true)
    (hm : [] ∈ p.paths) : collectOpenings sha512 (p :: ps) = .error .indexOutOfRange := by
  obtain ⟨hp, -⟩ := TraversalSubProof.wellSized_iff.mp h
  have ho : ¬p.commits.length ≤ 1 := by
    have := length_pos_of_mem hm
    omega
  rw [collectOpenings, if_neg ho, mapM_lastIndex_error hm]
  rfl

theorem collectOpenings_unlinked (ps : List TraversalSubProof) (h : p.wellSized = true)
    (hne : [] ∉ p.paths) (hl : ¬Links sha512 p.commits p.paths p.ys) : collectOpenings sha512 (p :: ps) = .ok none := by
  obtain ⟨hp, hy⟩ := TraversalSubProof.wellSized_iff.mp h
  have ho : ¬p.commits.length ≤ 1 := by
    intro ho
    refine hl fun j c hc => ?_
    have := (List.getElem?_eq_some_iff.mp hc).1
    omega
  have hc : p.commits ≠ [] := ne_nil_of_length_pos (by omega)
  have hys : p.ys ≠ [] := ne_nil_of_length_pos (by omega)
  rw [collectOpenings, if_neg ho, mapM_lastIndex_eq hne, verifyLinks_eq hp hy hne]
  simp [dropLast, hc, hys, hl]

theorem collectOpenings_linked (ps : List TraversalSubProof) (h : p.wellSized = true) (hl : p.Linked sha512) :
    collectOpenings sha512 (p :: ps) = (collectOpenings sha512 ps).map (Option.map fun r =>
      (p.commits.dropLast ++ r.1, p.ys.dropLast ++ r.2.1, p.paths.filterMap getLast? ++ r.2.2)) := by
  obtain ⟨hp, hy⟩ := TraversalSubProof.wellSized_iff.mp h
  have hc : p.commits ≠ [] := ne_nil_of_length_pos (by omega)
  have hys : p.ys ≠ [] := ne_nil_of_length_pos (by omega)
  rw [collectOpenings]
  split
  · -- a single commitment has no openings
    rename_i hone
    have hpt : p.paths = [] := eq_nil_of_length_eq_zero (by omega)
    have hcd : p.commits.dropLast = [] := eq_nil_of_length_eq_zero (by rw [length_dropLast]; omega)
    have hyd : p.ys.dropLast = [] := eq_nil_of_length_eq_zero (by rw [length_dropLast]; omega)
    rw [hpt, hcd, hyd]
    rcases collectOpenings sha512 ps with e | _ | ⟨c, y, i⟩ <;> rfl
  · rw [mapM_lastIndex_eq hl.1, verifyLinks_eq hp hy hl.1]
    simp only [dropLast, hc, hys, hl.2, if_false, decide_true, ok_bind, Bool.not_true, Bool.false_eq_true]
    rcases collectOpenings sha512 ps with e | _ | ⟨c, y, i⟩ <;> rfl

theorem zip_openings (hp : commits.length = paths.length + 1) (hy : ys.length = commits.length) (hne : [] ∉ paths) :
    (commits.zip (ys.zip paths)).filterMap (fun (c, y, path) => path.getLast?.map fun i => (c, y, i)) =
      commits.dropLast.zip (ys.dropLast.zip (paths.filterMap getLast?)) := by
  induction paths generalizing commits ys with
  | nil => simp
  | cons path paths ih =>
    obtain ⟨c, commits, rfl⟩ : ∃ c t, commits = c :: t := exists_cons_of_length_pos (by omega)
    obtain ⟨y, ys, rfl⟩ : ∃ y t, ys = y :: t := exists_cons_of_length_pos (by omega)
    have hpt : path ≠ [] := fun h => hne (by simp [h])
    have hls : path.getLast? = some (path.getLast hpt) := getLast?_eq_some_getLast hpt
    have hcs : commits ≠ [] := ne_nil_of_length_pos (by simp at hp; omega)
    have hys : ys ≠ [] := ne_nil_of_length_pos (by simp at hp hy; omega)
    have ih' := ih (by simpa using hp) (by simpa using hy) fun h => hne (mem_cons_of_mem _ h)
    simp [zip_cons_cons, hls, dropLast_cons_of_ne_nil hcs, dropLast_cons_of_ne_nil hys, ih']

theorem length_filterMap_getLast (hne : [] ∉ paths) : (paths.filterMap getLast?).length = paths.length := by
  induction paths with
  | nil => rfl
  | cons p ps ih =>
    have hp : p ≠ [] := fun h => hne (by simp [h])
    rw [filterMap_cons, getLast?_eq_some_getLast hp]
    simpa using ih fun h => hne (mem_cons_of_mem _ h)

/-! ### All subproofs -/

section
variable (h : ∀ p ∈ ps, p.wellSized = true)
include h

theorem collectOpenings_all (hl : ∀ p ∈ ps, p.Linked sha512) :
    ∃ commits ys indices, collectOpenings sha512 ps = .ok (some (commits, ys, indices)) ∧
      commits.length = (ps.flatMap TraversalSubProof.openings).length ∧
      commits.zip (ys.zip indices) = ps.flatMap TraversalSubProof.openings := by
  induction ps with
  | nil => exact ⟨[], [], [], rfl, rfl, rfl⟩
  | cons p ps ih =>
    obtain ⟨commits, ys, indices, hc, hlen, hz⟩ := ih (fun q hq => h q (mem_cons_of_mem _ hq))
      fun q hq => hl q (mem_cons_of_mem _ hq)
    have hp := h p mem_cons_self
    have hlp := hl p mem_cons_self
    obtain ⟨hpl, hyl⟩ := TraversalSubProof.wellSized_iff.mp hp
    have hop : p.openings = _ := zip_openings hpl hyl hlp.1
    have hil := length_filterMap_getLast hlp.1
    have hcl : p.commits.dropLast.length = p.paths.length := by rw [length_dropLast]; omega
    have hy : p.ys.dropLast.length = p.paths.length := by rw [length_dropLast]; omega
    have hol : p.openings.length = p.paths.length := by
      rw [hop, length_zip, length_zip, hcl, hy, hil, Nat.min_self, Nat.min_self]
    refine ⟨_, _, _, by rw [collectOpenings_linked ps hp hlp, hc]; rfl, ?_, ?_⟩
    · rw [flatMap_cons, length_append, length_append, hol, hcl, hlen]
    · rw [flatMap_cons, hop, ← hz, zip_append (hy.trans hil.symm),
        zip_append (by rw [length_zip, hcl, hy, hil, Nat.min_self])]

theorem linked_of_collectOpenings {r : List Bytes × List Bytes × List UInt64}
    (hc : collectOpenings sha512 ps = .ok (some r)) : ∀ p ∈ ps, p.Linked sha512 := by
  induction ps generalizing r with
  | nil => simp
  | cons p ps ih =>
    have hp := h p mem_cons_self
    by_cases hne : [] ∈ p.paths
    · rw [collectOpenings_empty ps hp hne] at hc
      cases hc
    · by_cases hl : Links sha512 p.commits p.paths p.ys
      · rw [collectOpenings_linked ps hp ⟨hne, hl⟩] at hc
        rcases hrs : collectOpenings sha512 ps with e | _ | r'
        · rw [hrs] at hc
          cases hc
        · rw [hrs] at hc
          cases hc
        · exact forall_mem_cons.mpr ⟨⟨hne, hl⟩, ih (fun q hq => h q (mem_cons_of_mem _ hq)) hrs⟩
      · rw [collectOpenings_unlinked ps hp hne hl] at hc
        cases hc

theorem collectOpenings_panics : (∃ e, collectOpenings sha512 ps = .error e) ↔
      ∃ before p after, ps = before ++ p :: after ∧ (∀ b ∈ before, b.Linked sha512) ∧ [] ∈ p.paths := by
  induction ps with
  | nil => simp [collectOpenings]
  | cons p ps ih =>
    have hp := h p mem_cons_self
    have ih := ih fun q hq => h q (mem_cons_of_mem _ hq)
    by_cases hne : [] ∈ p.paths
    · exact iff_of_true ⟨_, collectOpenings_empty ps hp hne⟩ ⟨[], p, ps, rfl, by simp, hne⟩
    · by_cases hl : Links sha512 p.commits p.paths p.ys
      · have hrs : (∃ e, collectOpenings sha512 (p :: ps) = .error e) ↔ ∃ e, collectOpenings sha512 ps = .error e := by
          rw [collectOpenings_linked ps hp ⟨hne, hl⟩]
          rcases collectOpenings sha512 ps with e | r <;> simp [Except.map]
        rw [hrs, ih]
        constructor
        · rintro ⟨before, q, after, rfl, hb, hq⟩
          exact ⟨p :: before, q, after, rfl, forall_mem_cons.mpr ⟨⟨hne, hl⟩, hb⟩, hq⟩
        · rintro ⟨_ | ⟨b, before⟩, q, after, heq, hb, hq⟩
          · cases heq
            exact absurd hq hne
          · cases heq
            exact ⟨before, q, after, rfl, fun c hc => hb c (mem_cons_of_mem _ hc), hq⟩
      · refine iff_of_false ?_ ?_
        · rw [collectOpenings_unlinked ps hp hne hl]
          simp
        · rintro ⟨_ | ⟨b, before⟩, q, after, heq, hb, hq⟩
          · cases heq
            exact hne hq
          · cases heq
            exact hl (hb p mem_cons_self).2

end

/-! ### The verifiers -/

section
variable {prover : InclusionProver} {rootCommit : Bytes} {proof : TraversalProof}

theorem TraversalProof.wellSized_subProofs (h : proof.wellSized = true) : ∀ p ∈ proof.subProofs, p.wellSized = true := by
  simp only [TraversalProof.wellSized, decide_eq_true_eq, all_eq_true] at h
  exact h.2.2

theorem rooted_iff :
    proof.subProofs.all (fun p => p.commits.head? = some rootCommit) = true ↔ proof.Rooted rootCommit := by
  simp [TraversalProof.Rooted]

theorem verifyAgainst_unrooted (h : ¬proof.Rooted rootCommit) :
    verifyAgainst sha512 prover rootCommit proof = .ok .rejected := by
  rw [verifyAgainst, Bool.eq_false_iff.mpr (mt rooted_iff.mp h)]
  rfl

theorem Verdict.rejected_checked : OpeningsChecked prover proof .rejected := by
  rintro ⟨⟩

theorem verifyAgainst_checked_iff (hs : proof.wellSized = true) :
    (∀ v, verifyAgainst sha512 prover rootCommit proof = .ok v → OpeningsChecked prover proof v) ↔
      2 ≤ proof.openings.length ∨ ¬proof.Linked sha512 rootCommit := by
  have hsub := TraversalProof.wellSized_subProofs hs
  by_cases hr : proof.Rooted rootCommit
  · by_cases hl : ∀ p ∈ proof.subProofs, p.Linked sha512
    · obtain ⟨commits, ys, indices, hcol, hlen, hz⟩ := collectOpenings_all hsub hl
      have hlen : commits.length = proof.openings.length := hlen
      rw [or_iff_left (not_not_intro ⟨hs, hr, hl⟩), verifyAgainst, rooted_iff.mpr hr, hcol]
      by_cases ht : commits.length > 1
      · refine iff_of_true ?_ (by omega)
        simp only [Bool.not_true, Bool.false_eq_true, if_false, ok_bind, if_pos ht, ok.injEq]
        rintro v rfl hacc
        exact ⟨_, mem_singleton_self _, hacc, rfl, by rw [MultipleCheck.openings, hz]; exact Subperm.refl _⟩
      · refine iff_of_false (fun h => ?_) (by omega)
        obtain ⟨c, hc, -⟩ := h ⟨true, []⟩ (by simp [if_neg ht]) rfl
        exact not_mem_nil hc
    · refine iff_of_true (fun v hv => ?_) (.inr fun h => hl h.2.2)
      rw [verifyAgainst, rooted_iff.mpr hr] at hv
      obtain ⟨r, hcol, hv⟩ := bind_eq_ok.mp hv
      cases r with
      | none =>
        cases hv
        exact Verdict.rejected_checked
      | some r => exact absurd (linked_of_collectOpenings hsub hcol) hl
  · refine iff_of_true (fun v hv => ?_) (.inr fun h => hr h.2.1)
    rw [verifyAgainst_unrooted hr] at hv
    cases hv
    exact Verdict.rejected_checked

theorem verifyAgainst_returns_iff (hs : proof.wellSized = true) :
    (∃ v, verifyAgainst sha512 prover rootCommit proof = .ok v) ↔ ¬proof.ReachesEmptyPath sha512 rootCommit := by
  by_cases hr : proof.Rooted rootCommit
  · have hpn : proof.ReachesEmptyPath sha512 rootCommit ↔ ∃ e, collectOpenings sha512 proof.subProofs = .error e := by
      rw [collectOpenings_panics (TraversalProof.wellSized_subProofs hs)]
      exact ⟨fun h => h.2.2, fun h => ⟨hs, hr, h⟩⟩
    rw [hpn, verifyAgainst, rooted_iff.mpr hr]
    rcases collectOpenings sha512 proof.subProofs with e | _ | ⟨commits, ys, indices⟩
    · simp
    · exact iff_of_true ⟨_, rfl⟩ (by simp)
    · refine iff_of_true ?_ (by simp)
      exact ⟨_, apply_ite ok _ _ _ |>.symm⟩
  · exact iff_of_true ⟨_, verifyAgainst_unrooted hr⟩ fun h => hr h.2.1

theorem not_linked_of_sizes (h : proof.wellSized = false) : ¬proof.Linked sha512 rootCommit := by
  rintro ⟨hs, -⟩
  rw [h] at hs
  cases hs

section
variable {sha3 : Digest 32} {commitFuel : Nat} {t : LazyVectorCommitmentTree} {db : Db}

theorem LazyVectorCommitmentTree.verify_unsized (hs : proof.wellSized = false) :
    t.verify sha3 sha512 prover commitFuel db proof = .ok (.rejected, t, db) := by
  rw [verify, hs]
  rfl

theorem LazyVectorCommitmentTree.verify_error (hs : proof.wellSized = true) {e : Fault}
    (hc : LazyNode.commit sha3 sha512 prover t.tree false commitFuel t.root db = .error e) :
    t.verify sha3 sha512 prover commitFuel db proof = .error e := by
  rw [verify, hs, hc]
  rfl

theorem LazyVectorCommitmentTree.verify_sized (hs : proof.wellSized = true) {root : LazyNode} {db' : Db}
    (hc : LazyNode.commit sha3 sha512 prover t.tree false commitFuel t.root db = .ok (rootCommit, root, db')) :
    t.verify sha3 sha512 prover commitFuel db proof =
      (verifyAgainst sha512 prover rootCommit proof).map fun v => (v, { t with root }, db') := by
  rw [verify, hs, hc]
  simp only [Bool.not_true, Bool.false_eq_true, if_false, ok_bind]
  cases verifyAgainst sha512 prover rootCommit proof <;> rfl

end

end

end

/-! ### Soundness -/

/-- The verifiers check all openings of every proof they accept, except of a proof that passes the structural
    checks and has at most one opening: `VerifyMultiple` is not called on a single opening. -/
theorem openings_checked_iff (sha3 : Digest 32) (sha512 : Digest 64) (prover : InclusionProver)
    (proof : TraversalProof) : (∀ rootCommit,
      (∀ v, verifyTreeTraversalProof sha512 prover rootCommit proof = .ok v → OpeningsChecked prover proof v) ↔
        2 ≤ proof.openings.length ∨ ¬proof.Linked sha512 rootCommit) ∧
    ∀ (t : LazyVectorCommitmentTree) (db : Db) (commitFuel : Nat),
      (∀ v t' db', t.verify sha3 sha512 prover commitFuel db proof = .ok (v, t', db') →
        OpeningsChecked prover proof v) ↔ 2 ≤ proof.openings.length ∨
          ¬∃ rootCommit root db', LazyNode.commit sha3 sha512 prover t.tree false commitFuel t.root db =
            .ok (rootCommit, root, db') ∧ proof.Linked sha512 rootCommit := by
  cases hs : proof.wellSized with
  | false =>
    refine ⟨fun rootCommit => iff_of_true ?_ (.inr (not_linked_of_sizes hs)), fun t db commitFuel => iff_of_true ?_
      (.inr fun ⟨_, _, _, _, hl⟩ => not_linked_of_sizes hs hl)⟩
    · intro v hv
      rw [verifyTreeTraversalProof, hs] at hv
      cases hv
      exact Verdict.rejected_checked
    · intro v t' db' hv
      rw [verify_unsized hs] at hv
      cases hv
      exact Verdict.rejected_checked
  | true =>
    refine ⟨fun rootCommit => ?_, fun t db commitFuel => ?_⟩
    · rw [verifyTreeTraversalProof, hs]
      exact verifyAgainst_checked_iff hs
    · rcases hc : LazyNode.commit sha3 sha512 prover t.tree false commitFuel t.root db with e | ⟨rc, root, db'⟩
      · rw [verify_error hs hc]
        simp
      · have hiff : (∃ rootCommit root₁ db₁, (Except.ok (rc, root, db') : Except Fault (Bytes × LazyNode × Db)) =
            .ok (rootCommit, root₁, db₁) ∧ proof.Linked sha512 rootCommit) ↔ proof.Linked sha512 rc := by
          constructor
          · rintro ⟨_, _, _, ⟨⟩, hl⟩
            exact hl
          · exact fun hl => ⟨rc, root, db', rfl, hl⟩
        rw [hiff, ← verifyAgainst_checked_iff hs, verify_sized hs hc]
        cases verifyAgainst sha512 prover rc proof with
        | error e => simp [Except.map]
        | ok v =>
          simp only [Except.map, ok.injEq, Prod.mk.injEq]
          exact ⟨fun h w hw => h w _ _ ⟨hw, rfl, rfl⟩, fun h w _ _ hw => h w hw.1⟩

def InclusionProver.rejecting : InclusionProver := { InclusionProver.transparent with
  verifyMultiple := fun _ _ _ _ _ _ => false }

/-- A proof with one opening is accepted although the prover accepts nothing. -/
theorem single_opening_unchecked : let proof : TraversalProof := ⟨⟨[1], [1]⟩, [⟨[[1], [2]], [[2], [3]], [[5]]⟩]⟩
    proof.openings = [([1], [2], 5)] ∧
      verifyTreeTraversalProof (Digest.zeros 64) .rejecting [1] proof = .ok ⟨true, []⟩ ∧
      ¬∀ v, verifyTreeTraversalProof (Digest.zeros 64) .rejecting [1] proof = .ok v →
        OpeningsChecked .rejecting proof v := by
  refine ⟨rfl, rfl, fun h => ?_⟩
  obtain ⟨c, hc, -⟩ := h ⟨true, []⟩ rfl rfl
  exact not_mem_nil hc

/-! ### Totality -/

/-- A wire proof with one subproof, whose only path is empty. -/
def emptyPathBytes : Bytes :=
  [0, 0, 0, 0, 0, 0, 0, 1, 0, 0, 0, 2, 0, 0, 0, 1, 1, 0, 0, 0, 1, 2, 0, 0, 0, 2, 0, 0, 0, 1, 2, 0, 0, 0, 1, 3,
    0, 0, 0, 1, 0, 0, 0, 0]

theorem emptyPathBytes_decoded : TraversalProof.fromBytes .transparent emptyPathBytes =
    .ok ⟨⟨[1], [1]⟩, [⟨[[1], [2]], [[2], [3]], [[]]⟩]⟩ := by
  decide +kernel

end Quilibrium
