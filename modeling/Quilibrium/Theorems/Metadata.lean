import Mathlib.Algebra.BigOperators.Fin
import Mathlib.Data.List.Fold
import Mathlib.Order.Lattice.Nat
import Quilibrium.Theorems.TreeRun

/-! The counters of an in-memory tree. `Insert` forgets the other children where it puts a leaf, and the size of an item
    that it replaces. -/

namespace Quilibrium
open Radix Function Except Trie List

def Node.height : Node → Nat
  | .branch _ children => (Finset.univ.sup fun i => Node.height (children i)) + 1
  | _ => 0

def Node.total (f : LeafNode → Int) (t : Node) : Int := (t.leaves.map f).sum

structure BranchNode.Counts (n : BranchNode) (children : Fin 64 → Node) : Prop where
  leafCount : n.leafCount = (Trie.branch n children).leaves.length
  size : n.size = Node.total (fun a => a.size) (.branch n children)
  longestBranch : n.longestBranch = Node.height (.branch n children)

def Node.Counted : Node → Prop
  | .branch n children => n.Counts children ∧ ∀ i, Node.Counted (children i)
  | _ => True

/-- Where `Insert` fills a slot or replaces its leaf, no slot of the branch holds a branch, and the sizes are the
    same. -/
def Node.Fits (new : Item) : Node → Nat → Prop
  | .branch n children, depth =>
    match prefixMismatch new.key depth n.pfx 0, getNextNibble new.key (depth + n.pfx.length * branchBits) with
    | none, some i =>
      match children i with
      | .nil => ∀ j, Node.height (children j) = 0
      | .leaf a => a.key = new.key → a.size = new.size ∧ ∀ j, Node.height (children j) = 0
      | .branch _ _ => Node.Fits new (children i) (depth + n.pfx.length * branchBits + branchBits)
    | _, _ => True
  | _, _ => True

/-! ### Sums and heights -/

section
variable {t t' : Node} {n : BranchNode} {children : Fin 64 → Node} {i j : Nibble} {f : LeafNode → Int} {new : Item}

theorem Node.total_branch : total f (.branch n children) = ∑ i, total f (children i) := by
  rw [Fin.sum_univ_def]
  simp [total, leaves, flatMap_def, map_flatten, sum_flatten, map_map, comp_def]

theorem Node.length_leaves (t : Node) : (t.leaves.length : Int) = total (fun _ => 1) t := by
  simp [total]

theorem Node.total_update : total f (.branch n (update children i t)) =
    total f (.branch n children) + (total f t - total f (children i)) := by
  have hcm : (fun j => total f (update children i t j)) = update (fun j => total f (children j)) i (total f t) :=
    funext fun j => apply_update (fun _ => total f) children i t j
  rw [total_branch, total_branch, hcm, Finset.sum_update_of_mem (Finset.mem_univ i),
    Finset.sum_eq_add_sum_sdiff_singleton_of_mem (Finset.mem_univ i) fun j => total f (children j)]
  omega

theorem Node.height_le_iff {m : Nat} : height (.branch n children) ≤ m + 1 ↔ ∀ i, height (children i) ≤ m := by
  rw [height, Nat.add_le_add_iff_right, Finset.sup_le_iff]
  exact ⟨fun h i => h i (Finset.mem_univ i), fun h i _ => h i⟩

theorem Node.height_lt (n : BranchNode) (children : Fin 64 → Node) (i : Nibble) :
    height (children i) < height (.branch n children) :=
  Nat.lt_succ_of_le (Finset.le_sup (f := fun i => height (children i)) (Finset.mem_univ i))

theorem Node.height_eq_one : height (.branch n children) = 1 ↔ ∀ i, height (children i) = 0 := by
  rw [← Nat.le_iff_lt_or_eq.trans (or_iff_right (by simp [height])), height_le_iff]
  simp

theorem Node.height_update (h : height (children i) ≤ height t) :
    height (.branch n (update children i t)) = max (height (.branch n children)) (height t + 1) := by
  refine Nat.le_antisymm ?_ (Nat.max_le.mpr ⟨?_, ?_⟩)
  · rw [← Nat.add_sub_cancel (n := max _ _) (m := 1), Nat.sub_add_comm (by omega), height_le_iff]
    intro j
    rcases eq_or_ne j i with rfl | hj
    · rw [update_self]
      omega
    · rw [update_of_ne hj]
      have := height_lt n children j
      omega
  · rw [height, height, Nat.add_le_add_iff_right]
    refine Finset.sup_mono_fun fun j _ => ?_
    rcases eq_or_ne j i with rfl | hj
    · rwa [update_self]
    · rw [update_of_ne hj]
  · have := height_lt n (update children i t) i
    rwa [update_self] at this

/-! ### Insertion -/

theorem Node.counted_update (h : ∀ i, Counted (children i)) : (∀ j, Counted (update children i t j)) ↔ Counted t := by
  refine ⟨fun h' => by simpa using h' i, fun ht j => ?_⟩
  rcases eq_or_ne j i with rfl | hj
  · rwa [update_self]
  · rw [update_of_ne hj]
    exact h j

structure Node.Grows (new : Item) (t t' : Node) (delta : Int) : Prop where
  added : delta = 0 ∨ delta = 1 ∧ total (fun a => a.size) t' = total (fun a => a.size) t + new.size
  leaves : (t'.leaves.length : Int) = t.leaves.length + delta
  higher : height t ≤ height t'

variable {len : Nat} {p : List Nibble} {delta : Int}

theorem Node.fork_counts (hij : i ≠ j) (n : BranchNode) (t : Node) (new : Item) :
    total f (.branch n (update (update (fun _ => .nil) i t) j (.leaf { new with commitment := [] }))) =
        total f t + f { new with commitment := [] } ∧
      height (.branch n (update (update (fun _ => .nil) i t) j (.leaf { new with commitment := [] }))) = height t + 1 := by
  constructor
  · rw [total_update, total_update, update_of_ne hij.symm, total_branch]
    simp [total]
  · rw [height_update (by simp [update_of_ne hij.symm, height]), height_update (by simp [height])]
    simp [height]

theorem Node.fork_grows (new : Item) (hij : i ≠ j) (hn : n.leafCount = t.leaves.length + 1)
    (hsz : n.size = total (fun a => a.size) t + new.size) (hlon : n.longestBranch = height t + 1) (ht : Counted t) :
    Grows new t (.branch n (update (update (fun _ => .nil) i t) j (.leaf { new with commitment := [] }))) 1 ∧
      Counted (.branch n (update (update (fun _ => .nil) i t) j (.leaf { new with commitment := [] }))) := by
  have hl := (fork_counts (f := fun _ => 1) hij n t new).1
  obtain ⟨htt, hh⟩ := fork_counts (f := fun a => a.size) hij n t new
  rw [← length_leaves, ← length_leaves] at hl
  refine ⟨⟨.inr ⟨rfl, htt⟩, hl, ?_⟩, ⟨?_, ?_, ?_⟩, ?_⟩
  · omega
  · rw [hn, hl]
  · rw [hsz, htt]
  · rw [hlon, hh, Nat.cast_succ]
  · have hnil : ∀ k, Counted (((fun _ => .nil) : Fin 64 → Node) k) := fun _ => trivial
    exact (counted_update ((counted_update hnil).mpr ht)).mpr trivial

section
variable (hcounts : n.Counts children) (hgrows : Node.Grows new (children i) t delta)
include hgrows

theorem Node.descend_grows (n n' : BranchNode) :
    Grows new (.branch n children) (.branch n' (update children i t)) delta where
  added := hgrows.added.imp_right fun ⟨hdl, htt⟩ => ⟨hdl, by
    rw [total_update, htt, total_branch, total_branch]
    omega⟩
  leaves := by
    have hl := hgrows.leaves
    rw [length_leaves, length_leaves] at hl ⊢
    rw [total_update, hl, total_branch, total_branch]
    omega
  higher := (height_update hgrows.higher).ge.trans' (Nat.le_max_left ..)

include hcounts

theorem Node.descend_counts (n' : BranchNode) (hl : n'.leafCount = n.leafCount + delta)
    (hs : n'.size = if delta ≠ 0 then n.size + new.size else n.size) : n'.Counts (update children i t) ↔
      (delta = 0 → total (fun a => a.size) t = total (fun a => a.size) (children i)) ∧
        n'.longestBranch = height (.branch n (update children i t)) := by
  have hlvs := (descend_grows hgrows n n').leaves
  have htt : total (fun a => (a.size : Int)) (.branch n' (update children i t)) = _ := total_update
  have hsz : n'.size = total (fun a => a.size) (.branch n' (update children i t)) ↔
      (delta = 0 → total (fun a => a.size) t = total (fun a => a.size) (children i)) := by
    have hn : n.size = total (fun a => a.size) (.branch n' children) := hcounts.size
    rcases hgrows.added with rfl | ⟨rfl, hadd⟩
    · simp only [true_imp_iff]
      omega
    · simp only [one_ne_zero, false_imp_iff, iff_true]
      omega
  refine ⟨fun h => ⟨hsz.mp h.size, h.longestBranch⟩, fun h => ⟨?_, hsz.mpr h.1, h.2⟩⟩
  rw [hlvs, hl, hcounts.leafCount]

theorem Node.descend_branch (ht : height t ≠ 0)
    (hsm : Counted t → delta = 0 → total (fun a => a.size) t = total (fun a => a.size) (children i)) :
    ((delta = 0 → total (fun a => a.size) t = total (fun a => a.size) (children i)) ∧
      longestAfterInsert n t = height (.branch n (update children i t))) ∧ Counted t ↔ Counted t := by
  refine ⟨And.right, fun h => ⟨⟨hsm h, ?_⟩, h⟩⟩
  have hn := hcounts.longestBranch
  rw [height_update hgrows.higher]
  cases t with
  | branch m ch =>
    have hm := h.1.longestBranch
    rw [longestAfterInsert]
    split <;> omega
  | _ => exact absurd rfl ht

omit hcounts

theorem Node.longest_leaf {a : LeafNode} (ht : t = .leaf a) :
    longestAfterInsert n t = height (.branch n (update children i t)) ↔ ∀ j, height (children j) = 0 := by
  subst ht
  have hlt : height (.leaf a) < height (.branch n children) := Nat.succ_pos _
  rw [height_update hgrows.higher, Nat.max_eq_left hlt, ← height_eq_one (n := n), longestAfterInsert]
  omega

end

theorem Node.insert_counted (hc : Shaped len p (skel t)) (hk : new.key.length = len) (hp : p <+: new.path)
    (ht : Counted t) (hins : insert new t (6 * p.length) = .ok (delta, t')) :
    Grows new t t' delta ∧ (Counted t' ↔ Fits new t (6 * p.length)) ∧
      (height t ≠ 0 → Counted t' → delta = 0 → total (fun a => a.size) t' = total (fun a => a.size) t) := by
  induction t generalizing p t' delta with
  | nil =>
    cases hins
    exact ⟨⟨.inr ⟨rfl, by simp [total]⟩, rfl, Nat.zero_le _⟩, Iff.rfl, fun h => absurd rfl h⟩
  | leaf n =>
    obtain hkey | har := hc.apart hk n.toItem (by simp [skel])
    · simp only [insert, if_pos hkey] at hins
      cases hins
      exact ⟨⟨.inl rfl, rfl, Nat.zero_le _⟩, Iff.rfl, fun h => absurd rfl h⟩
    · obtain ⟨i, j, hij, h, -⟩ := insert_leaf hc.1 hp har
      cases hins.symm.trans h
      obtain ⟨hgrows, hcnt⟩ := fork_grows (t := .leaf n) (n := ⟨_, [], n.size + new.size, 2, 1⟩) new hij rfl (by simp [total]) rfl trivial
      exact ⟨hgrows, iff_of_true hcnt trivial, fun h => absurd rfl h⟩
  | branch n children ih =>
    obtain ⟨hcounts, hch⟩ := ht
    have hend : ¬new.path <+: p ++ n.pfx := (Canonical.placed hc).branch_end fun a ha =>
      (hc.apart hk a ha).imp_left fun hkey => by rw [Item.path, Item.path, hkey]
    by_cases hq : n.pfx <+: new.path.drop p.length
    · obtain ⟨i, hpi, -, hd⟩ := insert_descend children hp hend hq
      obtain ⟨delta', inserted, hcl, -⟩ := insert_skel (hc.2 i) hk hpi
      cases hins.symm.trans (hd hcl)
      obtain ⟨hgrows, hiff, hsm⟩ := ih i (hc.2 i) hpi (hch i) hcl
      refine ⟨descend_grows hgrows n _, ?_, fun _ h hdl => ?_⟩
      · rw [Counted, counted_update hch, descend_counts hcounts hgrows _ rfl rfl]
        have hnn : prefixMismatch new.key (6 * p.length) n.pfx 0 = none := prefixMismatch_eq_none.mpr hq
        have hnib : getNextNibble new.key (6 * p.length + n.pfx.length * branchBits) = some i := by
          obtain ⟨s, hs⟩ := hpi
          rw [getNextNibble_depth, ← Item.path, ← hs]
          simp
        simp only [Fits, hnn, hnib, depth_slot p n.pfx i]
        cases hi : children i with
        | nil =>
          rw [hi] at hcl
          cases hcl
          simpa [Counted] using longest_leaf hgrows rfl
        | leaf a =>
          rw [hi] at hcl hiff
          by_cases hkey : a.key = new.key
          · simp only [insert, if_pos hkey] at hcl
            cases hcl
            rw [longest_leaf hgrows rfl]
            simp [Counted, hkey, total, eq_comm]
          · have hlf : Shaped len _ (skel (children i)) := hc.2 i
            rw [hi] at hlf
            have har := (hlf.apart hk a.toItem (by simp [skel])).resolve_left hkey
            obtain ⟨i', j', -, h, -⟩ := insert_leaf hlf.1 hpi har
            cases hcl.symm.trans h
            have hb := descend_branch hcounts hgrows (Nat.succ_ne_zero _) fun _ h => absurd h one_ne_zero
            rw [hi] at hb
            rw [hb, hiff]
            exact iff_of_true trivial fun h => absurd h hkey
        | branch c cs =>
          have hpos : height (children i) ≠ 0 := by simp [hi, height]
          have hne : height inserted ≠ 0 := by
            have := hgrows.higher
            omega
          have hb := (descend_branch hcounts hgrows hne (hsm hpos)).trans hiff
          rw [hi] at hb
          exact hb
      · have hsz := h.1.size
        rw [if_neg (not_not.mpr hdl), hcounts.size] at hsz
        exact hsz.symm
    · obtain ⟨i, j, hij, h, -⟩ := insert_split children hp hend hq
      cases hins.symm.trans h
      have hcnt : Counted (.branch { n with pfx := n.pfx.drop ((shared n.pfx (new.path.drop p.length)).length + 1) } children) :=
        ⟨⟨hcounts.leafCount, hcounts.size, hcounts.longestBranch⟩, hch⟩
      obtain ⟨hgrows, hcnt⟩ := fork_grows
        (n := ⟨_, [], n.size + new.size, n.leafCount + 1, n.longestBranch + 1⟩) new hij (by rw [hcounts.leafCount]; rfl)
        (by rw [hcounts.size]; rfl) (by rw [hcounts.longestBranch]; rfl) hcnt
      obtain ⟨m, hm⟩ := leaves_pfx hq
      exact ⟨⟨hgrows.added, hgrows.leaves, hgrows.higher⟩, iff_of_true hcnt (by simp [Fits, hm]), fun _ _ h => absurd h one_ne_zero⟩

/-! ### Removal -/

theorem countLeaves_eq (h : ∀ i, Node.Counted (children i)) :
    countLeaves children = (branch n children).leaves.length := by
  have hadd : countLeaves children =
      (finRange 64).foldl (fun leaves i => leaves + ((children i).leaves.length : Int)) 0 := by
    refine foldl_ext _ _ _ fun leaves i _ => ?_
    have hi := h i
    revert hi
    rcases children i with _ | a | ⟨c, ch⟩ <;> intro hi
    · simp
    · simp
    · simp [hi.1.leafCount]
  rw [hadd, Node.length_leaves, Node.total_branch, Fin.sum_univ_def, sum_eq_foldl, foldl_map]
  simp [Node.length_leaves]

theorem countLongest_eq (h : ∀ i, Node.Counted (children i)) :
    countLongest children = Node.height (.branch n children) := by
  have hm : countLongest children =
      ((finRange 64).foldl (fun longest i => max longest (Node.height (children i))) 0 : Nat) + 1 := by
    refine foldl_hom (fun longest : Nat => (longest : Int) + 1) fun longest i => ?_
    have hi := h i
    revert hi
    rcases children i with _ | a | ⟨c, ch⟩ <;> intro hi
    · simp [Node.height]
    · simp [Node.height]
    · simp only [hi.1.longestBranch]
      split <;> omega
  rw [hm, ← foldl_map (f := fun i => Node.height (children i)), foldl_eq_foldr]
  rfl

theorem Node.afterRemove_counted {size : Int} (h : ∀ i, Counted (children i))
    (hsz : n.size - size = total (fun a => a.size) (.branch n children)) :
    Counted (afterRemove n size children) ∧ total (fun a => a.size) (afterRemove n size children) = n.size - size := by
  have hfree : ∀ j ∉ occupied children, total (fun a => a.size) (children j) = 0 := fun j hj => by
    rw [not_not.mp (mt mem_occupied.mpr hj)]
    rfl
  rw [total_branch] at hsz
  rcases ho : occupied children with _ | ⟨i, _ | ⟨j, l⟩⟩ <;> rw [ho] at hfree <;> simp only [afterRemove, ho]
  · rw [hsz, Finset.sum_eq_zero fun j _ => hfree j (not_mem_nil)]
    exact ⟨trivial, rfl⟩
  · rw [hsz, Fintype.sum_eq_single i fun j hj => hfree j (mt mem_singleton.mp hj)]
    have hi := h i
    cases hch : children i with
    | branch c ch =>
      rw [hch] at hi
      exact ⟨⟨⟨hi.1.leafCount, hi.1.size, hi.1.longestBranch⟩, hi.2⟩, rfl⟩
    | _ => exact ⟨trivial, rfl⟩
  · rw [← total_branch] at hsz
    exact ⟨⟨⟨countLeaves_eq h, hsz, countLongest_eq h⟩, h⟩, hsz.symm⟩

theorem Node.remove_counted {key : Bytes} {depth : Nat} {size : Int} (ht : Counted t)
    (h : remove key t depth = .ok (size, t')) :
    Counted t' ∧ total (fun a => a.size) t' = total (fun a => a.size) t - size := by
  induction t generalizing depth size t' with
  | nil =>
    cases h
    exact ⟨trivial, by simp⟩
  | leaf n =>
    simp only [remove] at h
    split at h <;> cases h
    · exact ⟨trivial, by simp [total]⟩
    · exact ⟨trivial, by simp⟩
  | branch n children ih =>
    rcases remove_branch_inv h with ⟨-, rfl, rfl⟩ | ⟨i, child, -, -, hr, rfl⟩
    · exact ⟨ht, by simp⟩
    · obtain ⟨hc, htt⟩ := ih i (ht.2 i) hr
      rw [← ht.1.size]
      refine afterRemove_counted ((counted_update ht.2).mpr hc) ?_
      rw [total_update, htt, ht.1.size]
      omega

/-! ### Every run -/

theorem Node.Counted.metadata {t : VectorCommitmentTree} (h : t.root.Counted) :
    t.getMetadata = ((t.getAllPreloadedLeaves.length : Int), (t.root.height : Int)) := by
  obtain ⟨_ | a | ⟨n, children⟩⟩ := t
  · rfl
  · rfl
  · exact Prod.ext h.1.leafCount h.1.longestBranch

def TreeCall.Edits (len : Nat) (c : TreeCall) : Prop := c.KeyLength len ∧ ∀ recalculate, c ≠ .commit recalculate

variable {sha512 : Digest 64} {prover : InclusionProver} {b : Bytes → Option Item}

theorem Holds.call_counted {t t' : VectorCommitmentTree} (h : Holds sha512 prover len b t) (hl : 0 < len)
    (ht : t.root.Counted) {c : TreeCall} (hc : c.Edits len) (hcall : t.call sha512 prover c = .ok t') :
    t'.root.Counted ↔ ∀ new, c = .insert new → t.root.Fits new 0 := by
  cases c with
  | insert new =>
    have hne : new.key ≠ [] := ne_nil_of_length_pos (hc.1.symm ▸ hl)
    simp only [VectorCommitmentTree.call, VectorCommitmentTree.insert, if_neg hne] at hcall
    cases hins : Node.insert new t.root 0 with
    | error f => rw [hins] at hcall; cases hcall
    | ok r =>
      rw [hins] at hcall
      cases hcall
      have := (Node.insert_counted h.shaped hc.1 nil_prefix ht hins).2.1
      simpa using this
  | delete key =>
    have hne : key ≠ [] := ne_nil_of_length_pos (hc.1.symm ▸ hl)
    simp only [VectorCommitmentTree.call, VectorCommitmentTree.delete, if_neg hne] at hcall
    cases hr : Node.remove key t.root 0 with
    | error f => rw [hr] at hcall; cases hcall
    | ok r =>
      rw [hr] at hcall
      cases hcall
      exact iff_of_true (Node.remove_counted ht hr).1 fun _ hn => by cases hn
  | commit recalc => exact absurd rfl (hc.2 recalc)

end

/-- The counters of every branch are right throughout a run exactly if each `Insert` of it fits the tree that it finds. -/
theorem metadata_counted_iff (sha512 : Digest 64) (prover : InclusionProver) {len : Nat} (hlen : 0 < len)
    {calls : List TreeCall} (hcalls : ∀ c ∈ calls, c.Edits len) :
    (∀ done, done <+: calls → ∃ t, VectorCommitmentTree.run sha512 prover .empty done = .ok t ∧ t.root.Counted ∧
      t.getMetadata = ((t.getAllPreloadedLeaves.length : Int), (t.root.height : Int))) ↔
      ∀ done new, done ++ [.insert new] <+: calls → ∀ t, VectorCommitmentTree.run sha512 prover .empty done = .ok t →
        t.root.Fits new 0 := by
  induction calls using reverseRecOn with
  | nil =>
    refine iff_of_true (fun done hdn => ⟨.empty, ?_, trivial, rfl⟩) fun done new h => ?_
    · rw [prefix_nil.mp hdn]
      rfl
    · exact absurd (prefix_nil.mp h) (by simp)
  | append_singleton calls c ih =>
    have hc := hcalls c (by simp)
    have hcalls : ∀ d ∈ calls, d.Edits len := fun d hd => hcalls d (mem_append_left _ hd)
    obtain ⟨t, hr, h⟩ := (holds_empty sha512 prover len).run hlen fun d hd => (hcalls d hd).1
    obtain ⟨t', hcall, -⟩ := h.call hlen hc.1
    have hr' : VectorCommitmentTree.run sha512 prover .empty (calls ++ [c]) = .ok t' := by
      rw [VectorCommitmentTree.run, foldlM_append]
      simp only [VectorCommitmentTree.run] at hr
      rw [hr, ok_bind, foldlM_cons, hcall]
      rfl
    simp only [prefix_concat_iff, or_imp, forall_and, forall_eq, ih hcalls]
    refine and_congr_left fun hft => ?_
    obtain ⟨t₀, hr₀, hcnt, -⟩ := (ih hcalls).mpr hft calls prefix_rfl
    cases hr.symm.trans hr₀
    have hst := h.call_counted hlen hcnt hc hcall
    constructor
    · rintro ⟨t₁, hr₁, hc₁, -⟩ done new heq
      cases hr'.symm.trans hr₁
      obtain ⟨rfl, hnew⟩ := append_inj' heq rfl
      intro t₂ hr₂
      cases hr.symm.trans hr₂
      exact hst.mp hc₁ new (singleton_inj.mp hnew).symm
    · intro hnew
      have hc' := hst.mpr fun new hc => hnew calls new (by rw [hc]) t hr
      exact ⟨t', hr', hc', hc'.metadata⟩

/-- A fourth key next to a branch of three, and a key that gets a larger item. -/
theorem insert_miscounts : ∃ t t', VectorCommitmentTree.run (Digest.zeros 64) .transparent .empty
        [.insert ⟨[0], [], [], 1⟩, .insert ⟨[1], [], [], 1⟩, .insert ⟨[4], [], [], 1⟩, .insert ⟨[8], [], [], 1⟩] =
          .ok t ∧ t.getMetadata = (4, 1) ∧ t.root.height = 2 ∧
      VectorCommitmentTree.run (Digest.zeros 64) .transparent .empty
        [.insert ⟨[0], [], [], 1⟩, .insert ⟨[4], [], [], 1⟩, .insert ⟨[0], [], [], 5⟩] = .ok t' ∧ ¬t'.root.Counted :=
  ⟨_, _, rfl, rfl, by decide +kernel, rfl, fun h => absurd h.1.size (by decide +kernel)⟩

theorem metadata_counted_two : ∃ t, VectorCommitmentTree.run (Digest.zeros 64) .transparent .empty
      [.insert ⟨[0], [], [], 1⟩, .insert ⟨[4], [], [], 1⟩, .delete [0]] = .ok t ∧ t.root.Counted ∧
        t.getMetadata = ((t.getAllPreloadedLeaves.length : Int), (t.root.height : Int)) := by
  refine (metadata_counted_iff (Digest.zeros 64) .transparent (by decide : 0 < 1) ?_).mpr ?_ _ prefix_rfl
  · simp [TreeCall.Edits, TreeCall.KeyLength]
  · rintro (_ | ⟨a, _ | ⟨b, done⟩⟩) new ⟨rest, hrs⟩ t ht
    · cases ht
      trivial
    · cases hrs
      cases ht
      trivial
    · rcases done with _ | ⟨c, done⟩ <;> simp at hrs

end Quilibrium
