import Quilibrium.Theorems.LazyRun

/-! `Delete` of the store-backed tree is the in-memory `Delete`, if the branches it visits are ready for it (`Ready`)
    and the path index has the key under its full path only. -/

namespace Quilibrium
open Radix Function Except List LazyVectorCommitmentTree Trie

def LazyNode.inMemory : LazyNode → Option (Fin 64 → LazyNode)
  | .branch n children => if n.fullyLoaded then some children else none
  | _ => none

/-- The branches on the path, as far as it follows their prefixes: each one is marked as fully loaded and has all
    children in memory, or it is not marked and has no prefix. -/
def Ready : Node → LazyNode → List Nibble → Prop
  | .branch b slots, node, path =>
    (match node.inMemory with
      | some children => ∀ i, children i = .nil → slots i = .nil
      | none => b.pfx = []) ∧
    (b.pfx <+: path → ∀ i rest, path.drop b.pfx.length = i :: rest →
      Ready (slots i) ((node.inMemory.getD fun _ => .nil) i) rest)
  | _, _, _ => True

section
variable {sha3 : Digest 32} {tree : TreeId} {keys : List Bytes} {db db' : Db} {len : Nat} {q e : List Nibble}
  {t : Node} {b : BranchNode} {slots : Fin 64 → Node}

/-! ### A slot of a branch has changed -/

variable {size : Int} {node : LazyNode} {key : Bytes} {ws : List Write}

theorem deleteNode_slots (hcf : CollisionFree sha3 keys) {p : List Nibble} (hp : Spelled keys p)
    (hsl : ∀ m, Filed sha3 tree db (p ++ [m]) (slots m)) (ht : ∀ m, Placed len keys (p ++ [m]) (slots m))
    (hall : ∀ e, q <+: e → e ≠ [] → db.get (tree.pathKey e) ≠ none → p <+: e) :
    (∀ m, Filed sha3 tree (db.apply (deleteNode tree (generateKeyFromPath sha3 p) p)) (p ++ [m]) (slots m)) ∧
      ∀ e, q <+: e → e ≠ [] → (db.apply (deleteNode tree (generateKeyFromPath sha3 p) p)).get (tree.pathKey e) ≠ none →
        ∃ m, p ++ [m] <+: e ∧ slots m ≠ .nil := by
  have hfl : ∀ m, Filed sha3 tree (db.apply (deleteNode tree (generateKeyFromPath sha3 p) p)) (p ++ [m]) (slots m) := by
    refine fun m => (hsl m).frame (ht m) fun k hk => ?_
    obtain ⟨hpt, hnd⟩ := hk.ne_branch hcf hp
    refine db.get_apply_of_untouched fun w hw => ?_
    simp only [deleteNode, mem_cons, not_mem_nil, or_false] at hw
    rcases hw with rfl | rfl
    · exact hpt.symm
    · exact hnd.symm
  refine ⟨hfl, fun e he hne hget => ?_⟩
  have hget' := hget
  rw [get_deleteNode_path] at hget'
  split_ifs at hget' with heq
  · exact absurd rfl hget'
  · obtain ⟨r, rfl⟩ := hall e he hne hget'
    cases r with
    | nil => exact absurd (append_nil p) heq
    | cons m r =>
      have hm : p ++ [m] <+: p ++ m :: r := ⟨r, by simp⟩
      refine ⟨m, hm, fun hnil => hget ?_⟩
      have hF := hfl m
      rw [hnil] at hF
      exact hF _ hm hne

/-! ### Merging a branch -/

theorem Placed.collapse {pfx : List Nibble} (ht : ∀ m, Placed len keys (q ++ pfx ++ [m]) (slots m))
    (hsk : skel t = collapse pfx fun m => skel (slots m)) : Placed len keys q t := by
  refine ⟨?_, fun a ha => ?_⟩
  · rw [Shaped, hsk]
    exact collapse_canonical fun m => (ht m).shaped
  · rw [hsk, mem_collapse] at ha
    obtain ⟨m, hm⟩ := ha
    exact (ht m).keyed a hm

/-- A branch at slot path `q`, with all children in memory, after `Delete` worked in a slot and before it is written
    back. -/
structure Opened (sha3 : Digest 32) (tree : TreeId) (keys : List Bytes) (len : Nat) (q : List Nibble) (db db' : Db)
    (n : LazyBranchNode) (children : Fin 64 → LazyNode) (slots : Fin 64 → Node) : Prop where
  full : n.fullPrefix = q ++ n.pfx
  spelled : Spelled keys (q ++ n.pfx)
  mirrors : ∀ m, Mirrors (children m) (q ++ n.pfx ++ [m]) (slots m)
  loaded : ∀ m, children m = .nil → slots m = .nil
  placed : ∀ m, Placed len keys (q ++ n.pfx ++ [m]) (slots m)
  filed : ∀ m, Filed sha3 tree db' (q ++ n.pfx ++ [m]) (slots m)
  entries : ∀ e, q <+: e → e ≠ [] → db'.get (tree.pathKey e) ≠ none → q ++ n.pfx <+: e
  confined : Confined sha3 tree keys q db db'

namespace Opened
variable {n : LazyBranchNode} {children : Fin 64 → LazyNode} {m : Nibble}

section
variable (h : Opened sha3 tree keys len q db db' n children slots)
include h

theorem isNil (m : Nibble) : (children m).isNil = (slots m).isNil := by
  rw [Bool.eq_iff_iff, isNil_iff, isNil_iff]
  refine ⟨h.loaded m, fun hs => ?_⟩
  have hmm := h.mirrors m
  rw [hs] at hmm
  exact hmm.nil_inv

theorem occupied : occupied (fun m => skel (slots m)) = occupied children :=
  (occupied_map _ _ _).trans (by simp [Trie.occupied, h.isNil])

theorem confined_delete : Confined sha3 tree keys q db
      (db'.apply (deleteNode tree (generateKeyFromPath sha3 (q ++ n.pfx)) (q ++ n.pfx))) :=
  h.confined.trans (confined_deleteNode (.branch _ h.spelled (prefix_append _ _)) (prefix_append _ _))

section
variable (hcf : CollisionFree sha3 keys)
include hcf

theorem entries_delete (hq : q <+: e) (hne : e ≠ [])
    (hget : (db'.apply (deleteNode tree (generateKeyFromPath sha3 (q ++ n.pfx)) (q ++ n.pfx)
    )).get (tree.pathKey e) ≠ none) : ∃ m ∈ Trie.occupied children, q ++ n.pfx ++ [m] <+: e := by
  obtain ⟨m, hm, hs⟩ := (deleteNode_slots hcf h.spelled h.filed h.placed h.entries).2 e hq hne hget
  refine ⟨m, ?_, hm⟩
  rw [mem_occupied, ← isNil_eq_false, h.isNil, isNil_eq_false]
  exact hs

theorem entries_last (ho : Trie.occupied children = [m]) (hq : q <+: e) (hne : e ≠ [])
    (hget : (db'.apply (deleteNode tree (generateKeyFromPath sha3 (q ++ n.pfx)) (q ++ n.pfx))).get (tree.pathKey e) ≠
      none) : q ++ n.pfx ++ [m] <+: e := by
  obtain ⟨m', hm', he⟩ := h.entries_delete hcf hq hne hget
  rw [ho, mem_singleton] at hm'
  exact hm' ▸ he

theorem lands_none (ho : Trie.occupied children = []) :
    Lands sha3 tree keys q db (db'.apply (deleteNode tree (generateKeyFromPath sha3 (q ++ n.pfx)) (q ++ n.pfx)))
      .nil .nil := by
  refine ⟨trivial, fun e he hne => ?_, h.confined_delete⟩
  by_contra hget
  obtain ⟨m, hm, -⟩ := h.entries_delete hcf he hne hget
  exact not_mem_nil (ho ▸ hm)

theorem lands_leaf (ho : Trie.occupied children = [m]) {l : LeafNode} (hs : slots m = .leaf l) :
    Lands sha3 tree keys q db (db'.apply (deleteNode tree (generateKeyFromPath sha3 (q ++ n.pfx)) (q ++ n.pfx)))
      (.leaf l) (.leaf l) := by
  have hF := (deleteNode_slots hcf h.spelled h.filed h.placed h.entries).1 m
  rw [hs] at hF
  obtain ⟨hr, ⟨e, he, hne, hent⟩, hld⟩ := hF
  refine ⟨rfl, ⟨hr, ⟨e, prefix_of_append (prefix_of_append he), hne, hent⟩, fun e v he hne hget => ?_⟩,
    h.confined_delete⟩
  exact hld e v (h.entries_last hcf ho he hne (by rw [hget]; exact Option.some_ne_none _)) hne hget

theorem lands_branch (ho : Trie.occupied children = [m]) {c c' : LazyBranchNode} {grandchildren : Fin 64 → LazyNode}
    (hc : children m = .branch c grandchildren) (hpfx : c'.pfx = n.pfx ++ m :: c.pfx)
    (hfl : c'.fullPrefix = c.fullPrefix) {gslots : Fin 64 → Node} (hs : slots m = .branch c.stored gslots)
    (ht : Placed len keys q (.branch c'.stored gslots)) :
    Lands sha3 tree keys q db (db'.apply (deleteNode tree (generateKeyFromPath sha3 (q ++ n.pfx)) (q ++ n.pfx) ++
        insertNode tree (generateKeyFromPath sha3 c'.fullPrefix) c'.fullPrefix (.branch c' grandchildren)))
      (.branch c' grandchildren) (.branch c'.stored gslots) := by
  have hF := (deleteNode_slots hcf h.spelled h.filed h.placed h.entries).1 m
  have hmm := h.mirrors m
  rw [hs] at hF hmm
  rw [hc] at hmm
  obtain ⟨hcl, gslots', heq, hg⟩ := hmm
  obtain rfl : gslots = gslots' := (branch.inj heq).2
  have hsm : q ++ n.pfx ++ [m] ++ c.stored.pfx = q ++ c'.stored.pfx := by
    rw [show c'.stored.pfx = n.pfx ++ m :: c.stored.pfx from hpfx]
    simp
  have hfl' : c'.fullPrefix = q ++ c'.pfx := hfl.trans (hcl.trans hsm)
  obtain ⟨⟨-, -, -, hall⟩, hsl⟩ := hF
  rw [hsm] at hall hsl
  rw [Db.apply_append, insertNode_branch, hfl', c'.record_eq hfl']
  refine ⟨⟨hfl', gslots, rfl, fun i => hfl ▸ hg i⟩, ?_, ?_⟩
  · exact filed_put_branch hcf ht c'.stored_size_nonneg
      (fun e he hne hget => hall e (h.entries_last hcf ho he hne hget) hne hget) hsl
  · exact h.confined_delete.trans (confined_branch hcf _ ht.spelled (prefix_append _ _))

theorem lands_many {n' : LazyBranchNode} (hpfx : n'.pfx = n.pfx) (hfl : n'.fullPrefix = n.fullPrefix)
    (ht : Placed len keys q (.branch n'.stored slots)) : Lands sha3 tree keys q db
      (db'.apply (insertNode tree (generateKeyFromPath sha3 n'.fullPrefix) n'.fullPrefix (.branch n' children)))
      (.branch n' children) (.branch n'.stored slots) := by
  have hfl' : n'.fullPrefix = q ++ n'.pfx := by rw [hfl, hpfx, h.full]
  have hsm : q ++ n'.stored.pfx = q ++ n.pfx := congrArg (q ++ ·) hpfx
  rw [insertNode_branch, hfl', n'.record_eq hfl']
  refine ⟨⟨hfl', slots, rfl, fun m => ?_⟩, ?_, ?_⟩
  · rw [hfl', hpfx]
    exact h.mirrors m
  · exact filed_put_branch hcf ht n'.stored_size_nonneg (hsm ▸ h.entries) (hsm ▸ h.filed)
  · exact h.confined.trans (confined_branch hcf _ ht.spelled (prefix_append _ _))

theorem lands (size : Int) (sha512 : Digest 64) (prover : InclusionProver) :
    ∃ node ws t, LazyNode.afterRemove sha3 tree n size children = (node, ws) ∧
      Lands sha3 tree keys q db (db'.apply ws) node t ∧ (node = .nil → t = .nil) ∧
      skel t = collapse n.pfx (fun m => skel (slots m)) ∧
      ((∀ m, Coherent sha512 prover (slots m)) → Coherent sha512 prover t) := by
  have ho := h.occupied
  rcases hcs : Trie.occupied children with _ | ⟨m, _ | ⟨m', l⟩⟩
  · refine ⟨_, _, .nil, ?_, h.lands_none hcf hcs, fun _ => rfl, ?_, fun _ => trivial⟩
    · simp [LazyNode.afterRemove, hcs, h.full]
    · exact (collapse_none (ho.trans hcs)).symm
  · cases hc : children m with
    | nil =>
      have hm : m ∈ Trie.occupied children := by
        rw [hcs]
        exact mem_singleton_self m
      exact absurd hc (mem_occupied.mp hm)
    | leaf l =>
      have hs : slots m = .leaf l := by
        have hmm := h.mirrors m
        rw [hc] at hmm
        exact hmm
      refine ⟨_, _, .leaf l, ?_, h.lands_leaf hcf hcs hs, by rintro ⟨⟩, ?_, fun hcoh => hs ▸ hcoh m⟩
      · simp [LazyNode.afterRemove, hcs, hc, h.full]
      · exact (collapse_leaf (ho.trans hcs) (by rw [hs]; rfl)).symm
    | branch c grandchildren =>
      obtain ⟨gslots, hs⟩ : ∃ gslots, slots m = .branch c.stored gslots := by
        have hmm := h.mirrors m
        rw [hc] at hmm
        exact ⟨hmm.2.choose, hmm.2.choose_spec.1⟩
      obtain ⟨c', haf, hpfx, hfl, hcom⟩ : ∃ c' : LazyBranchNode,
          LazyNode.afterRemove sha3 tree n size children = (.branch c' grandchildren,
            deleteNode tree (generateKeyFromPath sha3 (q ++ n.pfx)) (q ++ n.pfx) ++
              insertNode tree (generateKeyFromPath sha3 c'.fullPrefix) c'.fullPrefix (.branch c' grandchildren)) ∧
          c'.pfx = n.pfx ++ m :: c.pfx ∧ c'.fullPrefix = c.fullPrefix ∧ c'.commitment = [] :=
        ⟨{ c with pfx := n.pfx ++ m :: c.pfx, commitment := [] },
          by simp [LazyNode.afterRemove, hcs, hc, h.full], rfl, rfl, rfl⟩
      have hsk : skel (.branch c'.stored gslots) = collapse n.pfx fun m => skel (slots m) := by
        rw [collapse_branch (ho.trans hcs) (by rw [hs, skel_branch]), skel_branch]
        exact congrArg (branch · _) hpfx
      refine ⟨_, _, _, haf, h.lands_branch hcf hcs hc hpfx hfl hs (.collapse h.placed hsk), by rintro ⟨⟩, hsk,
        fun hcoh => Coherent.cleared hcom ?_⟩
      have hcm := hcoh m
      rw [hs] at hcm
      exact hcm.2
  · obtain ⟨n', haf, hpfx, hfl, hcom⟩ : ∃ n' : LazyBranchNode,
        LazyNode.afterRemove sha3 tree n size children = (.branch n' children,
          insertNode tree (generateKeyFromPath sha3 n'.fullPrefix) n'.fullPrefix (.branch n' children)) ∧
        n'.pfx = n.pfx ∧ n'.fullPrefix = n.fullPrefix ∧ n'.commitment = [] :=
      ⟨{ n with
          commitment := []
          size := n.size - size
          leafCount := lazyCountLeaves children
          longestBranch := lazyCountLongest children }, by simp [LazyNode.afterRemove, hcs], rfl, rfl, rfl⟩
    have hsk : skel (.branch n'.stored slots) = collapse n.pfx fun m => skel (slots m) := by
      rw [collapse_many (ho.trans hcs), skel_branch]
      exact congrArg (branch · _) hpfx
    exact ⟨_, _, _, haf, h.lands_many hcf hpfx hfl (.collapse h.placed hsk), by rintro ⟨⟩, hsk,
      fun hcoh => Coherent.cleared hcom hcoh⟩

end

end

end Opened

/-! ### One `Delete` -/

theorem Ready.congr {node' : LazyNode} {path : List Nibble} (heq : node.inMemory = node'.inMemory)
    (h : Ready t node path) : Ready t node' path := by
  cases t with
  | nil => trivial
  | leaf n => trivial
  | branch b slots =>
    simp only [Ready, heq] at h ⊢
    exact h

theorem Filed.loadReady (hF : Filed sha3 tree db q (.branch b slots)) (hidx : Indexed db tree) {n : LazyBranchNode}
    {children : Fin 64 → LazyNode} (hm : Mirrors (.branch n children) q (.branch b slots)) {path : List Nibble}
    (hrd : Ready (.branch b slots) (.branch n children) path) :
    ∃ children₁, Quilibrium.loadSlots db tree q n.fullyLoaded children = .ok children₁ ∧
      (∀ m, Mirrors (children₁ m) (q ++ n.pfx ++ [m]) (slots m)) ∧ (∀ m, children₁ m = .nil → slots m = .nil) ∧
      ∀ m, LazyNode.inMemory (children₁ m) =
        LazyNode.inMemory (((LazyNode.inMemory (.branch n children)).getD fun _ => .nil) m) := by
  obtain ⟨hfl, slots', heq, hch⟩ := hm
  cases heq
  obtain ⟨hld, -⟩ := hrd
  cases hl : n.fullyLoaded with
  | true =>
    simp only [LazyNode.inMemory, hl, if_true] at hld ⊢
    exact ⟨children, rfl, fun m => hfl ▸ hch m, hld, fun m => rfl⟩
  | false =>
    simp only [LazyNode.inMemory, hl, Bool.false_eq_true, if_false] at hld ⊢
    have hpfx : n.pfx = [] := hld
    have hsl : ∀ i, Filed sha3 tree db (q ++ [i]) (slots i) := fun i => by
      have hi := hF.2 i
      rwa [show n.stored.pfx = [] from hld, append_nil] at hi
    refine ⟨fun i => unloaded (q ++ [i]) (slots i), ?_, fun m => ?_, fun m hnil => ?_, fun m => by dsimp only; cases slots m <;> rfl⟩
    · exact loadChildren_of_ok fun i => (hsl i).loadNode hidx (by simp)
    · rw [hpfx, append_nil]
      exact (hsl m).mirrors
    · cases hs : slots m with
      | nil => rfl
      | leaf l => simp [hs, unloaded] at hnil
      | branch c g => simp [hs, unloaded, NodeRecord.toNode] at hnil

theorem LazyNode.remove_lands (sha512 : Digest 64) (prover : InclusionProver)
    (hcf : CollisionFree sha3 keys) (hidx : Indexed db tree)
    (hen : ∀ e, e ≠ [] → db.get (tree.pathKey e) = some (.key (tree.nodeKey key)) → e = getFullPath key)
    (ht : Placed len keys q t) (hF : Filed sha3 tree db q t) (hp : q <+: getFullPath key) {fuel : Nat}
    (hfl : (getFullPath key).length < fuel + q.length) {node₁ : LazyNode}
    (hld : loadSlot db tree q node = .ok node₁) (hm : Mirrors node₁ q t) (hnil : node₁ = .nil → t = .nil)
    (hrd : Ready t node₁ ((getFullPath key).drop q.length)) {t₁ : Node}
    (hr : Node.remove key t (6 * q.length) = .ok (size, t₁)) :
    ∃ size' node' ws t', LazyNode.remove sha3 db tree key fuel node (6 * q.length) q = .ok (size', node', ws) ∧
      Lands sha3 tree keys q db (db.apply ws) node' t' ∧ (node' = .nil → t' = .nil) ∧ Placed len keys q t' ∧
      skel t' = skel t₁ ∧ (Coherent sha512 prover t → Coherent sha512 prover t') := by
  induction t generalizing q fuel node node₁ size t₁ with
  | nil =>
    obtain ⟨fuel, rfl⟩ := fuel_succ hfl hp.length_le
    obtain rfl := hm.nil_inv
    cases hr
    exact ⟨0, .nil, [], .nil, by simp [LazyNode.remove, hld], ⟨trivial, hF, .refl⟩,
      fun _ => rfl, ht, rfl, id⟩
  | leaf n =>
    obtain ⟨fuel, rfl⟩ := fuel_succ hfl hp.length_le
    obtain rfl := hm.leaf_inv fun h => by cases hnil h
    by_cases hkey : n.key = key
    · simp only [Node.remove, if_pos hkey] at hr
      cases hr
      refine ⟨n.size, .nil, deleteNode tree key (getFullPath key), .nil,
        by simp [LazyNode.remove, hld, if_pos hkey], ⟨trivial, fun e he hne => ?_, ?_⟩,
        fun _ => rfl, placed_nil len, rfl, fun _ => trivial⟩
      · rw [get_deleteNode_path]
        split_ifs with heq
        · rfl
        · by_contra hget
          obtain ⟨v, hv⟩ := Option.ne_none_iff_exists'.mp hget
          obtain ⟨rfl, -⟩ := hF.2.2 e v he hne hv
          exact heq (hen e hne (hkey ▸ hv))
      · exact confined_deleteNode (.leaf key (hkey ▸ ht.leaf_mem) hp) hp
    · simp only [Node.remove, if_neg hkey] at hr
      cases hr
      exact ⟨0, .leaf n, [], .leaf n, by simp [LazyNode.remove, hld, if_neg hkey],
        ⟨rfl, hF, .refl⟩, by rintro ⟨⟩, ht, rfl, id⟩
  | branch b slots ih =>
    obtain ⟨fuel, rfl⟩ := fuel_succ hfl hp.length_le
    obtain ⟨n, children, rfl, rfl, hfu, -⟩ := hm.branch_inv fun h => by cases hnil h
    obtain ⟨children₁, hsl, hch, hall, hmem⟩ := hF.loadReady hidx hm hrd
    rcases Node.remove_branch_inv hr with ⟨⟨m, hmis⟩, rfl, rfl⟩ | ⟨i, child, hnn, hnib, hr', rfl⟩
    · have hm' : prefixMismatch key (6 * q.length) n.pfx 0 = some m := hmis
      refine ⟨0, .branch { n with fullyLoaded := true } children₁, [], .branch n.stored slots,
        by simp [LazyNode.remove, hld, hsl, hm'],
        ⟨⟨hfu, slots, rfl, fun m => ?_⟩, hF, .refl⟩, by rintro ⟨⟩, ht, rfl, id⟩
      rw [show LazyBranchNode.fullPrefix { n with fullyLoaded := true } = q ++ n.pfx from hfu]
      exact hch m
    · have hpfx : n.pfx <+: (getFullPath key).drop q.length := prefixMismatch_eq_none.mp hnn
      have hpi : q ++ n.pfx ++ [i] <+: getFullPath key := by
        rw [getNextNibble_depth] at hnib
        rw [append_singleton_prefix_iff, length_append]
        exact ⟨(append_prefix_iff hp).mpr hpfx, hnib⟩
      obtain ⟨child₁, hld₁, hm₁, hnil₁⟩ := (hF.2 i).loadSlot hidx (by simp) (hch i)
      have hrd₁ : Ready (slots i) child₁ ((getFullPath key).drop (q ++ n.pfx ++ [i]).length) := by
        have hnx := hrd.2 hpfx i _ (drop_slot hpi)
        by_cases hc : children₁ i = .nil
        · rw [hall i hc]
          trivial
        · have hc₁ : children₁ i = child₁ := by
            rw [loadSlot, if_neg (by rwa [isNil_iff])] at hld₁
            exact ok.inj hld₁
          exact hnx.congr (hc₁ ▸ (hmem i).symm)
      rw [depth_slot q n.stored.pfx i] at hr'
      obtain ⟨size', node', ws, t', hrun, hln, hnil', hpla, hsk, hcoh⟩ := ih i (ht.slot i) (hF.2 i) hpi
        (fuel_slot hfl) hld₁ hm₁ hnil₁ hrd₁ hr'
      obtain ⟨hfi, het⟩ := hF.update_slot hcf ht hln
      have ho : Opened sha3 tree keys len q db (db.apply ws) { n with fullyLoaded := true }
          (update children₁ i node') (update slots i t') :=
        { full := hfu
          spelled := ht.spelled
          mirrors := update_slots₂ (fun m node t => Mirrors node (q ++ n.pfx ++ [m]) t) hln.mirrors fun m _ => hch m
          loaded := update_slots₂ (fun _ (node : LazyNode) (t : Node) => node = .nil → t = .nil) hnil' fun m _ => hall m
          placed := update_slots (fun m t => Placed len keys (q ++ n.pfx ++ [m]) t) hpla fun m _ => ht.slot m
          filed := hfi
          entries := het
          confined := hln.confined.mono (by rw [append_assoc]; exact prefix_append _ _) }
      obtain ⟨node'', ws', t'', haf, hln', hnil'', hsk', hc'⟩ := ho.lands hcf size' sha512 prover
      refine ⟨size', node'', ws ++ ws', t'', ?_, by rw [Db.apply_append]; exact hln', hnil'',
        .collapse ho.placed hsk', ?_, fun hc => hc' fun m => coherent_update hc.2 i (hcoh (hc.2 i)) m⟩
      · have hnn' : prefixMismatch key (6 * q.length) n.pfx 0 = none := hnn
        have hnib' : getNextNibble key (6 * q.length + n.pfx.length * branchBits) = some i := hnib
        have hrun' : LazyNode.remove sha3 db tree key fuel (children₁ i) (6 * (q ++ n.pfx ++ [i]).length)
            (q ++ n.pfx ++ [i]) = .ok (size', node', ws) := hrun
        simp only [LazyNode.remove, hld, ok_bind, hsl, hnn', hnib', depth_slot q n.pfx i, hrun', haf]
      · have hup : ∀ t : Node, (fun m => skel (update slots i t m)) =
            update (fun m => skel (slots m)) i (skel t) := fun t => map_update _ _ _ _ _
        rw [hsk', Node.skel_afterRemove, hup, hup, hsk]
        rfl

/-! ### `Delete` of the tree -/

theorem afterRemove_ne_rootKey {n : LazyBranchNode} {children : Fin 64 → LazyNode} {w : Write}
    (hw : w ∈ (LazyNode.afterRemove sha3 tree n size children).2) : w.key ≠ tree.rootKey := by
  unfold LazyNode.afterRemove at hw
  split at hw
  · exact deleteNode_ne_rootKey hw
  · split at hw
    · rcases mem_append.mp hw with hw | hw
      · exact deleteNode_ne_rootKey hw
      · exact insertNode_ne_rootKey hw
    · exact deleteNode_ne_rootKey hw
  · dsimp only at hw
    exact insertNode_ne_rootKey hw

theorem LazyNode.remove_ne_rootKey {fuel depth : Nat} {node' : LazyNode} (h : LazyNode.remove sha3 db tree key fuel node depth q = .ok (size, node', ws)) :
    ∀ w ∈ ws, w.key ≠ tree.rootKey := by
  induction fuel generalizing node depth q size node' ws with
  | zero => cases h
  | succ fuel ih =>
    obtain ⟨node₁, -, h⟩ := bind_eq_ok.mp h
    cases node₁ with
    | nil =>
      cases h
      exact fun w hw => absurd hw not_mem_nil
    | leaf n =>
      simp only at h
      split_ifs at h
      · cases h
        exact fun w => deleteNode_ne_rootKey
      · cases h
        exact fun w hw => absurd hw not_mem_nil
    | branch n children =>
      obtain ⟨children₁, -, h⟩ := bind_eq_ok.mp h
      simp only at h
      split at h
      · cases h
        exact fun w hw => absurd hw not_mem_nil
      · split at h
        · cases h
        · obtain ⟨⟨s, child, writes⟩, hr, h⟩ := bind_eq_ok.mp h
          cases h
          intro w hw
          rcases mem_append.mp hw with hw | hw
          · exact ih hr w hw
          · exact afterRemove_ne_rootKey hw

/-- `Delete`, directly or in a transaction of its own, which makes no difference in the end. -/
theorem LazyVectorCommitmentTree.delete_eq {t : LazyVectorCommitmentTree} (hkey : key ≠ [])
    (hr : LazyNode.remove sha3 db t.tree key (keyFuel key) t.root 0 [] = .ok (size, node, ws)) (inTxn : Bool) :
    ∃ db₁ txn, t.delete sha3 db (if inTxn then some [] else none) key = .ok ({ t with root := node }, db₁, txn, none) ∧
      db₁.apply (txn.getD []) = (db.apply ws).apply (saveRoot t.tree node) := by
  rw [delete, if_neg hkey, hr, ok_bind]
  cases inTxn with
  | false => exact ⟨_, none, rfl, rfl⟩
  | true =>
    refine ⟨_, some ws, rfl, ?_⟩
    exact (db.apply_comm fun w hw w' hw' => saveRoot_key hw' ▸ LazyNode.remove_ne_rootKey hr w hw).symm

theorem Node.remove_branch_ne_nil {depth : Nat} {t' : Node}
    (ht : Placed len keys q (.branch b slots)) (h : Node.remove key (.branch b slots) depth = .ok (size, t')) :
    t' ≠ .nil := by
  rcases Node.remove_branch_inv h with ⟨-, -, rfl⟩ | ⟨i, child, -, -, -, rfl⟩
  · rintro ⟨⟩
  · obtain ⟨m, a, hm, ha⟩ : ∃ m a, m ≠ i ∧ a ∈ (skel (slots m)).leaves := by
      obtain ⟨j, j', a, a', hj, ha, ha'⟩ := Canonical.two ht.shaped
      by_cases hji : j = i
      · exact ⟨j', a', fun h => hj (hji.trans h.symm), ha'⟩
      · exact ⟨j, a, hji, ha⟩
    intro hnil
    have hmem : a ∈ (skel (Node.afterRemove b size (update slots i child))).leaves := by
      rw [Node.skel_afterRemove, mem_collapse]
      exact ⟨m, by rw [update_of_ne hm]; exact ha⟩
    rw [hnil] at hmem
    cases hmem

theorem loadRoot_emptied (hws : ∀ w ∈ ws, w.key ≠ tree.rootKey) :
    loadRoot ((db.apply ws).apply (saveRoot tree .nil)) tree = loadRoot db tree := by
  have hget : ((db.apply ws).apply (saveRoot tree .nil)).get tree.rootKey = db.get tree.rootKey :=
    db.get_apply_of_untouched hws
  rw [loadRoot, loadRoot, hget]

end

section
variable {sha3 : Digest 32} {sha512 : Digest 64} {prover : InclusionProver} {keys : List Bytes} {len fuel : Nat}
  {t : LazyVectorCommitmentTree} {db : Db} {root : Node} {key : Bytes}

theorem matches_nil (hfl : 0 < fuel) (hnil : t.root = .nil) : Matches sha3 sha512 prover fuel t db ⟨.nil⟩ := by
  obtain ⟨fuel, rfl⟩ := fuel_succ hfl le_rfl
  refine ⟨⟨[], by rw [hnil]; rfl, rfl⟩, fun recalc => ⟨t, db, ?_⟩⟩
  rw [commit, if_pos (isNil_iff.mpr hnil)]
  rfl

theorem not_matches_leaf {n : LeafNode} (hfl : 0 < fuel) (hlf : t.root = .leaf n) :
    ¬Matches sha3 sha512 prover fuel t db ⟨.nil⟩ := by
  obtain ⟨fuel, rfl⟩ := fuel_succ hfl le_rfl
  rintro ⟨⟨leaves, hl, hnil⟩, -⟩
  rw [hlf] at hl
  cases hl
  cases hnil

/-- `Delete` of a key from a tree that is ready for it, whose path index has the key under its full path only: the
    tree has the leaves and the root commitment of the in-memory tree after the same `Delete`, and so has the tree in
    the store, unless the key was the last one. -/
theorem lazy_delete_refines (h : Represents sha3 len keys t db root) (hcf : CollisionFree sha3 keys) (hlen : 0 < len)
    (hfuel : pathLength len < fuel) (hcoh : Coherent sha512 prover root) {eager : VectorCommitmentTree}
    {err : Option String} (heager : VectorCommitmentTree.delete ⟨root⟩ key = .ok (eager, err))
    (hready : Ready root t.root (getFullPath key))
    (hentry : ∀ e, e ≠ [] → db.get (t.tree.pathKey e) = some (.key (t.tree.nodeKey key)) → e = getFullPath key)
    (inTransaction : Bool) :
    ∃ t' db₁ txn db', t.delete sha3 db (if inTransaction then some [] else none) key = .ok (t', db₁, txn, err) ∧
      db' = db₁.apply (txn.getD []) ∧ Matches sha3 sha512 prover fuel t' db' eager ∧
      (Matches sha3 sha512 prover fuel { t' with root := loadRoot db' t'.tree } db' eager ↔
        ∀ n, root = .leaf n → n.key ≠ key) := by
  by_cases hkey : key = []
  · simp only [VectorCommitmentTree.delete, if_pos hkey] at heager
    cases heager
    refine ⟨t, db, _, db, by rw [delete, if_pos hkey], ?_, ?_, ?_⟩
    · cases inTransaction <;> rfl
    · exact h.matches hcf hlen hfuel hcoh hcoh rfl
    · refine iff_of_true (h.reload.matches hcf hlen hfuel hcoh hcoh rfl) fun n hn hnk => ?_
      have hl := h.placed.shaped.key_length (a := n.toItem) (by simp [hn, skel])
      rw [hnk, hkey] at hl
      exact absurd hl (Nat.ne_of_lt hlen)
  · rw [VectorCommitmentTree.delete, if_neg hkey] at heager
    obtain ⟨⟨size, root₁⟩, hr, heager⟩ := bind_eq_ok.mp heager
    cases heager
    obtain ⟨size', node, ws, root', hrun, hln, hnil, hpla, hsk, hc'⟩ :=
      LazyNode.remove_lands sha512 prover hcf h.typed.indexed hentry h.placed h.filed nil_prefix
        (by simp [keyFuel] : (getFullPath key).length < keyFuel key + [].length) h.loadSlot h.mirrors h.loaded hready hr
    obtain ⟨db₁, txn, hd, hdb⟩ := t.delete_eq hkey hrun inTransaction
    have hc₁ : Coherent sha512 prover root₁ := Node.remove_coherent hcoh hr
    refine ⟨_, db₁, txn, _, hd, rfl, ?_⟩
    rw [hdb]
    by_cases hnd : node = .nil
    · obtain rfl : root₁ = .nil := by
        rw [hnil hnd] at hsk
        exact map_eq_nil.mp hsk.symm
      have hrt : loadRoot ((db.apply ws).apply (saveRoot t.tree node)) t.tree = unloaded [] root := by
        rw [hnd, loadRoot_emptied (LazyNode.remove_ne_rootKey hrun), h.saved]
      refine ⟨matches_nil (Nat.zero_lt_of_lt hfuel) hnd, ?_⟩
      cases root with
      | nil => exact iff_of_true (matches_nil (Nat.zero_lt_of_lt hfuel) hrt) fun _ hn => by cases hn
      | leaf n =>
        have hnk : n.key = key := by
          by_contra hnk
          simp [Node.remove, hnk] at hr
        exact iff_of_false (not_matches_leaf (Nat.zero_lt_of_lt hfuel) hrt) fun hn => hn n rfl hnk
      | branch b slots => exact absurd rfl (Node.remove_branch_ne_nil h.placed hr)
    · have hrep := hln.represents h.typed hpla hnd t.coveredPrefix
      refine ⟨hrep.matches hcf hlen hfuel (hc' hcoh) hc₁ hsk, iff_of_true
        (hrep.reload.matches hcf hlen hfuel (hc' hcoh) hc₁ hsk) fun n hn hnk => hnd ?_⟩
      rw [hn, Node.remove, if_pos hnk] at hr
      cases hr
      rw [map_eq_nil.mp hsk] at hln
      exact hln.mirrors.nil_inv

end

/-! ### Deletes of one tree -/

/-- After the last key is deleted, the stored root is still its leaf. -/
theorem deleted_root_is_stored :
    ((LazyVectorCommitmentTree.run Digest.padded (Digest.zeros 64) .transparent 4 (⟨.nil, zeroTree, []⟩, OrdMap.empty)
        [.insert ⟨[0], [7], [], 1⟩ false]).bind fun (t, db) => (t.delete Digest.padded db none [0]).bind fun (_, db, _) =>
          getAllLeaves db zeroTree 4 (loadRoot db zeroTree)).toOption = some [⟨⟨[0], [7], [], 1⟩, []⟩] ∧
      (VectorCommitmentTree.run (Digest.zeros 64) .transparent .empty
        [.insert ⟨[0], [7], [], 1⟩, .delete [0]]).toOption.map (·.getAllPreloadedLeaves) = some [] := by
  decide +kernel

def pairRoot (i j : Nibble) : Node := .branch ⟨[i], [], 2, 2, 1⟩ (Function.update
  (Function.update (fun _ => .nil) i (.leaf ⟨⟨[0], [7], [], 1⟩, []⟩)) j (.leaf ⟨⟨[1], [8], [], 1⟩, []⟩))

/-- A root in memory: whether it is marked as fully loaded, and which of its slots are loaded. -/
def LazyNode.rootSlots : LazyNode → Option (Bool × List Nibble)
  | .branch n children => some (n.fullyLoaded, Trie.occupied children)
  | _ => none

theorem pair_ready {node : LazyNode} {root : Node} (hm : Mirrors node [] root)
    (hsl : node.rootSlots = some (true, [0, 16])) (hske : skel root = skel (pairRoot 0 16)) (path : List Nibble) :
    Ready root node path := by
  cases node with
  | nil => cases hsl
  | leaf n => cases hsl
  | branch n children =>
    obtain ⟨-, slots, rfl, -⟩ := hm
    obtain ⟨hld, ho⟩ := Prod.mk.inj (Option.some.inj hsl)
    have hsk : ∀ i, skel (slots i) = skel _ := congrFun (branch.inj hske).2
    refine ⟨?_, fun _ i rest _ => ?_⟩
    · simp only [LazyNode.inMemory, hld, if_true]
      intro i hi
      have hmem : i ∉ occupied children := fun hmem => mem_occupied.mp hmem hi
      simp only [ho, mem_cons, not_mem_nil, or_false, not_or] at hmem
      refine map_eq_nil.mp ((hsk i).trans ?_)
      rw [update_of_ne hmem.2, update_of_ne hmem.1]
      rfl
    · -- every slot is empty or holds a leaf
      cases hs : slots i with
      | nil => trivial
      | leaf l => trivial
      | branch b c =>
        have h := hsk i
        rw [hs, update_apply, update_apply] at h
        split_ifs at h <;> cases h

theorem pair_state : ∃ t db root, run Digest.padded (Digest.zeros 64) .transparent 4
        (⟨.nil, zeroTree, []⟩, OrdMap.empty) (reloading.take 4) = .ok (t, db) ∧
      Represents Digest.padded 1 (LazyCall.keys reloading) t db root ∧ Coherent (Digest.zeros 64) .transparent root ∧
      skel root = skel (pairRoot 0 16) ∧ t.root.rootSlots = some (true, [0, 16]) ∧
      ∀ e, e ≠ [] → db.get (t.tree.pathKey e) = some (.key (t.tree.nodeKey [0])) → e = [0, 0] := by
  have hrc : EntriesReach Digest.padded (Digest.zeros 64) .transparent 4
      (⟨.nil, zeroTree, []⟩, OrdMap.empty) (reloading.take 4) := by
    obtain ⟨h, hrc⟩ := reloading_entriesReach
    exact ⟨h, fun s₁ h₁ => ⟨nofun, fun s₂ h₂ => ⟨nofun, fun s₃ h₃ => ⟨(((hrc s₁ h₁).2 s₂ h₂).2 s₃ h₃).1, fun _ _ => trivial⟩⟩⟩⟩
  obtain ⟨node, db, root, eager, hr, heg, hrep, hcoh, hsk, -⟩ := ((fresh_empty zeroTree).represents []).run
    (Digest.padded_collisionFree (by decide)) Nat.one_pos (by decide : pathLength 1 < 4) rfl trivial
    (holds_empty (Digest.zeros 64) .transparent 1) rfl
    (fun c hc => reloading_keys c (mem_of_mem_take hc)) hrc
  have hev : (run Digest.padded (Digest.zeros 64) .transparent 4
      (⟨.nil, zeroTree, []⟩, OrdMap.empty) (reloading.take 4)).toOption.map (fun s =>
        (s.1.root.rootSlots, s.2.entries.filter fun entry => entry.2 = .key (zeroTree.nodeKey [0]))) =
      some (some (true, [0, 16]), [(zeroTree.pathKey [], .key (zeroTree.nodeKey [0])),
        (zeroTree.pathKey [0, 0], .key (zeroTree.nodeKey [0]))]) := by decide +kernel
  rw [hr] at hev
  obtain ⟨hsl, hen⟩ := Prod.mk.inj (Option.some.inj hev)
  refine ⟨_, db, root, hr, hrep, hcoh, hsk.trans ?_, hsl, fun e he hget => ?_⟩
  · cases heg
    rfl
  · have hm : (zeroTree.pathKey e, Value.key (zeroTree.nodeKey [0])) ∈
        db.entries.filter fun entry => entry.2 = .key (zeroTree.nodeKey [0]) :=
      mem_filter.mpr ⟨OrdMap.get_eq_some.mp hget, by simp⟩
    rw [hen] at hm
    simp only [mem_cons, Prod.mk.injEq, and_true, not_mem_nil, or_false] at hm
    exact hm.elim (fun h => absurd (TreeId.pathKey_inj h) he) fun h => TreeId.pathKey_inj h

theorem lazy_delete_refines_pair :
    ∃ t db root eager t' db₁ txn db', LazyVectorCommitmentTree.run Digest.padded (Digest.zeros 64) .transparent 4
        (⟨.nil, zeroTree, []⟩, OrdMap.empty) (reloading.take 4) = .ok (t, db) ∧
      VectorCommitmentTree.delete ⟨root⟩ [0] = .ok (eager, none) ∧
      t.delete Digest.padded db (some []) [0] = .ok (t', db₁, txn, none) ∧ db' = db₁.apply (txn.getD []) ∧
      Matches Digest.padded (Digest.zeros 64) .transparent 4 t' db' eager ∧
      (Matches Digest.padded (Digest.zeros 64) .transparent 4 { t' with root := loadRoot db' t'.tree } db' eager ↔
        ∀ n, root = .leaf n → n.key ≠ [0]) := by
  obtain ⟨t, db, root, hrun, hr, hc, hsk, hsl, hen⟩ := pair_state
  have hk : ([0] : Bytes).length = 1 := rfl
  obtain ⟨size, root₁, hrem, -⟩ := Node.remove_skel hr.placed.shaped hk nil_prefix
  have heg : VectorCommitmentTree.delete ⟨root⟩ [0] = .ok (⟨root₁⟩, none) := by
    exact congrArg (· >>= _) hrem
  obtain ⟨t', db₁, txn, db', hd, hdb, hrs⟩ := lazy_delete_refines hr (Digest.padded_collisionFree (by decide))
    Nat.one_pos (by decide : pathLength 1 < 4) hc heg (pair_ready hr.mirrors hsl hsk _) hen true
  exact ⟨t, db, root, _, t', db₁, txn, db', hrun, heg, hd, hdb, hrs⟩

end Quilibrium
