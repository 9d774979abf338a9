import Quilibrium.Theorems.LazyTree

/-! `Insert` of the store-backed tree is the in-memory `Insert`, as long as the entries of a leaf that it pushes down
    reach below the new branch. -/

namespace Quilibrium
open Radix Function Except List Option LazyNode Trie Item

def Item.fresh (new : Item) : LeafNode := { new with commitment := [] }

/-! ### The cases of `Insert` -/

section
variable (sha3 : Digest 32) {tree : TreeId} {db : Db} (fuel : Nat) {q : List Nibble} {new : Item} (sizeDelta : Int)
  {node : LazyNode}

theorem LazyNode.insert_empty (hload : loadSlot db tree q node = .ok .nil) :
    insert sha3 db tree new sizeDelta (fuel + 1) node (6 * q.length) q =
      .ok (1, .leaf new.fresh, file tree new.key (.leaf new.fresh) new.path) := by
  simp [insert, hload, insertNode_leaf, path, fresh]

section
variable {n : LeafNode} (hload : loadSlot db tree q node = .ok (.leaf n))
include hload

theorem LazyNode.insert_replace (hk : n.key = new.key) :
    insert sha3 db tree new sizeDelta (fuel + 1) node (6 * q.length) q =
      .ok (0, .leaf new.fresh, file tree new.key (.leaf new.fresh) new.path) := by
  simp [insert, hload, hk, insertNode_leaf, path, fresh]

theorem LazyNode.insert_fork (hn : q <+: n.path) (hp : q <+: new.path) (hlen : n.key.length = new.key.length)
    (hne : n.key ≠ new.key) {s : List Nibble} (hs : shared (n.path.drop q.length) (new.path.drop q.length) = s) :
    ∃ i j, i ≠ j ∧ q ++ s ++ [i] <+: n.path ∧ q ++ s ++ [j] <+: new.path ∧
      Radix.insert path new (.leaf n.toItem) q.length = fork s i (.leaf n.toItem) j (.leaf new) ∧
      ∃ br : LazyBranchNode, br.pfx = s ∧ br.fullPrefix = q ++ s ∧ br.commitment = [] ∧ br.fullyLoaded = true ∧
        insert sha3 db tree new sizeDelta (fuel + 1) node (6 * q.length) q =
          .ok (1, .branch br (update (update (fun _ => .nil) i (.leaf n)) j (.leaf new.fresh)),
            file tree new.key (.leaf new.fresh) new.path ++
              file tree (generateKeyFromPath sha3 (q ++ s)) br.record (q ++ s)) := by
  have hpt : n.toItem.path ≠ new.path := getFullPath_ne hlen hne
  have hl : n.toItem.path.length = new.path.length := by
    rw [path, path, getFullPath_length, getFullPath_length, hlen]
  obtain ⟨i, j, hij, e, hi, hj, hpi, hpj⟩ := insert_leaf_fork hp hn (apart_of_length hl hpt)
  rw [hs] at e hi hj hpi hpj
  refine ⟨i, j, hij, hpi, hpj, e,
    { pfx := s, commitment := [], size := n.size + sizeDelta, leafCount := 2, longestBranch := 1, fullPrefix := q ++ s,
      fullyLoaded := true }, rfl, rfl, rfl, rfl, ?_⟩
  simp only [path] at hi hj hs
  have hd := @getNibblesUntilDiverge_eq n.key new.key q.length
    (fun h => hij (some.inj (hi.symm.trans ((hs ▸ h).trans hj))))
  simp [insert, hload, if_neg hne, hd, hs, ← getFullPath_getElem?, hi, hj, setChild, insertNode_leaf, insertNode_branch, path,
    fresh]

end

section
variable {n : LazyBranchNode} {ch ch₁ : Fin 64 → LazyNode}
    (hload : loadSlot db tree q node = .ok (.branch n ch))
include hload

section
variable (hslots : loadSlots db tree n.fullPrefix n.fullyLoaded ch = .ok ch₁)
include hslots

theorem LazyNode.insert_split (hfl : n.fullPrefix = q ++ n.pfx) (hp : q <+: new.path)
    (hl : (q ++ n.pfx).length < new.path.length) (hq : ¬n.pfx <+: new.path.drop q.length) {s : List Nibble}
    (hs : shared n.pfx (new.path.drop q.length) = s) (t : Fin 64 → Trie 64 (List Nibble) Item) :
    ∃ i j rest, i ≠ j ∧ n.pfx = s ++ i :: rest ∧ q ++ s ++ [j] <+: new.path ∧
      Radix.insert path new (.branch n.pfx t) q.length = fork s i (.branch rest t) j (.leaf new) ∧
      ∃ br n' : LazyBranchNode, br.pfx = s ∧ br.fullPrefix = q ++ s ∧ br.commitment = [] ∧ br.fullyLoaded = true ∧
        n'.stored = { n.stored with pfx := rest } ∧ n'.fullPrefix = q ++ s ++ [i] ++ n'.pfx ∧ n'.fullyLoaded = true ∧
        insert sha3 db tree new sizeDelta (fuel + 1) node (6 * q.length) q =
          .ok (1, .branch br (update (update (fun _ => .nil) i (.branch n' ch₁)) j
              (.leaf new.fresh)),
            deleteNode tree (generateKeyFromPath sha3 n'.fullPrefix) n'.fullPrefix ++
              file tree new.key (.leaf new.fresh) (q ++ s ++ [j]) ++
              file tree (generateKeyFromPath sha3 n'.fullPrefix) n'.record n'.fullPrefix ++
              file tree (generateKeyFromPath sha3 (q ++ s)) br.record (q ++ s)) := by
  obtain ⟨i, j, hij, e, hi, hj, hpfx, hpj⟩ := insert_branch_fork t hp (not_prefix_of_length hl) hq
  rw [hs] at e hi hj hpfx hpj
  have happ : q ++ s ++ [i] ++ n.pfx.drop (s.length + 1) = q ++ n.pfx := by
    conv_rhs => rw [hpfx]
    simp
  refine ⟨i, j, n.pfx.drop (s.length + 1), hij, hpfx, hpj, e,
    { pfx := s, commitment := [], size := n.size + sizeDelta, leafCount := n.leafCount + 1,
      longestBranch := n.longestBranch + 1, fullPrefix := q ++ s, fullyLoaded := true },
    { n with pfx := n.pfx.drop (s.length + 1), fullPrefix := q ++ n.pfx, fullyLoaded := true },
    rfl, rfl, rfl, rfl, rfl, happ.symm, rfl, ?_⟩
  have hm := prefixMismatch_eq new.key q.length n.pfx 0
  have htk : n.pfx.take s.length = s := (prefix_iff_eq_take.mp (hs ▸ shared_prefix_left _ _)).symm
  simp only [Nat.add_zero, Nat.zero_add] at hm
  simp only [path] at hi hj hs
  rw [hs, hi, hj] at hm
  rw [hfl] at hslots
  simp only [insert, hload, hslots, ok_bind, hm, htk, happ, hfl, insertNode_leaf, insertNode_branch, fresh]

theorem LazyNode.insert_descend (hfl : n.fullPrefix = q ++ n.pfx) (hp : q <+: new.path)
    (hl : (q ++ n.pfx).length < new.path.length) (hq : n.pfx <+: new.path.drop q.length)
    (t : Fin 64 → Trie 64 (List Nibble) Item) :
    ∃ i, q ++ n.pfx ++ [i] <+: new.path ∧ Radix.insert path new (.branch n.pfx t) q.length =
        .branch n.pfx (update t i (Radix.insert path new (t i) (q ++ n.pfx ++ [i]).length)) ∧
      ∀ {delta : Int} {inserted : LazyNode} {ws : List Write},
        insert sha3 db tree new sizeDelta fuel (ch₁ i) (6 * (q ++ n.pfx ++ [i]).length)
          (q ++ n.pfx ++ [i]) = .ok (delta, inserted, ws) →
        ∃ n' : LazyBranchNode, n'.pfx = n.pfx ∧ n'.fullPrefix = q ++ n.pfx ∧ n'.commitment = [] ∧
          n'.fullyLoaded = true ∧ insert sha3 db tree new sizeDelta (fuel + 1) node (6 * q.length) q =
            .ok (delta, .branch n' (update ch₁ i inserted),
              ws ++ file tree (generateKeyFromPath sha3 (q ++ n.pfx)) n'.record (q ++ n.pfx)) := by
  obtain ⟨i, e, hi, hpi⟩ := insert_branch_descend t hp (not_prefix_of_length hl) hq
  refine ⟨i, hpi, e, fun {delta inserted ws} h => ⟨{ n with
      commitment := []
      size := n.size + sizeDelta
      leafCount := n.leafCount + delta
      longestBranch := lazyLongestAfterInsert { n with fullPrefix := q ++ n.pfx, fullyLoaded := true } inserted
      fullPrefix := q ++ n.pfx
      fullyLoaded := true }, rfl, rfl, rfl, rfl, ?_⟩⟩
  have hnn := prefixMismatch_eq_none.mpr hq
  have hnib : getNextNibble new.key (6 * q.length + n.pfx.length * branchBits) = some i := by
    rw [getNextNibble_depth]
    exact hi
  rw [hfl] at hslots
  simp only [insert, hload, hslots, ok_bind, hnn, hnib, depth_slot q n.pfx i, hfl, h, insertNode_branch]

end

end

end

/-! ### What `Insert` files -/

/-- The entries of every other leaf reach the point where the new path leaves that of the leaf, and one of them goes
    on. -/
def Reaches (db : Db) (tree : TreeId) (new : Item) : Prop :=
  ∀ n : LeafNode, db.get (tree.nodeKey n.key) = some (.node (.leaf n)) → n.key ≠ new.key →
    (∀ e, e ≠ [] → db.get (tree.pathKey e) = some (.key (tree.nodeKey n.key)) →
      (shared n.path new.path).length ≤ e.length) ∧
    ∃ e, db.get (tree.pathKey e) = some (.key (tree.nodeKey n.key)) ∧ (shared n.path new.path).length < e.length

/-- An entry that leads to a key lies on its path. -/
def EntriesLead (db : Db) (tree : TreeId) (keys : List Bytes) : Prop :=
  ∀ e k, e ≠ [] → k ∈ keys → db.get (tree.pathKey e) = some (.key (tree.nodeKey k)) → e <+: getFullPath k

section
variable {sha3 : Digest 32} {tree : TreeId} {keys : List Bytes} {db db' : Db} {len : Nat} {q : List Nibble} {t t' : Node}
  {new : Item}

theorem Filed.entriesLead (hcf : CollisionFree sha3 keys) (hF : Filed sha3 tree db q t) (ht : Placed len keys q t)
    {e : List Nibble} {k : Bytes} (hq : q <+: e) (he : e ≠ []) (hk : k ∈ keys)
    (hget : db.get (tree.pathKey e) = some (.key (tree.nodeKey k))) : e <+: getFullPath k := by
  induction t generalizing q with
  | nil =>
    rw [hF e hq he] at hget
    cases hget
  | leaf n =>
    obtain ⟨hv, hp⟩ := hF.2.2 e _ hq he hget
    rw [TreeId.nodeKey_inj (Value.key.inj hv)]
    exact hp
  | branch b slots ih =>
    obtain ⟨⟨-, -, hent, hall⟩, hslots⟩ := hF
    obtain ⟨r, rfl⟩ := hall e hq he (by rw [hget]; exact some_ne_none _)
    cases r with
    | nil =>
      rw [append_nil] at he hget
      rw [hent he] at hget
      exact absurd (TreeId.nodeKey_inj (Value.key.inj (some.inj hget))) (hcf.apart _ _ ht.spelled hk)
    | cons i r => exact ih i (hslots i) (ht.slot i) ⟨r, by simp⟩

theorem Placed.insert (ht : Placed len keys q t) (hk : new.key.length = len) (hnew : new.key ∈ keys)
    (hp : q <+: new.path) (hsk : skel t' = insert path new (skel t) q.length) : Placed len keys q t' := by
  have hl : new.path.length = pathLength len := by rw [path, getFullPath_length, hk]
  refine ⟨?_, fun a ha => ?_⟩
  · rw [Shaped, hsk]
    exact insert_canonical ht.shaped hp hl
  · rw [hsk, mem_insert ht.shaped hp hl] at ha
    rcases ha with rfl | ⟨ha, -⟩
    · exact hnew
    · exact ht.keyed a ha

theorem lands_fresh (hnew : new.key ∈ keys) (hp : q <+: new.path) (hne : new.path ≠ [])
    (hall : ∀ e v, q <+: e → e ≠ [] → db.get (tree.pathKey e) = some v →
      v = .key (tree.nodeKey new.key) ∧ e <+: new.path) :
    Lands sha3 tree keys q db (db.apply (file tree new.key (.leaf new.fresh) new.path)) (.leaf new.fresh)
      (.leaf new.fresh) where
  mirrors := rfl
  filed := filed_put_leaf hall hp hne prefix_rfl
  confined := confined_leaf _ hnew hp hp

section
variable (hcf : CollisionFree sha3 keys)
include hcf

theorem lands_fork {n : LeafNode} (hF : Filed sha3 tree db q (.leaf n)) (ht : Placed len keys q (.leaf n))
    (hnew : new.key ∈ keys) (hne : n.key ≠ new.key) (hld : EntriesLead db tree keys) (hrc : Reaches db tree new)
    {br : LazyBranchNode} (hfl : br.fullPrefix = q ++ br.pfx) (hs : shared n.path new.path = q ++ br.pfx)
    {i j : Nibble} (hij : i ≠ j) (hi : q ++ br.pfx ++ [i] <+: n.path) (hj : q ++ br.pfx ++ [j] <+: new.path)
    (ht' : Placed len keys q (.branch br.stored (update (update (fun _ => .nil) i (.leaf n)) j (.leaf new.fresh))
    )) : Lands sha3 tree keys q db (db.apply (file tree new.key (.leaf new.fresh) new.path ++
        file tree (generateKeyFromPath sha3 (q ++ br.pfx)) br.record (q ++ br.pfx)))
      (.branch br (update (update (fun _ => .nil) i (.leaf n)) j (.leaf new.fresh)))
      (.branch br.stored (update (update (fun _ => .nil) i (.leaf n)) j (.leaf new.fresh))) := by
  obtain ⟨hr, -, hall⟩ := hF
  obtain ⟨hge, e₀, he₀, hlt⟩ := hrc n hr hne
  rw [hs] at hge hlt
  have hP := prefix_of_append hi
  have hqP : ∀ {e m}, q ++ br.pfx ++ [m] <+: e → q <+: e := fun h => prefix_of_append (prefix_of_append h)
  have hne₀ : e₀ ≠ [] := ne_nil_of_length_pos (Nat.zero_lt_of_lt hlt)
  have hi₀ : q ++ br.pfx ++ [i] <+: e₀ := by
    refine prefix_of_prefix_length_le hi (hld e₀ n.key hne₀ ht.leaf_mem he₀) ?_
    rw [length_append, length_singleton]
    exact hlt
  -- only the slot of the old leaf has entries before the insert
  have hem : ∀ m, m ≠ i → ∀ e, q ++ br.pfx ++ [m] <+: e → e ≠ [] → db.get (tree.pathKey e) = none := by
    intro m hm e he hne'
    by_contra hget
    obtain ⟨v, hv⟩ := ne_none_iff_exists'.mp hget
    exact hm (slot_unique (he.trans (hall e v (hqP he) hne' hv).2) hi)
  have ho : Filed sha3 tree db (q ++ br.pfx ++ [i]) (.leaf n) :=
    ⟨hr, ⟨e₀, hi₀, hne₀, by rw [he₀]; exact some_ne_none _⟩, fun e v he hne' hget => hall e v (hqP he) hne' hget⟩
  have hcn : Confined sha3 tree keys (q ++ br.pfx ++ [j]) db
      (db.apply (file tree new.key (.leaf new.fresh) new.path)) := confined_leaf _ hnew hj hj
  rw [Db.apply_append, br.record_eq hfl]
  refine ⟨⟨hfl, _, rfl, ?_⟩, filed_put_branch hcf ht' br.stored_size_nonneg ?_ ?_, ?_⟩
  · exact fork_slots₂ (fun m node t => Mirrors node (br.fullPrefix ++ [m]) t) rfl rfl fun _ _ _ => trivial
  · intro e he hne' hget
    rw [get_file_path] at hget
    split_ifs at hget with heq
    · exact heq ▸ prefix_of_append hj
    · obtain ⟨v, hv⟩ := ne_none_iff_exists'.mp hget
      obtain ⟨rfl, hpt⟩ := hall e v he hne' hv
      exact prefix_of_prefix_length_le hP hpt (hge e hne' hv)
  · refine fork_slots (fun m t => Filed sha3 tree _ (q ++ br.pfx ++ [m]) t) ?_ ?_ fun m hmi hmj => ?_
    · exact ho.other_slot hcf hij (placed_leaf hi (ht.shaped.key_length (a := n.toItem) (by simp [skel])) ht.leaf_mem)
        hcn
    · refine filed_put_leaf (fun e v he hne' hget => ?_) hj (ne_nil_of_above (by simp) hj) prefix_rfl
      rw [hem j hij.symm e he hne'] at hget
      cases hget
    · exact Filed.other_slot hcf hmj (hem m hmi) (placed_nil len) hcn
  · exact (hcn.mono (by rw [append_assoc]; exact prefix_append _ _)).trans
      (confined_branch hcf _ ht'.spelled (prefix_append _ _))

section
variable {b : BranchNode} {slots : Fin 64 → Node} (hF : Filed sha3 tree db q (.branch b slots))
include hF

theorem lands_split (ht : Placed len keys q (.branch b slots)) (hnew : new.key ∈ keys) {br n : LazyBranchNode}
    {ch : Fin 64 → LazyNode} {i j : Nibble} (hij : i ≠ j) (hbr : br.fullPrefix = q ++ br.pfx)
    (hn : n.fullPrefix = q ++ br.pfx ++ [i] ++ n.pfx) (ho : q ++ b.pfx = n.fullPrefix)
    (hj : q ++ br.pfx ++ [j] <+: new.path) (hch : ∀ m, Mirrors (ch m) (n.fullPrefix ++ [m]) (slots m))
    (ht' : Placed len keys q (.branch br.stored
      (update (update (fun _ => .nil) i (.branch n.stored slots)) j (.leaf new.fresh)))) :
    Lands sha3 tree keys q db (db.apply (deleteNode tree (generateKeyFromPath sha3 n.fullPrefix) n.fullPrefix ++
        file tree new.key (.leaf new.fresh) (q ++ br.pfx ++ [j]) ++
        file tree (generateKeyFromPath sha3 n.fullPrefix) n.record n.fullPrefix ++
        file tree (generateKeyFromPath sha3 (q ++ br.pfx)) br.record (q ++ br.pfx)))
      (.branch br (update (update (fun _ => .nil) i (.branch n ch)) j (.leaf new.fresh)))
      (.branch br.stored
        (update (update (fun _ => .nil) i (.branch n.stored slots)) j (.leaf new.fresh))) := by
  obtain ⟨⟨-, -, -, hall⟩, hslots⟩ := hF
  have hsp := ht.spelled
  rw [ho] at hall hslots hsp
  have hsi : q ++ br.pfx ++ [i] <+: n.fullPrefix := hn ▸ prefix_append _ _
  have hqr : ∀ m, q <+: q ++ br.pfx ++ [m] := fun m => by rw [append_assoc]; exact prefix_append _ _
  have hti := ht'.slot i
  rw [update_of_ne hij, update_self] at hti
  -- the databases after the delete, the new leaf and the moved branch
  set db₀ := db.apply (deleteNode tree (generateKeyFromPath sha3 n.fullPrefix) n.fullPrefix) with hdb₀
  set db₁ := db₀.apply (file tree new.key (.leaf new.fresh) (q ++ br.pfx ++ [j])) with hdb₁
  have hcn₀ : Confined sha3 tree keys (q ++ br.pfx ++ [i]) db db₀ := confined_deleteNode (.branch _ hsp hsi) hsi
  have hcn₁ : Confined sha3 tree keys (q ++ br.pfx ++ [j]) db₀ db₁ := confined_leaf _ hnew hj prefix_rfl
  have hcn₂ : Confined sha3 tree keys (q ++ br.pfx ++ [i]) db₁
      (db₁.apply (file tree (generateKeyFromPath sha3 n.fullPrefix) n.record n.fullPrefix)) :=
    confined_branch hcf _ hsp hsi
  -- before the insert the only entries below the slot path were those of the branch
  have hall₀ : ∀ e, q <+: e → e ≠ [] → db₀.get (tree.pathKey e) ≠ none → n.fullPrefix <+: e := by
    intro e he hne hget
    rw [hdb₀, get_deleteNode_path] at hget
    split_ifs at hget with heq
    · exact absurd rfl hget
    · exact hall e he hne hget
  have hem : ∀ m, m ≠ i → ∀ e, q ++ br.pfx ++ [m] <+: e → e ≠ [] → db₀.get (tree.pathKey e) = none := by
    intro m hm e he hne
    by_contra hget
    exact hm (slot_unique he (hsi.trans (hall₀ e ((hqr m).trans he) hne hget)))
  have hmv : Filed sha3 tree
      (db₁.apply (file tree (generateKeyFromPath sha3 n.fullPrefix) n.record n.fullPrefix)) (q ++ br.pfx ++ [i])
      (.branch n.stored slots) := by
    rw [n.record_eq hn, hn]
    refine filed_put_branch hcf hti n.stored_size_nonneg (fun e he hne hget => ?_) fun m => ?_
    · rw [hcn₁.frame _ (not_within_path fun h => hij (slot_unique he h))] at hget
      exact hn ▸ hall₀ e ((hqr i).trans he) hne hget
    · have hn' : q ++ br.pfx ++ [i] ++ n.stored.pfx = n.fullPrefix := hn.symm
      rw [hn']
      refine (hslots m).frame (ho ▸ ht.slot m) fun k hk => ?_
      obtain ⟨hpt, hnd⟩ := hk.ne_branch hcf hsp
      have hki := hk.mono (hsi.trans (prefix_append _ _))
      rw [hcn₁.frame k fun hkj => hij (hki.slot_unique hcf hkj)]
      refine db.get_apply_of_untouched fun w hw => ?_
      simp only [deleteNode, mem_cons, not_mem_nil, or_false] at hw
      rcases hw with rfl | rfl
      · exact hpt.symm
      · exact hnd.symm
  rw [Db.apply_append, Db.apply_append, Db.apply_append, br.record_eq hbr]
  refine ⟨⟨hbr, _, rfl, ?_⟩, filed_put_branch hcf ht' br.stored_size_nonneg ?_ ?_, ?_⟩
  · refine fork_slots₂ (fun m node t => Mirrors node (br.fullPrefix ++ [m]) t) ?_ rfl fun _ _ _ => trivial
    exact ⟨hbr ▸ hn, slots, rfl, hch⟩
  · intro e he hne hget
    by_cases hei : q ++ br.pfx ++ [i] <+: e
    · exact prefix_of_append hei
    by_cases hej : q ++ br.pfx ++ [j] <+: e
    · exact prefix_of_append hej
    rw [hcn₂.frame _ (not_within_path hei), hcn₁.frame _ (not_within_path hej)] at hget
    exact prefix_of_append (hsi.trans (hall₀ e he hne hget))
  · refine fork_slots (fun m t => Filed sha3 tree _ (q ++ br.pfx ++ [m]) t) hmv ?_ fun m hmi hmj => ?_
    · have hlf : Filed sha3 tree db₁ (q ++ br.pfx ++ [j]) (.leaf new.fresh) := by
        refine filed_put_leaf (fun e v he hne hget => ?_) prefix_rfl (by simp) hj
        rw [hem j hij.symm e he hne] at hget
        cases hget
      have htj := ht'.slot j
      rw [update_self] at htj
      exact hlf.other_slot hcf hij.symm htj hcn₂
    · have hm₁ : Filed sha3 tree db₁ (q ++ br.pfx ++ [m]) .nil :=
        Filed.other_slot hcf hmj (hem m hmi) (placed_nil len) hcn₁
      exact hm₁.other_slot hcf hmi (placed_nil len) hcn₂
  · exact (((hcn₀.mono (hqr i)).trans (hcn₁.mono (hqr j))).trans (hcn₂.mono (hqr i))).trans
      (confined_branch hcf _ ht'.spelled (prefix_append _ _))

theorem Filed.update_slot (ht : Placed len keys q (.branch b slots)) {i : Nibble} {node : LazyNode}
    (hln : Lands sha3 tree keys (q ++ b.pfx ++ [i]) db db' node t) :
    (∀ m, Filed sha3 tree db' (q ++ b.pfx ++ [m]) (update slots i t m)) ∧
      ∀ e, q <+: e → e ≠ [] → db'.get (tree.pathKey e) ≠ none → q ++ b.pfx <+: e := by
  refine ⟨?_, fun e he hne hget => ?_⟩
  · refine update_slots (fun m t => Filed sha3 tree db' (q ++ b.pfx ++ [m]) t) hln.filed fun m hm => ?_
    exact (hF.2 m).other_slot hcf hm (ht.slot m) hln.confined
  · by_cases hei : q ++ b.pfx ++ [i] <+: e
    · exact prefix_of_append hei
    · rw [hln.confined.frame _ (not_within_path hei)] at hget
      exact hF.1.2.2.2 e he hne hget

theorem lands_descend (ht : Placed len keys q (.branch b slots)) {n : LazyBranchNode} {ch : Fin 64 → LazyNode}
    (hpfx : n.pfx = b.pfx) (hfl : n.fullPrefix = q ++ b.pfx)
    (hch : ∀ m, Mirrors (ch m) (q ++ b.pfx ++ [m]) (slots m)) {i : Nibble} {inserted : LazyNode}
    (hln : Lands sha3 tree keys (q ++ b.pfx ++ [i]) db db' inserted t)
    (ht' : Placed len keys q (.branch n.stored (update slots i t))) : Lands sha3 tree keys q db
      (db'.apply (file tree (generateKeyFromPath sha3 (q ++ b.pfx)) n.record (q ++ b.pfx)))
      (.branch n (update ch i inserted)) (.branch n.stored (update slots i t)) := by
  obtain ⟨hslots, hall⟩ := hF.update_slot hcf ht hln
  rw [← hpfx] at hall hslots hch hln hfl ⊢
  rw [n.record_eq hfl]
  refine ⟨⟨hfl, _, rfl, ?_⟩, filed_put_branch hcf ht' n.stored_size_nonneg hall hslots, ?_⟩
  · exact update_slots₂ (fun m node t => Mirrors node (n.fullPrefix ++ [m]) t) (hfl ▸ hln.mirrors)
      fun m _ => hfl ▸ hch m
  · exact (hln.confined.mono (by rw [append_assoc]; exact prefix_append _ _)).trans
      (confined_branch hcf _ ht'.spelled (prefix_append _ _))

end

end

/-! ### One `Insert` -/

theorem LazyNode.insert_lands (sha512 : Digest 64) (prover : InclusionProver) (sizeDelta : Int)
    (hcf : CollisionFree sha3 keys) (hnew : new.key ∈ keys) (hk : new.key.length = len) (hne : new.path ≠ [])
    (hidx : Indexed db tree) (hld : EntriesLead db tree keys) (hrc : Reaches db tree new)
    (ht : Placed len keys q t) (hF : Filed sha3 tree db q t) (hp : q <+: new.path) {fuel : Nat}
    (hfu : pathLength len < fuel + q.length) {node node₁ : LazyNode} (hload : loadSlot db tree q node = .ok node₁)
    (hm : Mirrors node₁ q t) (hnil : node₁ = .nil → t = .nil) :
    ∃ delta node' ws t', insert sha3 db tree new sizeDelta fuel node (6 * q.length) q = .ok (delta, node', ws) ∧
      Lands sha3 tree keys q db (db.apply ws) node' t' ∧ node' ≠ .nil ∧
      skel t' = Radix.insert path new (skel t) q.length ∧ (Coherent sha512 prover t → Coherent sha512 prover t') := by
  have hl : new.path.length = pathLength len := by rw [path, getFullPath_length, hk]
  induction t generalizing q fuel node node₁ with
  | nil =>
    obtain ⟨fuel, rfl⟩ := fuel_succ hfu (hl ▸ hp.length_le)
    obtain rfl := hm.nil_inv
    refine ⟨_, _, _, .leaf new.fresh, insert_empty sha3 fuel sizeDelta hload,
      lands_fresh hnew hp hne fun e v he hne' hget => ?_, by rintro ⟨⟩, rfl, fun _ => coherent_fresh new⟩
    rw [hF e he hne'] at hget
    cases hget
  | leaf n =>
    obtain ⟨fuel, rfl⟩ := fuel_succ hfu (hl ▸ hp.length_le)
    obtain rfl := hm.leaf_inv fun h => by cases hnil h
    have hlen : n.key.length = new.key.length := by
      rw [hk]
      exact ht.shaped.key_length (a := n.toItem) (by simp [skel])
    by_cases hkey : n.key = new.key
    · have hpt : n.toItem.path = new.path := (path_eq_iff hlen).mpr hkey
      refine ⟨_, _, _, .leaf new.fresh, insert_replace sha3 fuel sizeDelta hload hkey,
        lands_fresh hnew hp hne fun e v he hne' hget => hkey ▸ hpt ▸ hF.2.2 e v he hne' hget, by rintro ⟨⟩, ?_,
        fun _ => coherent_fresh new⟩
      simp [skel, map_leaf, insert_leaf_eq _ _ hpt, fresh]
    · obtain ⟨s, hs⟩ : ∃ s, shared (n.path.drop q.length) (new.path.drop q.length) = s := ⟨_, rfl⟩
      obtain ⟨i, j, hij, hi, hj, e, br, rfl, hfl, hcom, -, hins⟩ :=
        insert_fork sha3 fuel sizeDelta hload ht.shaped.1 hp hlen hkey hs
      have hsk : skel (.branch br.stored (update (update (fun _ => .nil) i (.leaf n)) j
          (.leaf new.fresh))) = Radix.insert path new (skel (.leaf n)) q.length := by
        simp only [skel, map_branch, map_leaf, map_update, Trie.map_nil, e, fork]
        rfl
      have hsha : shared n.path new.path = q ++ br.pfx := by
        obtain ⟨r, hr⟩ : q <+: n.path := ht.shaped.1
        obtain ⟨r', hr'⟩ := hp
        rw [← hs, ← hr, ← hr', drop_left, drop_left, shared_append]
      exact ⟨_, _, _, _, hins, lands_fork hcf hF ht hnew hkey hld hrc hfl hsha hij hi hj
        (ht.insert hk hnew hp hsk), by rintro ⟨⟩, hsk, fun hc => Coherent.cleared hcom (coherent_slots hc i j new)⟩
  | branch b slots ih =>
    have hlen : (q ++ b.pfx).length < new.path.length := hl ▸ Canonical.branch_length ht.shaped
    obtain ⟨fuel, rfl⟩ := fuel_succ hfu (hl ▸ hp.length_le)
    obtain ⟨n, ch, rfl, rfl, hfl, -⟩ := hm.branch_inv fun h => by cases hnil h
    obtain ⟨ch₁, hslots, hch⟩ := hF.loadSlots hidx hm
    have hpfx : n.stored.pfx = n.pfx := rfl
    rw [hfl] at hch
    by_cases hq : n.pfx <+: new.path.drop q.length
    · obtain ⟨i, hpi, e, hins⟩ := insert_descend sha3 fuel sizeDelta hload hslots hfl hp hlen hq
        fun i => skel (slots i)
      have hFi := hF.2 i
      obtain ⟨child, hld', hm', hnil'⟩ := hFi.loadSlot hidx (by simp) (hch i)
      obtain ⟨delta, inserted, ws, t', hrec, hln, -, hsk, hcoh⟩ :=
        ih i (ht.slot i) hFi hpi (fuel_slot hfu) hld' hm' hnil'
      obtain ⟨n', hpfx', hfl', hcom, -, hins⟩ := hins hrec
      have hsk' : skel (.branch n'.stored (update slots i t')) =
          Radix.insert path new (skel (.branch n.stored slots)) q.length := by
        rw [skel_branch, skel_branch, hpfx, e, ← hpfx, ← hsk]
        exact congrArg₂ branch hpfx' (map_update _ _ _ _ _)
      refine ⟨_, _, _, _, hins, ?_, by rintro ⟨⟩, hsk',
        fun hc => Coherent.cleared hcom (coherent_update hc.2 i (hcoh (hc.2 i)))⟩
      rw [Db.apply_append]
      exact lands_descend hcf hF ht hpfx' hfl' hch hln (ht.insert hk hnew hp hsk')
    · obtain ⟨s, hs⟩ : ∃ s, shared n.pfx (new.path.drop q.length) = s := ⟨_, rfl⟩
      obtain ⟨i, j, rest, hij, ho, hj, e, br, n', rfl, hbr, hcom, -, hstd, hn', -, hins⟩ :=
        insert_split sha3 fuel sizeDelta hload hslots hfl hp hlen hq hs fun i => skel (slots i)
      have hrs : n'.pfx = rest := congrArg BranchNode.pfx hstd
      have ho' : q ++ n.stored.pfx = n'.fullPrefix := by
        rw [hpfx, ho, hn', hrs]
        simp
      have hsk : skel (.branch br.stored (update (update (fun _ => .nil) i
          (.branch n'.stored slots)) j (.leaf new.fresh))) =
            Radix.insert path new (skel (.branch n.stored slots)) q.length := by
        rw [skel_branch n.stored, hpfx, e]
        simp only [skel, map_branch, map_leaf, map_update, Trie.map_nil, fork, hstd]
        rfl
      refine ⟨_, _, _, _, hins, ?_, by rintro ⟨⟩, hsk, fun hc => Coherent.cleared hcom (coherent_slots ?_ i j new)⟩
      · rw [← hpfx, ho'] at hch
        exact lands_split hcf hF ht hnew hij hbr hn' ho' hj hch (ht.insert hk hnew hp hsk)
      · -- the moved branch keeps its commitment under a shorter prefix
        rw [hstd]
        exact ⟨fun hne => ⟨(hc.1 hne).1, (hc.1 hne).2⟩, hc.2⟩

/-! ### `Insert` of the tree -/

theorem insertNode_ne_rootKey {key : Bytes} {p : List Nibble} {node : LazyNode} {w : Write}
    (hw : w ∈ insertNode tree key p node) : w.key ≠ tree.rootKey := by
  cases node with
  | nil => cases hw
  | leaf n =>
    rw [insertNode_leaf, file, mem_cons, mem_singleton] at hw
    rcases hw with rfl | rfl
    · exact (TreeId.rootKey_ne_nodeKey key).symm
    · exact (TreeId.rootKey_ne_pathKey p).symm
  | branch n ch =>
    rw [insertNode_branch, file, mem_cons, mem_singleton] at hw
    rcases hw with rfl | rfl
    · exact (TreeId.rootKey_ne_nodeKey key).symm
    · exact (TreeId.rootKey_ne_pathKey n.fullPrefix).symm

theorem deleteNode_ne_rootKey {key : Bytes} {p : List Nibble} {w : Write} (hw : w ∈ deleteNode tree key p) :
    w.key ≠ tree.rootKey := by
  rw [deleteNode, mem_cons, mem_singleton] at hw
  rcases hw with rfl | rfl
  · exact (TreeId.rootKey_ne_pathKey p).symm
  · exact (TreeId.rootKey_ne_nodeKey key).symm

theorem LazyNode.insert_ne_rootKey {sizeDelta : Int} {fuel depth : Nat} {node node' : LazyNode} {delta : Int}
    {ws : List Write} (h : insert sha3 db tree new sizeDelta fuel node depth q = .ok (delta, node', ws)) :
    ∀ w ∈ ws, w.key ≠ tree.rootKey := by
  induction fuel generalizing node depth q delta node' ws with
  | zero => cases h
  | succ fuel ih =>
    obtain ⟨node₁, -, h⟩ := bind_eq_ok.mp h
    cases node₁ with
    | nil =>
      cases h
      exact fun w => insertNode_ne_rootKey
    | leaf n =>
      simp only at h
      split_ifs at h
      · cases h
        exact fun w => insertNode_ne_rootKey
      · obtain ⟨⟨s, d⟩, -, h⟩ := bind_eq_ok.mp h
        obtain ⟨c₁, -, h⟩ := bind_eq_ok.mp h
        obtain ⟨c₂, -, h⟩ := bind_eq_ok.mp h
        cases h
        intro w hw
        rcases mem_append.mp hw with hw | hw
        · exact insertNode_ne_rootKey hw
        · exact insertNode_ne_rootKey hw
    | branch n ch =>
      obtain ⟨ch₁, -, h⟩ := bind_eq_ok.mp h
      simp only at h
      split at h
      · split at h
        · cases h
        · cases h
          intro w hw
          simp only [mem_append] at hw
          rcases hw with ((hw | hw) | hw) | hw
          · exact deleteNode_ne_rootKey hw
          · exact insertNode_ne_rootKey hw
          · exact insertNode_ne_rootKey hw
          · exact insertNode_ne_rootKey hw
      · split at h
        · cases h
        · obtain ⟨⟨d, inserted, writes⟩, hr, h⟩ := bind_eq_ok.mp h
          cases h
          intro w hw
          rcases mem_append.mp hw with hw | hw
          · exact ih hr w hw
          · exact insertNode_ne_rootKey hw

theorem LazyVectorCommitmentTree.insert_eq {t : LazyVectorCommitmentTree} (sha3 : Digest 32) (txn : Option (List Write))
    (hkey : new.key ≠ []) (hrec : ∀ b p, db.get (t.tree.nodeKey new.key) ≠ some (.node (.branch b p)))
    (hc : t.isPathWithinCoveredPrefix new.path = true) : ∃ sizeDelta, t.insert sha3 db txn new = (do
      let (_, root, writes) ← LazyNode.insert sha3 db t.tree new sizeDelta (keyFuel new.key) t.root 0 []
      let (db, txn) := db.applyIn txn writes
      .ok ({ t with root }, db.apply (saveRoot t.tree root), txn, none)) := by
  have hc' : (!t.isPathWithinCoveredPrefix (getFullPath new.key)) = false := by rw [Bool.not_eq_false']; exact hc
  unfold LazyVectorCommitmentTree.insert
  rw [if_neg hkey, hc']
  have hlf : ∀ n ch, getNodeByKey db t.tree new.key ≠ .ok (.branch n ch) := by
    intro n ch hget
    rw [getNodeByKey] at hget
    split at hget
    · cases hget
    next r hr =>
      cases r with
      | leaf n => cases hget
      | branch b p => exact hrec b p hr
    · cases hget
  rcases hget : getNodeByKey db t.tree new.key with e | _ | n | ⟨n, ch⟩
  · exact ⟨_, rfl⟩
  · exact ⟨_, rfl⟩
  · exact ⟨_, rfl⟩
  · exact absurd hget (hlf n ch)

theorem Represents.loadSlot {t : LazyVectorCommitmentTree} {root : Node} (h : Represents sha3 len keys t db root) :
    Quilibrium.loadSlot db t.tree [] t.root = .ok t.root := by
  rw [Quilibrium.loadSlot]
  split_ifs with hnil
  · have hrt := h.loaded (isNil_iff.mp hnil)
    rw [isNil_iff.mp hnil]
    refine loadNode_of_notFound (getNodeByPath_notFound h.typed.indexed fun e _ => ?_)
    by_cases he : e = []
    · rw [he]
      exact h.blank hrt
    · have hF := h.filed
      rw [hrt] at hF
      exact hF e nil_prefix he
  · rfl

theorem Represents.insertRoot {t : LazyVectorCommitmentTree} {root : Node} (sha512 : Digest 64)
    (prover : InclusionProver) (sizeDelta : Int) (h : Represents sha3 len keys t db root) (hcf : CollisionFree sha3 keys)
    (hl : 0 < len) (hk : new.key.length = len) (hnew : new.key ∈ keys) (hrc : Reaches db t.tree new) :
    ∃ delta node ws root', insert sha3 db t.tree new sizeDelta (keyFuel new.key) t.root 0 [] = .ok (delta, node, ws) ∧
      Represents sha3 len keys { t with root := node } ((db.apply ws).apply (saveRoot t.tree node)) root' ∧
      skel root' = insert path new (skel root) 0 ∧ (Coherent sha512 prover root → Coherent sha512 prover root') := by
  have hne : new.path ≠ [] := by
    refine ne_nil_of_length_pos ?_
    rw [path, getFullPath_length, hk, pathLength]
    omega
  have hld : EntriesLead db t.tree keys := fun e k he hk hget =>
    h.filed.entriesLead hcf h.placed nil_prefix he hk hget
  have hfl : pathLength len < keyFuel new.key + ([] : List Nibble).length := by
    rw [keyFuel, getFullPath_length, hk]
    exact Nat.lt_succ_self _
  obtain ⟨delta, node, ws, root', hins, hln, hnd, hsk, hc⟩ :=
    insert_lands sha512 prover sizeDelta hcf hnew hk hne h.typed.indexed hld hrc h.placed h.filed
      nil_prefix hfl h.loadSlot h.mirrors h.loaded
  exact ⟨delta, node, ws, root', hins,
    hln.represents h.typed (h.placed.insert hk hnew nil_prefix hsk) hnd t.coveredPrefix, hsk, hc⟩

end

end Quilibrium
