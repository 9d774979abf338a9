import Quilibrium.Theorems.Backed
import Quilibrium.Theorems.LazyCommit
import Quilibrium.Theorems.TreeRun

/-! Trees that are in memory as a whole. Only empty slots are looked up in the store, so the operations work as on the
    in-memory tree, whatever the hash of the branch keys. -/

namespace Quilibrium
open Radix Function Except List LazyNode Trie Canonical Item

def whole (node : LazyNode) : Node := node.map LazyBranchNode.toBranchNode id

/-- The node at slot path `q` is in memory with everything below it. -/
def Resident (q : List Nibble) : LazyNode → Prop
  | .nil => True
  | .leaf _ => True
  | .branch n children =>
    n.fullPrefix = q ++ n.pfx ∧ n.fullyLoaded = true ∧ ∀ i, Resident (q ++ n.pfx ++ [i]) (children i)

/-- Where the tree at slot path `q` has no leaf, the store has nothing to load. -/
def Blank (db : Db) (tree : TreeId) (q : List Nibble) (t : Trie 64 (List Nibble) Item) : Prop :=
  ∀ p, q <+: p → (∀ a ∈ t.leaves, ¬p <+: a.path) → loadNode db tree p = .ok .nil

section
variable {sha3 : Digest 32} {sha512 : Digest 64} {prover : InclusionProver} {tree : TreeId} {db db' : Db} {len fuel : Nat}
  {q e : List Nibble} {new : Item} {key : Bytes} {node : LazyNode} {leaves leaves' : List Item}

theorem skel_whole_branch (n : LazyBranchNode) (children : Fin 64 → LazyNode) :
    skel (whole (.branch n children)) = .branch n.pfx fun i => skel (whole (children i)) := rfl

theorem whole_update (children : Fin 64 → LazyNode) (i : Nibble) (child : LazyNode) :
    (fun j => whole (update children i child j)) = update (fun j => whole (children j)) i (whole child) :=
  map_update _ _ _ _ _

theorem skel_whole_update (children : Fin 64 → LazyNode) (i : Nibble) (child : LazyNode) :
    (fun j => skel (whole (update children i child j))) =
      update (fun j => skel (whole (children j))) i (skel (whole child)) := by
  have h := congrArg (fun f => fun j => skel (f j)) (whole_update children i child)
  exact h.trans (map_update _ _ _ _ _)

/-! ### Where leaves part -/

theorem Forks.of_paths (hs : ∀ a ∈ leaves, ∃ b ∈ leaves', b.path = a.path) (h : Forks leaves e) : Forks leaves' e := by
  obtain ⟨a, ha, b, hb, i, j, hij, hi, hj⟩ := h
  obtain ⟨a', ha', hpa⟩ := hs a ha
  obtain ⟨b', hb', hpb⟩ := hs b hb
  exact ⟨a', ha', b', hb', i, j, hij, hpa ▸ hi, hpb ▸ hj⟩

variable {r : List Nibble} {ch : Fin 64 → Trie 64 (List Nibble) Item} {t : Trie 64 (List Nibble) Item} {i : Nibble}

theorem part_unique {k l p : List Nibble} {j x y : Nibble} (hij : i ≠ j) (hi : p ++ [i] <+: k) (hj : p ++ [j] <+: l)
    (hxy : x ≠ y) (hx : e ++ [x] <+: k) (hy : e ++ [y] <+: l) : e = p := by
  have here : ∀ {r : List Nibble} {m m' : Nibble}, m ≠ m' → r ++ [m] <+: k → r ++ [m'] <+: l → shared k l = r := by
    rintro r m m' hne ⟨s, rfl⟩ ⟨s', rfl⟩
    rw [append_assoc, append_assoc, shared_append]
    simp [shared_cons_cons, hne]
  rw [← here hxy hx hy, here hij hi hj]

theorem Shaped.forks (h : Shaped len q (.branch r ch)) : Forks (branch r ch).leaves (q ++ r) := by
  obtain ⟨i, j, a, b, hij, ha, hb⟩ := two h
  exact ⟨a, mem_leaves_branch.mpr ⟨i, ha⟩, b, mem_leaves_branch.mpr ⟨j, hb⟩, i, j, hij, child_mem h ha, child_mem h hb⟩

theorem Shaped.insert {t' : Trie 64 (List Nibble) Item} (h : Shaped len q t) (hk : new.key.length = len)
    (hp : q <+: new.path) (ht' : t' = insert path new t q.length) : Shaped len q t' := by
  rw [ht']
  exact insert_canonical h hp (by rw [path, getFullPath_length, hk])

theorem Forks.cases (h : Shaped len q (.branch r ch))
    (hf : Forks (branch r ch).leaves e) : e = q ++ r ∨ ∃ i, Forks (ch i).leaves e := by
  obtain ⟨a, ha, b, hb, x, y, hxy, hx, hy⟩ := hf
  obtain ⟨i, hi⟩ := mem_leaves_branch.mp ha
  obtain ⟨j, hj⟩ := mem_leaves_branch.mp hb
  by_cases hij : i = j
  · subst hij
    exact .inr ⟨i, a, hi, b, hj, x, y, hxy, hx, hy⟩
  · exact .inl (part_unique hij (child_mem h hi) (child_mem h hj) hxy hx hy)

/-! ### Empty slots -/

theorem Blank.slot (h : Blank db tree q (.branch r ch))
    (hs : Shaped len q (.branch r ch)) (i : Nibble) : Blank db tree (q ++ r ++ [i]) (ch i) := by
  intro p hp hnn
  refine h p (( prefix_append_of_prefix (prefix_append q r)).trans hp) fun a ha hpa => ?_
  exact hnn a ((mem_child_iff hs).mpr ⟨ha, hp.trans hpa⟩) hpa

theorem Blank.loadSlot (h : Blank db tree q (skel (whole node))) : Quilibrium.loadSlot db tree q node = .ok node := by
  rw [Quilibrium.loadSlot]
  split_ifs with hnil
  · obtain rfl := isNil_iff.mp hnil
    exact h q prefix_rfl (by simp [whole, skel])
  · rfl

theorem Backed.blank (h : Backed len leaves tree db)
    (hs : ∀ a ∈ leaves, q <+: a.path → ∃ b ∈ t.leaves, b.path = a.path) : Blank db tree q t := by
  intro p hp hnn
  refine h.loadNode_nil fun a ha hpa => ?_
  obtain ⟨b, hb, hpt⟩ := hs a ha (hp.trans hpa)
  exact hnn b hb (hpt ▸ hpa)

/-! ### Writes -/

section
variable {gone : Option Bytes}

theorem keeps_leaf {n : LeafNode} (hn : n.toItem ∈ leaves) (hl : n.key.length = len) (he : e <+: n.path) {w : Write}
    (hw : w ∈ file tree n.key (.leaf n) e) : Keeps tree len gone leaves w := by
  rw [file, mem_cons, mem_singleton] at hw
  rcases hw with rfl | rfl
  · exact .record n hn
  · exact .entry e n.key hl he

theorem keeps_branch {r : NodeRecord} (hl : len ≠ 32) (p : List Nibble) (hf : Forks leaves e) {w : Write}
    (hw : w ∈ file tree (generateKeyFromPath sha3 p) r e) : Keeps tree len gone leaves w := by
  rw [file, mem_cons, mem_singleton] at hw
  rcases hw with rfl | rfl
  · exact .branch _ r ((sha3.length_sum _).trans_ne hl.symm)
  · exact .fork e _ hf

theorem keeps_deleteBranch (hl : len ≠ 32) (p e : List Nibble) {w : Write}
    (hw : w ∈ deleteNode tree (generateKeyFromPath sha3 p) e) : Keeps tree len gone leaves w := by
  rw [deleteNode, mem_cons, mem_singleton] at hw
  rcases hw with rfl | rfl
  · exact .forgetEntry e
  · exact .forget _ fun h => absurd ((sha3.length_sum _).symm.trans h) hl.symm

end

/-! ### `Insert` -/

structure Inserted (sha512 : Digest 64) (prover : InclusionProver) (tree : TreeId) (len : Nat) (new : Item)
    (q : List Nibble) (node node' : LazyNode) (ws : List Write) : Prop where
  resident : Resident q node'
  skel_eq : skel (whole node') = Radix.insert Item.path new (skel (whole node)) q.length
  coherent : Coherent sha512 prover (whole node) → Coherent sha512 prover (whole node')
  keeps : ∀ w ∈ ws, Keeps tree len none (skel (whole node')).leaves w
  recorded : .set (tree.nodeKey new.key) (.node (.leaf new.fresh)) ∈ ws

theorem coherent_whole_fork (h : Coherent sha512 prover (whole node)) (i j : Nibble) (new : Item) (m : Nibble) :
    Coherent sha512 prover
      (whole (update (update (fun _ => (.nil : LazyNode)) i node) j (.leaf new.fresh) m)) := by
  refine fork_slots (fun _ t => Coherent sha512 prover (whole t)) h (coherent_fresh new) (fun _ _ _ => ?_) m
  trivial

theorem inserted_leaf (hk : new.key.length = len) (hsk : .leaf new = insert path new (skel (whole node)) q.length) :
    Inserted sha512 prover tree len new q node (.leaf new.fresh) (file tree new.key (.leaf new.fresh) new.path) where
  resident := trivial
  skel_eq := hsk
  coherent _ := coherent_fresh new
  keeps _ hw := keeps_leaf (n := new.fresh) (by simp [whole, skel, fresh]) hk prefix_rfl hw
  recorded := mem_cons_self

theorem LazyNode.insert_resident (sha3 : Digest 32) (sha512 : Digest 64) (prover : InclusionProver) (d : Int)
    (hln : len ≠ 32) (hk : new.key.length = len) (hbl : Blank db tree q (skel (whole node)))
    (hr : Resident q node) (hs : Shaped len q (skel (whole node))) (hp : q <+: new.path)
    (hfl : pathLength len < fuel + q.length) :
    ∃ delta node' ws, insert sha3 db tree new d fuel node (6 * q.length) q = .ok (delta, node', ws) ∧
      Inserted sha512 prover tree len new q node node' ws := by
  have hl : new.path.length = pathLength len := by rw [path, getFullPath_length, hk]
  induction node generalizing q fuel with
  | nil =>
    obtain ⟨fuel, rfl⟩ := fuel_succ hfl (hl ▸ hp.length_le)
    exact ⟨_, _, _, insert_empty sha3 fuel d hbl.loadSlot, inserted_leaf hk rfl⟩
  | leaf n =>
    obtain ⟨fuel, rfl⟩ := fuel_succ hfl (hl ▸ hp.length_le)
    have hlen : n.key.length = new.key.length := by
      rw [hk]
      exact hs.key_length (a := n.toItem) (by simp [whole, skel])
    by_cases hkey : n.key = new.key
    · have hpt : n.toItem.path = new.path := (path_eq_iff hlen).mpr hkey
      exact ⟨_, _, _, insert_replace sha3 fuel d hbl.loadSlot hkey,
        inserted_leaf hk (insert_leaf_eq _ _ hpt).symm⟩
    · obtain ⟨s, hsha⟩ : ∃ s, shared (n.path.drop q.length) (new.path.drop q.length) = s := ⟨_, rfl⟩
      obtain ⟨i, j, hij, hi, hj, e, br, rfl, hfu, hcom, hld, hins⟩ :=
        insert_fork sha3 fuel d hbl.loadSlot hs.1 hp hlen hkey hsha
      have hsk : skel (whole (.branch br (update (update (fun _ => .nil) i (.leaf n)) j
          (.leaf new.fresh)))) = Radix.insert path new (skel (whole (.leaf n))) q.length := by
        rw [skel_whole_branch, skel_whole_update, skel_whole_update]
        exact e.symm
      have hs' := hs.insert hk hp hsk
      refine ⟨_, _, _, hins, ⟨hfu, hld, ?_⟩, hsk, fun hc => ?_, fun w hw => ?_, by simp [file]⟩
      · exact fork_slots (fun m t => Resident (q ++ br.pfx ++ [m]) t) trivial trivial fun _ _ _ => trivial
      · exact Coherent.cleared hcom (coherent_whole_fork hc i j new)
      · rcases mem_append.mp hw with hw | hw
        · refine keeps_leaf (n := new.fresh) ?_ hk prefix_rfl hw
          rw [hsk, mem_insert hs hp hl]
          exact .inl rfl
        · exact keeps_branch hln _ hs'.forks hw
  | branch n children ih =>
    obtain ⟨hfu, hld, hch⟩ := hr
    have hlen : (q ++ n.pfx).length < new.path.length := hl ▸ branch_length hs
    obtain ⟨fuel, rfl⟩ := fuel_succ hfl (hl ▸ hp.length_le)
    have hsl : loadSlots db tree n.fullPrefix n.fullyLoaded children = .ok children := by rw [loadSlots, if_pos hld]
    by_cases hq : n.pfx <+: new.path.drop q.length
    · obtain ⟨i, hpi, e, hins⟩ := insert_descend sha3 fuel d hbl.loadSlot hsl hfu hp hlen hq
        fun i => skel (whole (children i))
      obtain ⟨delta, inserted, ws, hrec, h⟩ := ih i (hbl.slot hs i) (hch i) (hs.2 i) hpi (fuel_slot hfl)
      obtain ⟨n', hpfx, hfl', hcom, hld', hins⟩ := hins hrec
      have hsk : skel (whole (.branch n' (update children i inserted))) =
          Radix.insert path new (skel (whole (.branch n children))) q.length := by
        rw [skel_whole_branch, skel_whole_update, skel_whole_branch, e, hpfx, h.skel_eq]
      have hs' := hs.insert hk hp hsk
      refine ⟨_, _, _, hins, ⟨hpfx ▸ hfl', hld', ?_⟩, hsk, fun hc => ?_, fun w hw => ?_, mem_append_left _ h.recorded⟩
      · exact hpfx ▸ update_slots (fun m t => Resident (q ++ n.pfx ++ [m]) t) h.resident fun m _ => hch m
      · exact Coherent.cleared hcom (update_slots (fun _ t => Coherent sha512 prover (whole t)) (h.coherent (hc.2 i))
          fun m _ => hc.2 m)
      · rcases mem_append.mp hw with hw | hw
        · refine (h.keeps w hw).mono fun a ha => ?_
          rw [skel_whole_branch, skel_whole_update]
          exact mem_leaves_branch.mpr ⟨i, by rw [update_self]; exact ha⟩
        · exact keeps_branch hln _ (hpfx ▸ hs'.forks) hw
    · obtain ⟨s, hsha⟩ : ∃ s, shared n.pfx (new.path.drop q.length) = s := ⟨_, rfl⟩
      obtain ⟨i, j, rest, hij, ho, hj, e, br, n', rfl, hbr, hcom, hld', hstd, hn', hld'', hins⟩ :=
        insert_split sha3 fuel d hbl.loadSlot hsl hfu hp hlen hq hsha
          fun i => skel (whole (children i))
      have hrs : n'.pfx = rest := congrArg BranchNode.pfx hstd
      have hc' : n'.stored.commitment = n.stored.commitment := by rw [hstd]
      have hsk : skel (whole (.branch br (update (update (fun _ => .nil) i (.branch n' children)) j
          (.leaf new.fresh)))) = Radix.insert path new (skel (whole (.branch n children))) q.length := by
        rw [skel_whole_branch, skel_whole_update, skel_whole_update, skel_whole_branch, skel_whole_branch, e, hrs]
        rfl
      have hs' := hs.insert hk hp hsk
      have hsi : Shaped len (q ++ br.pfx ++ [i]) (skel (whole (.branch n' children))) := by
        have h := hs'.2 i
        dsimp only at h
        rwa [update_of_ne hij, update_self] at h
      have hmv : q ++ br.pfx ++ [i] ++ n'.pfx = q ++ n.pfx := by rw [ho, hrs]; simp
      refine ⟨_, _, _, hins, ⟨hbr, hld', ?_⟩, hsk, fun hc => ?_, fun w hw => ?_, by simp [file]⟩
      · refine fork_slots (fun m t => Resident (q ++ br.pfx ++ [m]) t) ⟨hn', hld'', ?_⟩ trivial fun _ _ _ => trivial
        rw [hmv]
        exact hch
      · -- the moved branch keeps its commitment under a shorter prefix
        have hmo : Coherent sha512 prover (whole (.branch n' children)) :=
          ⟨fun hne => ⟨hc'.trans (hc.1 (hc' ▸ hne)).1, (hc.1 (hc' ▸ hne)).2⟩, hc.2⟩
        exact Coherent.cleared hcom (coherent_whole_fork hmo i j new)
      · simp only [mem_append] at hw
        rcases hw with ((hw | hw) | hw) | hw
        · exact keeps_deleteBranch hln _ _ hw
        · refine keeps_leaf (n := new.fresh) ?_ hk hj hw
          rw [hsk, mem_insert hs hp hl]
          exact .inl rfl
        · refine keeps_branch hln _ (Forks.mono (fun a ha => ?_) (hn' ▸ hsi.forks)) hw
          rw [skel_whole_branch, skel_whole_update, skel_whole_update]
          exact mem_leaves_branch.mpr ⟨i, by rw [update_of_ne hij, update_self]; exact ha⟩
        · exact keeps_branch hln _ hs'.forks hw

/-! ### `Delete` -/

structure Removed (tree : TreeId) (len : Nat) (key : Bytes) (q : List Nibble) (node node' : LazyNode) (ws : List Write) :
    Prop where
  resident : Resident q node'
  keeps : ∀ w ∈ ws, Keeps tree len (some key) (skel (whole node')).leaves w
  forks : ∀ e, Forks (skel (whole node)).leaves e → Forks (skel (whole node')).leaves e ∨ .delete (tree.pathKey e) ∈ ws
  forgotten : ∀ a ∈ (skel (whole node)).leaves, a.key = key → .delete (tree.nodeKey key) ∈ ws

theorem removed_none (hr : Resident q node) (hkey : ∀ a ∈ (skel (whole node)).leaves, a.key ≠ key) :
    Removed tree len key q node node [] where
  resident := hr
  keeps _ hw := absurd hw not_mem_nil
  forks _ hf := .inl hf
  forgotten a ha hak := absurd hak (hkey a ha)

theorem lazyCount_whole (children : Fin 64 → LazyNode) :
    lazyCountLeaves children = countLeaves (fun i => whole (children i)) ∧
      lazyCountLongest children = countLongest fun i => whole (children i) := by
  constructor
  · unfold lazyCountLeaves countLeaves
    congr 1
    funext leaves i
    dsimp only
    cases children i <;> rfl
  · unfold lazyCountLongest countLongest
    congr 1
    funext longestBranch i
    dsimp only
    cases children i <;> rfl

theorem whole_afterRemove (n : LazyBranchNode) (size : Int) (children : Fin 64 → LazyNode) :
    whole (afterRemove sha3 tree n size children).1 =
      Node.afterRemove n.toBranchNode size fun i => whole (children i) := by
  have ho : occupied (fun i => whole (children i)) = occupied children := occupied_map _ _ _
  unfold afterRemove Node.afterRemove
  rw [ho]
  rcases occupied children with _ | ⟨i, _ | ⟨j, l⟩⟩
  · rfl
  · cases h : children i <;> simp [whole, h]
  · rw [← (lazyCount_whole children).1, ← (lazyCount_whole children).2]
    rfl

section
variable {n : LazyBranchNode} {children : Fin 64 → LazyNode} (size : Int) (gone : Option Bytes)

theorem afterRemove_resident (sha3 : Digest 32) (tree : TreeId) (hln : len ≠ 32) (hfl : n.fullPrefix = q ++ n.pfx) (hld : n.fullyLoaded = true)
    (hch : ∀ m, Resident (q ++ n.pfx ++ [m]) (children m))
    (hs : ∀ m, Shaped len (q ++ n.pfx ++ [m]) (skel (whole (children m)))) :
    Resident q (afterRemove sha3 tree n size children).1 ∧ (∀ w ∈ (afterRemove sha3 tree n size children).2,
        Keeps tree len gone (skel (whole (afterRemove sha3 tree n size children).1)).leaves w) ∧
      (Forks (skel (whole (afterRemove sha3 tree n size children).1)).leaves (q ++ n.pfx) ∨
        .delete (tree.pathKey (q ++ n.pfx)) ∈ (afterRemove sha3 tree n size children).2) := by
  have hs' : Shaped len q (skel (whole (afterRemove sha3 tree n size children).1)) := by
    rw [whole_afterRemove, Node.skel_afterRemove]
    exact collapse_canonical hs
  revert hs'
  unfold afterRemove
  split
  · intro hs'
    exact ⟨trivial, fun w hw => keeps_deleteBranch hln _ _ hw, .inr (by simp [deleteNode, hfl])⟩
  · rename_i i hocc
    split
    · rename_i c grandchildren hc
      intro hs'
      have hci := hch i
      rw [hc] at hci
      obtain ⟨hcf, hcl, hgr⟩ := hci
      have hmer : q ++ (n.pfx ++ i :: c.pfx) = c.fullPrefix := by rw [hcf]; simp
      refine ⟨⟨hmer.symm, hcl, fun m => ?_⟩, fun w hw => ?_, .inr (by simp [deleteNode, hfl])⟩
      · have hm := hgr m
        rw [← hcf, ← hmer] at hm
        exact hm
      · rcases mem_append.mp hw with hw | hw
        · exact keeps_deleteBranch hln _ _ hw
        · exact keeps_branch hln _ (hmer ▸ hs'.forks) hw
    · rename_i hnb
      intro hs'
      refine ⟨?_, fun w hw => keeps_deleteBranch hln _ _ hw, .inr (by simp [deleteNode, hfl])⟩
      cases hc : children i with
      | nil => trivial
      | leaf a => trivial
      | branch c g => exact absurd hc (hnb c g)
  · intro hs'
    exact ⟨⟨hfl, hld, hch⟩, fun w hw => keeps_branch hln _ (hfl ▸ hs'.forks) hw, .inl hs'.forks⟩

end

/-- Nothing is read at a slot on the way to a key: the database has nothing there either, or the key is in memory. -/
def Unread (db : Db) (tree : TreeId) (key : Bytes) (q : List Nibble) (t : Trie 64 (List Nibble) Item) : Prop :=
  Blank db tree q t ∨ ∃ a ∈ t.leaves, a.key = key

theorem Unread.slot
    (h : Unread db tree key q (.branch r ch)) (hs : Shaped len q (.branch r ch)) (hpi : q ++ r ++ [i] <+: getFullPath key) :
    Unread db tree key (q ++ r ++ [i]) (ch i) := by
  refine h.imp (fun hbl => hbl.slot hs i) ?_
  rintro ⟨a, ha, hak⟩
  obtain ⟨j, hj⟩ := mem_leaves_branch.mp ha
  have hpt := child_mem hs hj
  rw [path, hak] at hpt
  obtain rfl := slot_unique hpt hpi
  exact ⟨a, hj, hak⟩

theorem Unread.loadSlot (h : Unread db tree key q (skel (whole node))) : Quilibrium.loadSlot db tree q node = .ok node := by
  obtain hbl | ⟨a, ha, -⟩ := h
  · exact hbl.loadSlot
  · rw [Quilibrium.loadSlot]
    split_ifs with hnil
    · obtain rfl := isNil_iff.mp hnil
      exact absurd ha (by simp [whole, skel])
    · rfl

theorem LazyNode.remove_resident (sha3 : Digest 32) (hln : len ≠ 32) (hk : key.length = len)
    (hu : Unread db tree key q (skel (whole node))) (hr : Resident q node) (hs : Shaped len q (skel (whole node)))
    (hp : q <+: getFullPath key) (hfl : pathLength len < fuel + q.length) {size : Int} {t' : Node}
    (h : Node.remove key (whole node) (6 * q.length) = .ok (size, t')) :
    ∃ node' ws, remove sha3 db tree key fuel node (6 * q.length) q = .ok (size, node', ws) ∧ whole node' = t' ∧
      Removed tree len key q node node' ws := by
  have hl : (getFullPath key).length = pathLength len := by rw [getFullPath_length, hk]
  have hld := hu.loadSlot
  induction node generalizing q fuel size t' with
  | nil =>
    obtain ⟨fuel, rfl⟩ := fuel_succ hfl (hl ▸ hp.length_le)
    cases h
    exact ⟨.nil, [], by simp [remove, hld], rfl, removed_none trivial (by simp [whole, skel])⟩
  | leaf n =>
    obtain ⟨fuel, rfl⟩ := fuel_succ hfl (hl ▸ hp.length_le)
    by_cases hkey : n.key = key
    · simp only [whole, map_leaf, Node.remove, id, if_pos hkey] at h
      cases h
      refine ⟨.nil, deleteNode tree key (getFullPath key),
        by simp [remove, hld, if_pos hkey], rfl, trivial, fun w hw => ?_, fun e hf => ?_,
        fun _ _ _ => by simp [deleteNode]⟩
      · rw [deleteNode, mem_cons, mem_singleton] at hw
        rcases hw with rfl | rfl
        · exact .forgetEntry _
        · exact .forget _ fun _ => rfl
      · obtain ⟨a, ha, b, hb, i, j, hij, hi, hj⟩ := hf
        simp only [whole, skel, map_leaf, leaves_leaf, mem_singleton] at ha hb
        subst ha hb
        exact absurd (slot_unique hi hj) hij
    · simp only [whole, map_leaf, Node.remove, id, if_neg hkey] at h
      cases h
      exact ⟨.leaf n, [], by simp [remove, hld, if_neg hkey], rfl,
        removed_none trivial (by simpa [whole, skel] using hkey)⟩
  | branch n children ih =>
    obtain ⟨fuel, rfl⟩ := fuel_succ hfl (hl ▸ hp.length_le)
    obtain ⟨hfu, hloa, hch⟩ := hr
    have hsl : loadSlots db tree q n.fullyLoaded children = .ok children := by rw [loadSlots, if_pos hloa]
    have hn : { n with fullyLoaded := true } = n := by rw [← hloa]
    rcases Node.remove_branch_inv h with ⟨⟨m, hm⟩, rfl, rfl⟩ | ⟨i, child, hnn, hnib, hrem, rfl⟩
    · refine ⟨.branch n children, [], by simp [remove, hld, hsl, hn, hm], rfl,
        removed_none ⟨hfu, hloa, hch⟩ fun a ha hak => ?_⟩
      -- a key below the branch follows its prefix
      obtain ⟨j, hj⟩ := mem_leaves_branch.mp ha
      have hpt := prefix_of_append (child_mem hs hj)
      rw [path, hak] at hpt
      rw [prefixMismatch_eq_none.mpr ((append_prefix_iff hp).mp hpt)] at hm
      cases hm
    · have hpfx := (append_prefix_iff hp).mpr (prefixMismatch_eq_none.mp hnn)
      have hnib' : getNextNibble key (6 * q.length + n.pfx.length * branchBits) = some i := hnib
      have hpi : q ++ n.pfx ++ [i] <+: getFullPath key := by
        rw [getNextNibble_depth, ← length_append] at hnib
        exact append_singleton_prefix_iff.mpr ⟨hpfx, hnib⟩
      have hr' : Node.remove key (whole (children i)) (6 * (q ++ n.pfx ++ [i]).length) = .ok (size, child) := by
        rw [← depth_slot]
        exact hrem
      obtain ⟨child', ws, hrun, rfl, hrec⟩ := ih i (hu.slot hs hpi) (hch i) (hs.2 i) hpi (fuel_slot hfl) hr'
        (hu.slot hs hpi).loadSlot
      have hs' : ∀ m, Shaped len (q ++ n.pfx ++ [m]) (skel (whole (update children i child' m))) := by
        obtain ⟨_, _, hr'', hsk⟩ := Node.remove_skel (hs.2 i) hk hpi
        cases hr'.symm.trans hr''
        refine update_slots (fun m t => Shaped len (q ++ n.pfx ++ [m]) (skel (whole t))) ?_ fun m _ => hs.2 m
        rw [Shaped, hsk]
        exact remove_canonical (hs.2 i) hpi hl
      obtain ⟨hres, hkp, hfr⟩ := afterRemove_resident size (some key) sha3 tree hln hfu hloa
        (update_slots (fun m t => Resident (q ++ n.pfx ++ [m]) t) hrec.resident fun m _ => hch m) hs'
      -- what is in a slot is in the branch that is written back
      have hst : ∀ m, ∀ a ∈ (skel (whole (update children i child' m))).leaves,
          a ∈ (skel (whole (afterRemove sha3 tree n size (update children i child')).1)).leaves :=
        fun m a ha => by
          rw [whole_afterRemove, Node.skel_afterRemove, mem_collapse]
          exact ⟨m, ha⟩
      have hcl := hst i
      rw [update_self] at hcl
      refine ⟨_, ws ++ (afterRemove sha3 tree n size (update children i child')).2,
        by simp only [remove, hld, ok_bind, hsl, hn, hnn, hnib', depth_slot q n.pfx i, hrun], by rw [whole_afterRemove, whole_update]; rfl, hres, fun w hw => ?_, fun e hf => ?_, fun a ha hak => ?_⟩
      · rcases mem_append.mp hw with hw | hw
        · exact (hrec.keeps w hw).mono hcl
        · exact hkp w hw
      · rcases hf.cases hs with rfl | ⟨m, hm⟩
        · exact hfr.imp id (mem_append_right _)
        · by_cases hmi : m = i
          · subst hmi
            exact (hrec.forks e hm).imp (Forks.mono hcl) (mem_append_left _)
          · refine .inl (hm.mono fun a ha => hst m a ?_)
            rw [update_of_ne hmi]
            exact ha
      · obtain ⟨j, hj⟩ := mem_leaves_branch.mp ha
        have hpt := child_mem hs hj
        rw [path, hak] at hpt
        obtain rfl := slot_unique hpt hpi
        exact mem_append_left _ (hrec.forgotten a hj hak)

/-! ### `Commit` and `GetAllLeaves` -/

/-- The leaves of a subtree are those of the whole tree that lie below its path. -/
structure Below (leaves : List Item) (q : List Nibble) (t : Trie 64 (List Nibble) Item) : Prop where
  mem : ∀ a ∈ t.leaves, a ∈ leaves
  all : ∀ a ∈ leaves, q <+: a.path → a ∈ t.leaves

theorem Below.slot (h : Below leaves q (.branch r ch))
    (hs : Shaped len q (.branch r ch)) (i : Nibble) : Below leaves (q ++ r ++ [i]) (ch i) where
  mem a ha := h.mem a (mem_leaves_branch.mpr ⟨i, ha⟩)
  all a ha hp := (mem_child_iff hs).mpr ⟨h.all a ha (prefix_of_append (prefix_of_append hp)), hp⟩

theorem Below.blank (h : Below leaves q t) (hb : Backed len leaves tree db) : Blank db tree q t :=
  hb.blank fun a ha hp => ⟨a, h.all a ha hp, rfl⟩

/-- The items of a tree: keys of one length, each with one item. -/
structure Keyed (len : Nat) (leaves : List Item) : Prop where
  length : ∀ a ∈ leaves, a.key.length = len
  unique : ∀ a ∈ leaves, ∀ b ∈ leaves, a.key = b.key → a = b

theorem Shaped.keyed (h : Shaped len q t) : Keyed len t.leaves where
  length _ ha := h.key_length ha
  unique _ ha _ hb hab := eq_of_path h ha hb
    ((path_eq_iff ((h.key_length ha).trans (h.key_length hb).symm)).mpr hab)

theorem Backed.keep (h : Backed len leaves tree db) (hk : Keyed len leaves) {ws : List Write}
    (hws : ∀ w ∈ ws, Keeps tree len none leaves w) : Backed len leaves tree (db.apply ws) :=
  h.apply hk.length hk.unique hws nofun (fun _ hf => .inl hf) (fun _ ha => .inl ha)
    fun a ha => .inl ⟨a, ha, rfl⟩

theorem lazyLeafCommit_resident (sha512 : Digest 64) (prover : InclusionProver) (tree : TreeId) (recalc : Bool)
    {n : LeafNode} (db : Db) (hn : n.toItem ∈ leaves) (hl : n.key.length = len) (he : e <+: n.path) :
    ∃ n' ws, lazyLeafCommit sha512 tree recalc e n db =
        ((Node.commit sha512 prover recalc (.leaf n)).1, n', db.apply ws) ∧
      .leaf n' = (Node.commit sha512 prover recalc (.leaf n)).2 ∧ ∀ w ∈ ws, Keeps tree len none leaves w := by
  by_cases hc : n.commitment = [] ∨ recalc
  · simp only [lazyLeafCommit, if_pos hc, Node.commit, LeafNode.commit]
    exact ⟨_, _, rfl, rfl, fun w hw => keeps_leaf (n := { n with commitment := n.toItem.hash sha512 }) hn hl he hw⟩
  · simp only [lazyLeafCommit, if_neg hc, Node.commit, LeafNode.commit]
    exact ⟨n, [], rfl, rfl, fun w hw => absurd hw not_mem_nil⟩

/-- The loop of `commitNode` over the slots of a branch, when the slots in `done` are committed. -/
structure ResidentLoop (sha512 : Digest 64) (prover : InclusionProver) (tree : TreeId) (len : Nat) (recalculate : Bool)
    (leaves : List Item) (p : List Nibble) (slots : Fin 64 → LazyNode) (db : Db) (done : List Nibble) (data : Bytes)
    (children : Fin 64 → LazyNode) (db' : Db) : Prop where
  data_eq : data = done.flatMap fun i =>
    vectorEntry sha512 (whole (slots i)) (Node.commit sha512 prover recalculate (whole (slots i))).1
  committed : ∀ i, whole (children i) = committedSlots sha512 prover recalculate (fun i => whole (slots i)) done i
  untouched : ∀ i, i ∉ done → children i = slots i
  resident : ∀ i, Resident (p ++ [i]) (children i)
  writes : ∃ ws, db' = db.apply ws ∧ ∀ w ∈ ws, Keeps tree len none leaves w

theorem ResidentLoop.round {recalc : Bool} {p done : List Nibble} {slots children : Fin 64 → LazyNode} {data : Bytes} {commitNode : LazyNode → Db → Except Fault (Bytes × LazyNode × Db)}
    (h : ResidentLoop sha512 prover tree len recalc leaves p slots db done data children db')
    (hbc : Backed len leaves tree db) (hky : Keyed len leaves) (hi : i ∉ done)
    (hbl : Below leaves (p ++ [i]) (skel (whole (slots i))))
    (hcmm : ∀ db₁, Backed len leaves tree db₁ → slots i ≠ .nil → ∃ node' ws, commitNode (slots i) db₁ =
        .ok ((Node.commit sha512 prover recalc (whole (slots i))).1, node', db₁.apply ws) ∧
      whole node' = (Node.commit sha512 prover recalc (whole (slots i))).2 ∧ Resident (p ++ [i]) node' ∧
      ∀ w ∈ ws, Keeps tree len none leaves w) :
    ∃ s, commitSlot sha512 tree p commitNode (data, children, db') i = .ok s ∧
      ResidentLoop sha512 prover tree len recalc leaves p slots db (done ++ [i]) s.1 s.2.1 s.2.2 := by
  obtain ⟨ws, rfl, hws⟩ := h.writes
  have hbc' := hbc.keep hky hws
  have hsl := h.untouched i hi
  have hld := (hbl.blank hbc').loadSlot
  have hdt : ∀ out, (data ++ lazyVectorEntry sha512 (slots i) out) =
      (done.flatMap fun i => vectorEntry sha512 (whole (slots i))
        (Node.commit sha512 prover recalc (whole (slots i))).1) ++ vectorEntry sha512 (whole (slots i)) out :=
    fun out => by rw [h.data_eq]; cases slots i <;> rfl
  have ho : ∀ m, m ∉ done ++ [i] → m ∉ done ∧ m ≠ i := fun m hm => by simpa [not_or] using hm
  cases hc : (slots i).isNil with
  | true =>
    have hnil := isNil_iff.mp hc
    refine ⟨(data ++ lazyVectorEntry sha512 (slots i) [], children, db.apply ws), by simp [commitSlot, hsl, hld, hc], ?_, fun m => ?_,
      fun m hm => h.untouched m (ho m hm).1, h.resident, ws, rfl, hws⟩
    · rw [hdt, flatMap_append, flatMap_singleton, hnil]
      rfl
    · dsimp only
      by_cases hm : m = i
      · subst hm
        rw [committedSlots_self, hsl, hnil]
        rfl
      · rw [committedSlots_of_ne _ done hm]
        exact h.committed m
  | false =>
    obtain ⟨node', ws', hrun, hwh, hr, hws'⟩ := hcmm _ hbc' (isNil_eq_false.mp hc)
    refine ⟨(data ++ lazyVectorEntry sha512 (slots i) (Node.commit sha512 prover recalc (whole (slots i))).1,
        update children i node', (db.apply ws).apply ws'),
      by simp [commitSlot, hsl, hld, hc, hrun], ?_, fun m => ?_,
      fun m hm => ?_, ?_, ws ++ ws', (Db.apply_append _ _ _).symm, fun w hw => ?_⟩
    · rw [hdt, flatMap_append, flatMap_singleton]
    · dsimp only
      by_cases hm : m = i
      · subst hm
        rw [committedSlots_self, update_self]
        exact hwh
      · rw [committedSlots_of_ne _ done hm, update_of_ne hm]
        exact h.committed m
    · dsimp only
      rw [update_of_ne (ho m hm).2]
      exact h.untouched m (ho m hm).1
    · exact update_slots (fun m t => Resident (p ++ [m]) t) hr fun m _ => h.resident m
    · exact (mem_append.mp hw).elim (hws w) (hws' w)

theorem LazyNode.commitNode_resident (sha3 : Digest 32) (sha512 : Digest 64) (prover : InclusionProver)
    (recalc : Bool) (hln : len ≠ 32) (hky : Keyed len leaves) (hbc : Backed len leaves tree db)
    (hbl : Below leaves q (skel (whole node))) (hr : Resident q node) (hs : Shaped len q (skel (whole node)))
    (hnd : node ≠ .nil) (hfu : pathLength len < fuel + q.length) :
    ∃ node' ws, commitNode sha3 sha512 prover tree recalc fuel node db =
        .ok ((Node.commit sha512 prover recalc (whole node)).1, node', db.apply ws) ∧
      whole node' = (Node.commit sha512 prover recalc (whole node)).2 ∧ Resident q node' ∧
      ∀ w ∈ ws, Keeps tree len none leaves w := by
  induction node generalizing q fuel db with
  | nil => exact absurd rfl hnd
  | leaf n =>
    obtain ⟨fuel, rfl⟩ := fuel_succ hfu (hs.2 ▸ hs.1.length_le)
    have hn : n.toItem ∈ (skel (whole (.leaf n))).leaves := by simp [whole, skel]
    obtain ⟨n', ws, hc, hn', hws⟩ := lazyLeafCommit_resident sha512 prover tree recalc db (hbl.mem _ hn)
      (hs.key_length hn) prefix_rfl
    rw [path] at hc
    exact ⟨.leaf n', ws, by simp [commitNode, hc]; rfl, hn', trivial, hws⟩
  | branch n children ih =>
    obtain ⟨hfl, hl, hch⟩ := hr
    obtain ⟨fuel, rfl⟩ := fuel_succ hfu ((prefix_append _ _).length_le.trans (branch_length hs).le)
    by_cases hn : n.commitment ≠ [] ∧ !recalc
    · have hn' : ¬(n.commitment = [] ∨ recalc = true) := trusted_iff.mp hn
      refine ⟨.branch n children, [], ?_, ?_, ⟨hfl, hl, hch⟩, fun w hw => absurd hw not_mem_nil⟩
      · simp only [commitNode, if_pos hn, whole, map_branch, Node.commit, if_neg hn']
        rfl
      · simp [whole, map_branch, Node.commit, if_neg hn']
    · have hn' : n.commitment = [] ∨ recalc = true := not_not.mp (mt trusted_iff.mpr hn)
      obtain ⟨⟨data, children', db'⟩, hlp, hinv⟩ := foldlM_ok_of_inv
        (l := finRange 64) (b := (([] : Bytes), children, db))
        (f := commitSlot sha512 tree n.fullPrefix (commitNode sha3 sha512 prover tree recalc fuel))
        (fun done s => ResidentLoop sha512 prover tree len recalc leaves (q ++ n.pfx) children db done s.1 s.2.1
          s.2.2)
        { data_eq := rfl, committed := fun i => by simp [committedSlots], untouched := fun _ _ => rfl, resident := hch,
          writes := ⟨[], rfl, fun w hw => absurd hw not_mem_nil⟩ }
        fun done i rest s hsp hinv => by
          have hi : i ∉ done := not_mem_done hsp
          rw [hfl]
          exact hinv.round hbc hky hi (hbl.slot hs i) fun db₁ hbc₁ hne =>
            ih i hbc₁ (hbl.slot hs i) (hch i) (hs.2 i) hne (fuel_slot hfu)
      obtain ⟨ws, rfl, hws⟩ := hinv.writes
      have hall : ∀ i, whole (children' i) = (Node.commit sha512 prover recalc (whole (children i))).2 := fun i =>
        (hinv.committed i).trans (if_pos (mem_finRange i))
      have hdt := hinv.data_eq
      simp only at hdt
      have hfr : Forks leaves (q ++ n.pfx) := hs.forks.mono hbl.mem
      refine ⟨.branch { n with commitment := prover.commitRaw data 64 } children',
        ws ++ insertNode tree (generateKeyFromPath sha3 n.fullPrefix) n.fullPrefix
          (.branch { n with commitment := prover.commitRaw data 64 } children'), ?_, ?_, ⟨hfl, hl, ?_⟩,
        fun w hw => ?_⟩
      · simp only [commitNode, if_neg hn, hlp, ok_bind, whole, map_branch, Node.commit, if_pos hn',
          Db.apply_append, hdt]
      · simp only [whole, map_branch, Node.commit, if_pos hn', hdt]
        congr 1
        exact funext hall
      · exact hinv.resident
      · rcases mem_append.mp hw with hw | hw
        · exact hws w hw
        · exact keeps_branch hln _ (hfl ▸ hfr) hw

theorem getAllLeaves_resident (hbl : Blank db tree q (skel (whole node))) (hr : Resident q node)
    (hs : Shaped len q (skel (whole node))) (hq : q.length ≤ pathLength len)
    (hfl : pathLength len < fuel + q.length) : getAllLeaves db tree fuel node = .ok node.leaves := by
  induction node generalizing q fuel with
  | nil | leaf n =>
    obtain ⟨fuel, rfl⟩ := fuel_succ hfl hq
    rfl
  | branch n children ih =>
    obtain ⟨hfu, hloa, hch⟩ := hr
    obtain ⟨fuel, rfl⟩ := fuel_succ hfl hq
    have hl := branch_length hs
    rw [getAllLeaves, foldlM_append_ok (g := fun i => (children i).leaves) fun i _ leaves => ?_]
    · rfl
    · have hsl : (q ++ n.pfx ++ [i]).length ≤ pathLength len := by
        rw [length_append, length_singleton]
        exact hl
      rw [hfu, (hbl.slot hs i).loadSlot, ok_bind, ih i (hbl.slot hs i) (hch i) (hs.2 i) hsl
        (fuel_slot hfl), ok_bind]

end

end Quilibrium
