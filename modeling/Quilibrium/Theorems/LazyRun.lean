import Quilibrium.Theorems.LazyCommit
import Quilibrium.Theorems.LazyInsert
import Quilibrium.Theorems.TreeRun

/-! Runs of inserts. `Insert` files a leaf under a short path when it splits a prefix, and no later call removes that
    entry. -/

namespace Quilibrium
open Radix List LazyVectorCommitmentTree OrdMap

/-! ### Calls -/

/-- A call on a store-backed tree. An `Insert` may have a transaction of its own, which is committed after it. -/
inductive LazyCall where
  | insert (new : Item) (inTransaction : Bool)
  | commit (recalculate : Bool)
  | unload (drop : List Nibble → Bool)
  | reload

/-- Drops the in-memory children of the branches that `drop` picks by their full prefix. -/
def LazyNode.unload (drop : List Nibble → Bool) : LazyNode → LazyNode
  | .nil => .nil
  | .leaf n => .leaf n
  | .branch n children =>
    if drop n.fullPrefix then .branch { n with fullyLoaded := false } fun _ => .nil
    else .branch n fun i => LazyNode.unload drop (children i)

namespace LazyCall

def inserted : LazyCall → Option Item
  | insert new _ => some new
  | _ => none

def inserts (calls : List LazyCall) : List TreeCall := (calls.filterMap inserted).map .insert

def keys (calls : List LazyCall) : List Bytes := (calls.filterMap inserted).map (·.key)

end LazyCall

namespace LazyVectorCommitmentTree

section
variable (sha3 : Digest 32) (sha512 : Digest 64) (prover : InclusionProver) (fuel : Nat)

def call : LazyVectorCommitmentTree × Db → LazyCall → Except Fault (LazyVectorCommitmentTree × Db)
  | (t, db), .insert new inTransaction => do
    let (t, db, txn, _) ← t.insert sha3 db (if inTransaction then some [] else none) new
    .ok (t, db.apply (txn.getD []))
  | (t, db), .commit recalculate => do
    let (_, t, db) ← t.commit sha3 sha512 prover fuel db recalculate
    .ok (t, db)
  | (t, db), .unload drop => .ok ({ t with root := t.root.unload drop }, db)
  | (t, db), .reload => .ok ({ t with root := loadRoot db t.tree }, db)

def run (s : LazyVectorCommitmentTree × Db) (calls : List LazyCall) : Except Fault (LazyVectorCommitmentTree × Db) :=
  calls.foldlM (call sha3 sha512 prover fuel) s

/-- Every `Insert` of the run is called in a state whose path entries reach. -/
def EntriesReach (s : LazyVectorCommitmentTree × Db) : List LazyCall → Prop
  | [] => True
  | c :: calls => (∀ new, c.inserted = some new → Reaches s.2 s.1.tree new) ∧
    ∀ s', call sha3 sha512 prover fuel s c = .ok s' → EntriesReach s' calls

end

end LazyVectorCommitmentTree

structure Fresh (db : Db) (tree : TreeId) : Prop where
  path : ∀ k, tree.pathKey [] <+: k → db.get k = none
  node : ∀ k, db.get (tree.nodeKey k) = none
  root : db.get tree.rootKey = none

/-- `BranchAt t q p slots`: the tree `t` at slot path `q` has a branch with full prefix `p` and these slots. -/
inductive BranchAt : Node → List Nibble → List Nibble → (Fin 64 → Node) → Prop
  | here (b : BranchNode) (slots : Fin 64 → Node) (q : List Nibble) : BranchAt (.branch b slots) q (q ++ b.pfx) slots
  | inSlot {b : BranchNode} {slots : Fin 64 → Node} {q p : List Nibble} {slots' : Fin 64 → Node} (i : Nibble)
    (h : BranchAt (slots i) (q ++ b.pfx ++ [i]) p slots') : BranchAt (.branch b slots) q p slots'

section
variable {sha3 : Digest 32} {sha512 : Digest 64} {prover : InclusionProver} {len fuel : Nat} {keys : List Bytes}
  {t : LazyVectorCommitmentTree} {db : Db} {root : Node} {tree : TreeId} {q p : List Nibble}

theorem Fresh.represents (h : Fresh db tree) (c : List Nibble) : Represents sha3 len keys ⟨.nil, tree, c⟩ db .nil where
  typed := ⟨fun k v hget hk => by simp [h.path k hk] at hget, fun k _ b p hget => by simp [h.node k] at hget⟩
  placed := placed_nil len
  filed e _ _ := h.path _ (TreeId.pathKey_prefix_iff.mpr nil_prefix)
  mirrors := trivial
  loaded _ := rfl
  saved := by rw [loadRoot, h.root]; rfl
  blank _ := h.path _ prefix_rfl

theorem fresh_empty (tree : TreeId) : Fresh empty tree := ⟨fun _ _ => get_empty _, fun _ => get_empty _, get_empty _⟩

theorem Filed.lookup_slot (hF : Filed sha3 tree db q root) (hidx : Indexed db tree) {slots : Fin 64 → Node}
    (hb : BranchAt root q p slots) (i : Nibble) : getNodeByPath db tree (p ++ [i]) =
      if (slots i).isNil then .error .notFound else .ok (unloaded (p ++ [i]) (slots i)) := by
  induction hb with
  | here b slots q => exact (hF.2 i).lookup hidx (by simp)
  | inSlot j _ ih => exact ih (hF.2 j)

/-! ### One call -/

theorem Mirrors.unload (drop : List Nibble → Bool) {node : LazyNode} {t : Node} (h : Mirrors node q t) :
    Mirrors (node.unload drop) q t := by
  induction node generalizing q t with
  | nil => trivial
  | leaf n => exact h
  | branch n ch ih =>
    obtain ⟨hfl, slots, rfl, hch⟩ := h
    rw [LazyNode.unload]
    split
    · exact ⟨hfl, slots, rfl, fun _ => trivial⟩
    · exact ⟨hfl, slots, rfl, fun i => ih i (hch i)⟩

theorem LazyNode.unload_eq_nil {drop : List Nibble → Bool} {node : LazyNode} (h : node.unload drop = .nil) :
    node = .nil := by
  cases node with
  | nil => rfl
  | leaf n => cases h
  | branch n ch =>
    rw [LazyNode.unload] at h
    split at h <;> cases h

theorem Represents.unload (h : Represents sha3 len keys t db root) (drop : List Nibble → Bool) :
    Represents sha3 len keys { t with root := t.root.unload drop } db root :=
  { h with mirrors := h.mirrors.unload drop, loaded := fun hnil => h.loaded (LazyNode.unload_eq_nil hnil) }

theorem Represents.reload (h : Represents sha3 len keys t db root) :
    Represents sha3 len keys { t with root := loadRoot db t.tree } db root := by
  refine { h with mirrors := ?_, loaded := fun hnil => ?_ }
  · rw [h.saved]
    exact h.filed.mirrors
  · rw [h.saved] at hnil
    cases root with
    | nil => rfl
    | leaf n => cases hnil
    | branch b slots => cases hnil

theorem Represents.insert (h : Represents sha3 len keys t db root) (hcf : CollisionFree sha3 keys) (hl : 0 < len)
    {new : Item} (hk : new.key.length = len) (hnew : new.key ∈ keys)
    (hcov : t.isPathWithinCoveredPrefix new.path = true) (hrc : Reaches db t.tree new) (inTxn : Bool) :
    ∃ node db' root', call sha3 sha512 prover fuel (t, db) (.insert new inTxn) =
        .ok ({ t with root := node }, db') ∧
      Represents sha3 len keys { t with root := node } db' root' ∧ skel root' = insert Item.path new (skel root) 0 ∧
      (Coherent sha512 prover root → Coherent sha512 prover root') := by
  have hkey : new.key ≠ [] := ne_nil_of_length_pos (hk ▸ hl)
  obtain ⟨sizeDelta, heq⟩ :=
    t.insert_eq sha3 (if inTxn then some [] else none) hkey (h.typed.leaves new.key hnew) hcov
  obtain ⟨delta, node, ws, root', hins, hr, hsk, hc⟩ := h.insertRoot sha512 prover sizeDelta hcf hl hk hnew hrc
  refine ⟨node, _, root', ?_, hr, hsk, hc⟩
  rw [call, heq, hins]
  cases inTxn with
  | false => rfl
  | true =>
    rw [db.apply_comm fun w hw w' hw' => saveRoot_key hw' ▸ LazyNode.insert_ne_rootKey hins w hw]
    rfl

/-- A call keeps memory and store together, and changes the tree they stand for as the in-memory `Insert`
    does, or not at all. -/
theorem Represents.call (h : Represents sha3 len keys t db root) (hcf : CollisionFree sha3 keys) (hl : 0 < len)
    (hfl : pathLength len < fuel) (hc : t.coveredPrefix = []) (hcoh : Coherent sha512 prover root) {c : LazyCall}
    (hky : ∀ new, c.inserted = some new → new.key.length = len ∧ new.key ∈ keys ∧ Reaches db t.tree new) :
    ∃ node db' root', call sha3 sha512 prover fuel (t, db) c = .ok ({ t with root := node }, db') ∧
      Represents sha3 len keys { t with root := node } db' root' ∧ Coherent sha512 prover root' ∧
      skel root' = match c.inserted with
        | some new => Radix.insert Item.path new (skel root) 0
        | none => skel root := by
  cases c with
  | insert new inTxn =>
    obtain ⟨hk, hnew, hrc⟩ := hky new rfl
    have hcov : t.isPathWithinCoveredPrefix new.path = true := by
      rw [isPathWithinCoveredPrefix, hc]
      rfl
    obtain ⟨node, db', root', hcall, hr, hsk, hc'⟩ := h.insert hcf hl hk hnew hcov hrc inTxn
    exact ⟨node, db', root', hcall, hr, hc' hcoh, hsk⟩
  | commit recalc =>
    obtain ⟨node, db', hcom, hr⟩ := h.commit hcf hl hfl sha512 prover recalc
    obtain ⟨-, hs, hsk⟩ := VectorCommitmentTree.commit_spec (t := ⟨root⟩) recalc hcoh
    refine ⟨node, db', _, ?_, hr, hs.coherent, hsk⟩
    simp [LazyVectorCommitmentTree.call, hcom]
  | unload drop => exact ⟨_, db, root, rfl, h.unload drop, hcoh, rfl⟩
  | reload => exact ⟨_, db, root, rfl, h.reload, hcoh, rfl⟩

/-! ### Every run -/

theorem LazyVectorCommitmentTree.run_cons {s s' : LazyVectorCommitmentTree × Db} {c : LazyCall}
    (hcall : call sha3 sha512 prover fuel s c = .ok s') (calls : List LazyCall) :
    run sha3 sha512 prover fuel s (c :: calls) = run sha3 sha512 prover fuel s' calls := by
  rw [run, foldlM_cons, hcall, Except.ok_bind]
  rfl

theorem Represents.run (h : Represents sha3 len keys t db root) (hcf : CollisionFree sha3 keys) (hl : 0 < len)
    (hfl : pathLength len < fuel) (hc : t.coveredPrefix = []) (hcoh : Coherent sha512 prover root)
    {b : Bytes → Option Item} {eager : VectorCommitmentTree} (heg : Holds sha512 prover len b eager)
    (hsk : skel root = skel eager.root) {calls : List LazyCall}
    (hcl : ∀ c ∈ calls, ∀ new, c.inserted = some new → new.key.length = len ∧ new.key ∈ keys)
    (hrc : LazyVectorCommitmentTree.EntriesReach sha3 sha512 prover fuel (t, db) calls) :
    ∃ node db' root' eager', run sha3 sha512 prover fuel (t, db) calls = .ok ({ t with root := node }, db') ∧
      VectorCommitmentTree.run sha512 prover eager (LazyCall.inserts calls) = .ok eager' ∧
      Represents sha3 len keys { t with root := node } db' root' ∧ Coherent sha512 prover root' ∧
      skel root' = skel eager'.root ∧ ∃ b', Holds sha512 prover len b' eager' := by
  induction calls generalizing t db root b eager with
  | nil => exact ⟨t.root, db, root, eager, rfl, rfl, h, hcoh, hsk, b, heg⟩
  | cons c calls ih =>
    obtain ⟨hrc₁, hrc⟩ := hrc
    obtain ⟨node, db₁, root₁, hcall, h₁, hc₁, hsk₁⟩ := h.call hcf hl hfl hc hcoh fun new hnew =>
      ⟨(hcl c mem_cons_self new hnew).1, (hcl c mem_cons_self new hnew).2, hrc₁ new hnew⟩
    have hcl' := fun d hd => hcl d (mem_cons_of_mem c hd)
    cases hins : c.inserted with
    | none =>
      rw [hins] at hsk₁
      obtain ⟨node', db', root', eager', hr', heg', hrs⟩ := ih h₁ hc hc₁ heg (hsk₁.trans hsk) hcl' (hrc _ hcall)
      refine ⟨node', db', root', eager', (run_cons hcall calls).trans hr', ?_, hrs⟩
      rw [LazyCall.inserts, filterMap_cons_none hins]
      exact heg'
    | some new =>
      have hsk₁ : skel root₁ = Radix.insert Item.path new (skel root) 0 := by rw [hsk₁, hins]
      obtain ⟨eager₁, hin, hhl, hsk₂⟩ := heg.insert hl (hcl c mem_cons_self new hins).1
      rw [hsk, ← hsk₂] at hsk₁
      obtain ⟨node', db', root', eager', hr', heg', hrs⟩ := ih h₁ hc hc₁ hhl hsk₁ hcl' (hrc _ hcall)
      refine ⟨node', db', root', eager', (run_cons hcall calls).trans hr', ?_, hrs⟩
      rw [LazyCall.inserts, filterMap_cons_some hins, map_cons, VectorCommitmentTree.run, foldlM_cons,
        VectorCommitmentTree.call, hin]
      exact heg'

def Matches (sha3 : Digest 32) (sha512 : Digest 64) (prover : InclusionProver) (fuel : Nat)
    (t : LazyVectorCommitmentTree) (db : Db) (eager : VectorCommitmentTree) : Prop :=
  (∃ leaves, getAllLeaves db t.tree fuel t.root = .ok leaves ∧
    leaves.map (·.toItem) = eager.getAllPreloadedLeaves.map (·.toItem)) ∧
  ∀ recalculate, ∃ t' db', t.commit sha3 sha512 prover fuel db recalculate =
    .ok ((eager.commit sha512 prover recalculate).1, t', db')

theorem Represents.matches (h : Represents sha3 len keys t db root) (hcf : CollisionFree sha3 keys) (hlen : 0 < len)
    (hfl : pathLength len < fuel) (hcoh : Coherent sha512 prover root) {eager : VectorCommitmentTree}
    (heg : Coherent sha512 prover eager.root) (hsk : skel root = skel eager.root) :
    Matches sha3 sha512 prover fuel t db eager := by
  refine ⟨⟨root.leaves, h.leaves hfl, ?_⟩, fun recalc => ?_⟩
  · have hl := congrArg Trie.leaves hsk
    rw [skel, skel, Trie.leaves_map, Trie.leaves_map] at hl
    exact hl
  · obtain ⟨node', db'', hc, -⟩ := h.commit hcf hlen hfl sha512 prover recalc
    have hv : (VectorCommitmentTree.commit sha512 prover ⟨root⟩ recalc).1 =
        (eager.commit sha512 prover recalc).1 := by
      rw [(VectorCommitmentTree.commit_spec recalc hcoh).1, (VectorCommitmentTree.commit_spec recalc heg).1,
        hsk]
    rw [hv] at hc
    exact ⟨_, db'', hc⟩

/-- In every run whose inserts find path entries that reach, the store-backed tree refines the in-memory tree after
    the same inserts: it has its leaves and root commitment, what is loaded is part of a tree of its shape, and a
    lookup by path finds what is in any slot of any branch of that tree. -/
theorem lazy_run_refines (sha3 : Digest 32) (sha512 : Digest 64) (prover : InclusionProver) {len fuel : Nat}
    (hlen : 0 < len) (hfuel : pathLength len < fuel) {tree : TreeId} {db : Db} (hfresh : Fresh db tree)
    {calls : List LazyCall} (hcalls : ∀ c ∈ calls, ∀ new, c.inserted = some new → new.key.length = len)
    (hcf : CollisionFree sha3 (LazyCall.keys calls))
    (hreach : EntriesReach sha3 sha512 prover fuel (⟨.nil, tree, []⟩, db) calls) :
    ∃ t db' eager root, LazyVectorCommitmentTree.run sha3 sha512 prover fuel (⟨.nil, tree, []⟩, db) calls = .ok (t, db') ∧
      VectorCommitmentTree.run sha512 prover .empty (LazyCall.inserts calls) = .ok eager ∧
      (∃ leaves, getAllLeaves db' tree fuel t.root = .ok leaves ∧
        leaves.map (·.toItem) = eager.getAllPreloadedLeaves.map (·.toItem)) ∧
      (∀ recalculate, ∃ t' db'', t.commit sha3 sha512 prover fuel db' recalculate =
        .ok ((eager.commit sha512 prover recalculate).1, t', db'')) ∧
      skel root = skel eager.root ∧ Mirrors t.root [] root ∧ loadRoot db' tree = unloaded [] root ∧
      ∀ p slots, BranchAt root [] p slots → ∀ i, getNodeByPath db' tree (p ++ [i]) =
        if (slots i).isNil then .error .notFound else .ok (unloaded (p ++ [i]) (slots i)) := by
  have hky : ∀ c ∈ calls, ∀ new, c.inserted = some new → new.key.length = len ∧ new.key ∈ LazyCall.keys calls :=
    fun c hc new hnew => ⟨hcalls c hc new hnew, mem_map_of_mem (mem_filterMap.mpr ⟨c, hc, hnew⟩)⟩
  have hnil : Coherent sha512 prover .nil := trivial
  obtain ⟨node, db', root, eager, hrun, heg, hr, hcoh, hsk, b, hhl⟩ :=
    (hfresh.represents []).run hcf hlen hfuel rfl hnil (holds_empty sha512 prover len) rfl hky hreach
  obtain ⟨hl, hcom⟩ := hr.matches hcf hlen hfuel hcoh hhl.coherent hsk
  exact ⟨_, db', eager, root, hrun, heg, hl, hcom, hsk, hr.mirrors, hr.saved,
    fun p slots hb i => hr.filed.lookup_slot hr.typed.indexed hb i⟩

end

theorem Digest.padded_inj {a b : Bytes} (ha : a.length ≤ 31) (hb : b.length ≤ 31)
    (h : Digest.padded.sum a = Digest.padded.sum b) : a = b := by
  obtain ⟨hlen, hpad⟩ := cons.inj h
  have hl : a.length = b.length := by
    have := congrArg UInt8.toNat hlen
    rw [UInt8.toNat_ofNat', UInt8.toNat_ofNat'] at this
    omega
  have htk : ∀ c : Bytes, c.length ≤ 31 → ((c ++ replicate 31 0).take 31).take c.length = c := by
    intro c hc
    rw [take_take, Nat.min_eq_left hc, take_left]
  rw [← htk a ha, ← htk b hb, hpad, hl]

theorem Digest.padded_collisionFree {keys : List Bytes} (hky : ∀ k ∈ keys, k.length ≤ 23) :
    CollisionFree Digest.padded keys := by
  have hsh : ∀ p, Spelled keys p → (p.map fun x : Nibble => UInt8.ofNat x.val).length ≤ 31 := by
    rintro p ⟨k, hk, hp⟩
    have hle := hp.length_le
    have hk := hky k hk
    rw [getFullPath_length, pathLength] at hle
    rw [length_map]
    omega
  refine ⟨fun p q hp hq h => ?_, fun p k hp hk h => ?_⟩
  · exact map_injective_iff.mpr (fun x y hxy => nibble_ofNat_inj hxy)
      (Digest.padded_inj (hsh p hp) (hsh q hq) h)
  · have hl := Digest.padded.length_sum (p.map fun x => UInt8.ofNat x.val)
    rw [generateKeyFromPath] at h
    rw [h] at hl
    have := hky k hk
    omega

/-! ### Runs of one tree -/

def zeroTree : TreeId := ⟨.vertex, .adds, ⟨List.replicate 3 0, List.replicate 32 0, rfl, rfl⟩⟩

/-- Two keys with one first nibble, then two with another. -/
def shadowing : List LazyCall :=
  [[0, 0], [0, 4], [4, 0], [4, 4]].map fun k => .insert ⟨k, [7], [], 1⟩ false

def shadowedBranch (s : LazyVectorCommitmentTree × Db) : Option (List Nibble × LeafNode) :=
  match s.1.root with
  | .branch b slots =>
    match slots 1, getNodeByPath s.2 zeroTree [1] with
    | .branch _ _, .ok (.leaf n) => some (b.fullPrefix, n)
    | _, _ => none
  | _ => none

/-- The third insert splits the prefix of the root and files its leaf under the path `[1]`. The fourth puts a
    branch into slot 1, and a lookup of that slot still finds the leaf. -/
theorem short_entry_shadows_branch :
    ∃ t db b slots, LazyVectorCommitmentTree.run Digest.padded (Digest.zeros 64) .transparent 4
        (⟨.nil, zeroTree, []⟩, empty) shadowing = .ok (t, db) ∧
      t.root = .branch b slots ∧ b.fullPrefix = [] ∧ (∃ b' slots', slots 1 = .branch b' slots') ∧
      getNodeByPath db zeroTree [1] = .ok (.leaf ⟨⟨[4, 0], [7], [], 1⟩, []⟩) := by
  have hev : (run Digest.padded (Digest.zeros 64) .transparent 4
      (⟨.nil, zeroTree, []⟩, empty) shadowing).toOption.bind shadowedBranch =
      some ([], ⟨⟨[4, 0], [7], [], 1⟩, []⟩) := by decide +kernel
  generalize run Digest.padded (Digest.zeros 64) .transparent 4
    (⟨.nil, zeroTree, []⟩, empty) shadowing = result at hev
  obtain _ | ⟨t, db⟩ := result
  · cases hev
  · change shadowedBranch (t, db) = _ at hev
    unfold shadowedBranch at hev
    split at hev
    next b slots hrt =>
      split at hev
      next b' slots' n hsl hlk =>
        obtain ⟨hfl, rfl⟩ := Prod.mk.inj (Option.some.inj hev)
        exact ⟨t, db, b, slots, rfl, hrt, hfl, ⟨b', slots', hsl⟩, hlk⟩
      next => cases hev
    next => cases hev

/-- A key, a restart, and a second key next to the first. -/
def reloading : List LazyCall :=
  [.insert ⟨[0], [7], [], 1⟩ false, .commit false, .reload, .insert ⟨[1], [8], [], 1⟩ true,
    .unload fun _ => true, .commit true]

def reloadedLeaf : LeafNode := ⟨⟨[0], [7], [], 1⟩, List.replicate 64 0⟩

theorem reloading_entriesReach : EntriesReach Digest.padded (Digest.zeros 64) .transparent 4
    (⟨.nil, zeroTree, []⟩, empty) reloading := by
  have hev : (run Digest.padded (Digest.zeros 64) .transparent 4
      (⟨.nil, zeroTree, []⟩, empty) (reloading.take 3)).toOption.map (fun s => (s.1.tree, s.2.entries)) =
      some (zeroTree, [(zeroTree.nodeKey [0], .node (.leaf reloadedLeaf)),
        (zeroTree.pathKey [], .key (zeroTree.nodeKey [0])), (zeroTree.pathKey [0, 0], .key (zeroTree.nodeKey [0])),
        (zeroTree.rootKey, .node (.leaf reloadedLeaf))]) := by decide +kernel
  refine ⟨fun _ _ n hn => ?_, fun s₁ h₁ => ⟨nofun, fun s₂ h₂ => ⟨nofun, fun s₃ h₃ => ⟨?_, fun s₄ _ =>
    ⟨nofun, fun s₅ _ => ⟨nofun, fun _ _ => trivial⟩⟩⟩⟩⟩⟩
  · rw [get_empty] at hn
    cases hn
  · have hr := run_cons h₁ [.commit false, .reload]
    rw [run_cons h₂, run_cons h₃] at hr
    rw [show reloading.take 3 = [.insert ⟨[0], [7], [], 1⟩ false, .commit false, .reload] from rfl, hr] at hev
    obtain ⟨htr, hen⟩ := Prod.mk.inj (Option.some.inj hev)
    rintro new ⟨⟩ n hn -
    rw [htr] at hn ⊢
    obtain rfl : n = reloadedLeaf := by
      rw [get_eq_some, hen] at hn
      simp only [mem_cons, Prod.mk.injEq, Value.node.injEq, NodeRecord.leaf.injEq, reduceCtorEq, and_false,
        false_or, or_false, not_mem_nil] at hn
      exact hn.elim And.right And.right
    refine ⟨fun e he hget => ?_, [0, 0], ?_, by decide⟩
    · rw [get_eq_some, hen] at hget
      simp only [mem_cons, Prod.mk.injEq, reduceCtorEq, and_false, false_or, or_false, not_mem_nil] at hget
      obtain ⟨hkey, -⟩ | ⟨hkey, -⟩ := hget
      · exact absurd (TreeId.pathKey_inj hkey) he
      · rw [TreeId.pathKey_inj hkey]
        decide
    · rw [get_eq_some, hen]
      simp [reloadedLeaf]

theorem reloading_keys : ∀ c ∈ reloading, ∀ new, c.inserted = some new →
    new.key.length = 1 ∧ new.key ∈ LazyCall.keys reloading := by
  intro c hc new hnew
  have hlen : ∀ new ∈ reloading.filterMap LazyCall.inserted, new.key.length = 1 := by decide
  have hm := mem_filterMap.mpr ⟨c, hc, hnew⟩
  exact ⟨hlen new hm, mem_map_of_mem hm⟩

theorem lazy_run_refines_reloading :
    ∃ t db' eager root, LazyVectorCommitmentTree.run Digest.padded (Digest.zeros 64) .transparent 4
        (⟨.nil, zeroTree, []⟩, empty) reloading = .ok (t, db') ∧
      VectorCommitmentTree.run (Digest.zeros 64) .transparent .empty (LazyCall.inserts reloading) = .ok eager ∧
      (∃ leaves, getAllLeaves db' zeroTree 4 t.root = .ok leaves ∧
        leaves.map (·.toItem) = eager.getAllPreloadedLeaves.map (·.toItem)) ∧
      (∀ recalculate, ∃ t' db'', t.commit Digest.padded (Digest.zeros 64) .transparent 4 db' recalculate =
        .ok ((eager.commit (Digest.zeros 64) .transparent recalculate).1, t', db'')) ∧
      skel root = skel eager.root ∧ Mirrors t.root [] root ∧ loadRoot db' zeroTree = unloaded [] root ∧
      ∀ p slots, BranchAt root [] p slots → ∀ i, getNodeByPath db' zeroTree (p ++ [i]) =
        if (slots i).isNil then .error .notFound else .ok (unloaded (p ++ [i]) (slots i)) := by
  refine lazy_run_refines Digest.padded (Digest.zeros 64) .transparent (by decide : 0 < 1) (by decide)
    (fresh_empty zeroTree) (fun c hc new hnew => ?_) (Digest.padded_collisionFree (by decide)) reloading_entriesReach
  exact (reloading_keys c hc new hnew).1

end Quilibrium
