import Mathlib.Algebra.BigOperators.Finprod
import Mathlib.Algebra.BigOperators.Group.Finset.Basic
import Mathlib.Algebra.Order.BigOperators.Group.Finset
import Mathlib.Algebra.Order.Ring.Int
import Quilibrium.Theorems.Revert

/-! The size of a hypergraph: each call adds to one counter or subtracts from it, whatever it changed in the sets. -/

namespace Quilibrium
open Radix Function Except List Option HypergraphCRDT

/-! ### Sums -/

theorem finsum_update {α : Type} [DecidableEq α] {f : α → Int} (hf : (support f).Finite) (a : α) (v : Int) :
    ∑ᶠ x, update f a v x = ∑ᶠ x, f x + (v - f a) := by
  have hs : ∑ᶠ x, (if x = a then v - f a else 0) = v - f a := by
    rw [finsum_eq_single _ a fun x hx => if_neg hx, if_pos rfl]
  have hfin : (support fun x => if x = a then v - f a else 0).Finite := (Set.finite_singleton a).subset fun x hx => by
      by_contra hne
      exact hx (if_neg hne)
  rw [← hs, ← finsum_add_distrib hf hfin]
  refine finsum_congr fun x => ?_
  by_cases hx : x = a
  · subst hx
    rw [update_self, if_pos rfl]
    omega
  · rw [update_of_ne hx, if_neg hx, Int.add_zero]

def itemSize (o : Option Item) : Nat := (o.map (·.size)).getD 0

noncomputable def weight (b : Bytes → Option Item) : Int := ∑ᶠ k, (itemSize (b k) : Int)

noncomputable def Bindings.total (B : Bindings) (p : PhaseType) : Int :=
  ∑ᶠ s, (weight (B ⟨.vertex, p, s⟩) + weight (B ⟨.hyperedge, p, s⟩))

structure Bindings.Finite (B : Bindings) : Prop where
  keys : ∀ tree, {k | B tree k ≠ none}.Finite
  shards : {s | ∃ m p k, B ⟨m, p, s⟩ k ≠ none}.Finite

/-- No key has a larger size in a removes set than in the adds set. -/
def Bindings.Ordered (B : Bindings) : Prop :=
  ∀ m s k, itemSize (B ⟨m, .removes, s⟩ k) ≤ itemSize (B ⟨m, .adds, s⟩ k)

noncomputable def Bindings.balance (B : Bindings) : Int := B.total .adds - B.total .removes

def PhaseType.sign : PhaseType → Int
  | .adds => 1
  | .removes => -1

section
variable {b b' : Bytes → Option Item} {B : Bindings} {tree : TreeId} {p : PhaseType}

theorem support_itemSize (hb : {k | b k ≠ none}.Finite) : (support fun k => (itemSize (b k) : Int)).Finite :=
  hb.subset fun k hk hnn => hk (by simp [itemSize, hnn])

theorem weight_update (hb : {k | b k ≠ none}.Finite) (k : Bytes) (o : Option Item) :
    weight (update b k o) = weight b + (itemSize o - itemSize (b k)) := by
  rw [weight, weight, ← finsum_update (support_itemSize hb)]
  refine finsum_congr fun x => ?_
  by_cases hx : x = k
  · subst hx
    rw [update_self, update_self]
  · rw [update_of_ne hx, update_of_ne hx]

theorem weight_none : weight (fun _ => none) = 0 := by
  simp [weight, itemSize]

theorem weight_mono (hb : {k | b k ≠ none}.Finite) (hb' : {k | b' k ≠ none}.Finite)
    (h : ∀ k, itemSize (b k) ≤ itemSize (b' k)) : weight b ≤ weight b' :=
  finsum_le_finsum' (support_itemSize hb) (support_itemSize hb') fun k => Int.ofNat_le.mpr (h k)

noncomputable def Bindings.shardTotal (B : Bindings) (p : PhaseType) (s : ShardKey) : Int :=
  weight (B ⟨.vertex, p, s⟩) + weight (B ⟨.hyperedge, p, s⟩)

theorem Bindings.Finite.support (h : B.Finite) (p : PhaseType) : (support (B.shardTotal p)).Finite := by
  refine h.shards.subset fun s hs => ?_
  by_contra hno
  have hnn : ∀ m, B ⟨m, p, s⟩ = fun _ => none := fun m => by
    funext k
    by_contra hk
    exact hno ⟨m, p, k, hk⟩
  exact hs (by simp [shardTotal, hnn, weight_none])

theorem Bindings.shardTotal_update (B : Bindings) (tree : TreeId) (b' : Bytes → Option Item) (s : ShardKey) :
    shardTotal (update B tree b') tree.phaseType s = update (B.shardTotal tree.phaseType) tree.shardKey
        (B.shardTotal tree.phaseType tree.shardKey + (weight b' - weight (B tree))) s := by
  obtain ⟨m, p, s'⟩ := tree
  dsimp only
  by_cases hs : s = s'
  · subst hs
    rw [update_self]
    cases m with
    | vertex | hyperedge =>
      rw [shardTotal, update_self, update_of_ne (by simp), shardTotal]
      omega
  · rw [update_of_ne hs, shardTotal, update_of_ne (by simp [hs]), update_of_ne (by simp [hs]), shardTotal]

theorem Bindings.total_update_self (h : B.Finite) (tree : TreeId) (b' : Bytes → Option Item) :
    total (update B tree b') tree.phaseType = B.total tree.phaseType + (weight b' - weight (B tree)) := by
  have hs : ∀ (B : Bindings) p, B.total p = ∑ᶠ s, B.shardTotal p s := fun _ _ => rfl
  rw [hs, hs, finsum_congr (B.shardTotal_update tree b'), finsum_update (h.support _)]
  omega

theorem Bindings.total_update_of_ne (B : Bindings) (b' : Bytes → Option Item) (hp : p ≠ tree.phaseType) :
    total (update B tree b') p = B.total p := by
  refine finsum_congr fun s => ?_
  rw [update_of_ne fun heq => hp (by rw [← heq]), update_of_ne fun heq => hp (by rw [← heq])]

theorem Bindings.balance_update (h : B.Finite) (tree : TreeId) (b' : Bytes → Option Item) :
    balance (update B tree b') = B.balance + tree.phaseType.sign * (weight b' - weight (B tree)) := by
  have hsl := total_update_self h tree b'
  obtain ⟨m, p, s⟩ := tree
  dsimp only at hsl ⊢
  cases p with
  | adds | removes =>
    rw [balance, hsl, total_update_of_ne _ _ (by simp), balance, PhaseType.sign]
    omega

theorem Bindings.balance_bind (h : B.Finite) (tree : TreeId) (new : Item) :
    (B.bind tree new).balance = B.balance + tree.phaseType.sign * (new.size - itemSize (B tree new.key)) := by
  rw [bind, balance_update h, weight_update (h.keys tree), add_sub_cancel_left]
  rfl

theorem Bindings.balance_unbind (h : B.Finite) (tree : TreeId) (key : Bytes) :
    (B.unbind tree key).balance = B.balance - tree.phaseType.sign * itemSize (B tree key) := by
  rw [unbind, balance_update h, weight_update (h.keys tree), add_sub_cancel_left]
  simp [itemSize, sub_eq_add_neg]

theorem Bindings.Ordered.balance_nonneg (h : B.Ordered) (hfin : B.Finite) : 0 ≤ B.balance :=
  Int.sub_nonneg.mpr (finsum_le_finsum' (hfin.support _) (hfin.support _) fun s =>
    add_le_add (weight_mono (hfin.keys _) (hfin.keys _) (h .vertex s))
      (weight_mono (hfin.keys _) (hfin.keys _) (h .hyperedge s)))

end

/-! ### The sets of a hypergraph -/

def HypergraphCRDT.setSize (hg : HypergraphCRDT) (tree : TreeId) : Except Fault Nat := do
  let items ← hg.leaves tree
  .ok (items.map (·.size)).sum

def HypergraphCRDT.phaseSize (hg : HypergraphCRDT) (p : PhaseType) : Except Fault Nat :=
  hg.shards.foldlM (fun total s => do
    let vertices ← hg.setSize ⟨.vertex, p, s⟩
    let hyperedges ← hg.setSize ⟨.hyperedge, p, s⟩
    .ok (total + (vertices + hyperedges))) 0

/-- What `GetSize` returns is the size of the adds sets less that of the removes sets, and not negative. -/
def HypergraphCRDT.Accounted (hg : HypergraphCRDT) : Prop :=
  ∃ adds removes, hg.phaseSize .adds = .ok adds ∧ hg.phaseSize .removes = .ok removes ∧
    hg.getSize = adds - removes ∧ 0 ≤ hg.getSize

/-- The item that the store has for an atom id in a tree. -/
def HypergraphCRDT.bindings (hg : HypergraphCRDT) : Bindings := fun tree id =>
  match getNodeByKey hg.store tree id with
  | .ok (.leaf n) => if id.length = 64 then some n.toItem else none
  | _ => none

section
variable {c : Crypto} {hg hg' : HypergraphCRDT} {txn txn' : Txn} {B B' : Bindings} {tree : TreeId}

theorem Sets.mem_iff (h : Sets c hg txn B) (tree : TreeId) (a : Item) :
    a ∈ (hg.set tree).tree.root.leaves.map (·.toItem) ↔ B tree a.key = some a := by
  rw [← whole_leaves]
  exact (h.stores tree).mem_iff

theorem Sets.finite (h : Sets c hg txn B) : B.Finite where
  keys tree := by
    refine (((hg.set tree).tree.root.leaves.map (·.toItem)).map (·.key)).toFinset.finite_toSet.subset fun k hk => ?_
    obtain ⟨a, ha⟩ := ne_none_iff_exists'.mp hk
    have hkey := (h.stores tree).key_eq ha
    rw [Finset.mem_coe, List.mem_toFinset]
    exact mem_map.mpr ⟨a, (h.mem_iff tree a).mpr (hkey ▸ ha), hkey⟩
  shards := by
    refine hg.shards.toFinset.finite_toSet.subset fun s ⟨m, p, k, hk⟩ => ?_
    rw [Finset.mem_coe, List.mem_toFinset]
    refine h.listed m p s fun hnn => hk ?_
    by_contra hne
    obtain ⟨a, ha⟩ := ne_none_iff_exists'.mp hne
    have hm := (h.mem_iff ⟨m, p, s⟩ a).mpr ((h.stores _).key_eq ha ▸ ha)
    -- a set that has not been created has no leaves
    simp [HypergraphCRDT.set, setOr, hnn, IdSet.new] at hm

theorem Stores.weight_eq {b : Bytes → Option Item} {t : LazyVectorCommitmentTree} {db : Db}
    (h : Stores c.sha512 c.prover 64 b t db) : weight b = (((t.root.leaves.map (·.toItem)).map (·.size)).sum : Nat) := by
  have hnd : (((skel (whole t.root)).leaves).map (·.key)).Nodup := by
    refine Nodup.of_map getFullPath ?_
    rw [List.map_map]
    exact h.holds.shaped.nodup
  have hm := fun a => h.mem_iff (a := a)
  rw [whole_leaves] at hnd hm
  generalize t.root.leaves.map (·.toItem) = items at hnd hm
  have hs : support (fun k => (itemSize (b k) : Int)) ⊆ ((items.map (·.key)).toFinset : Set Bytes) := by
    intro k hk
    have hne : b k ≠ none := fun hnn => hk (by simp [itemSize, hnn])
    obtain ⟨a, ha⟩ := ne_none_iff_exists'.mp hne
    have hkey := h.key_eq ha
    rw [Finset.mem_coe, List.mem_toFinset]
    exact mem_map.mpr ⟨a, (hm a).mpr (hkey ▸ ha), hkey⟩
  rw [weight, finsum_eq_finsetSum_of_support_subset _ hs, sum_toFinset _ hnd, List.map_map, Nat.cast_list_sum,
    List.map_map]
  congr 1
  refine map_congr_left fun a ha => ?_
  simp [comp_apply, itemSize, (hm a).mp ha]

theorem Sets.setSize (h : Sets c hg none B) (tree : TreeId) : ∃ n : Nat, hg.setSize tree = .ok n ∧ weight (B tree) = n :=
  ⟨_, by simp [HypergraphCRDT.setSize, h.leaves_eq tree], (h.stores tree).weight_eq⟩

theorem Sets.phaseSize (h : Sets c hg none B) (p : PhaseType) : ∃ n : Nat, hg.phaseSize p = .ok n ∧ B.total p = n := by
  choose v hv hw using h.setSize
  refine ⟨(hg.shards.map fun s => v ⟨.vertex, p, s⟩ + v ⟨.hyperedge, p, s⟩).sum, ?_, ?_⟩
  · simp only [HypergraphCRDT.phaseSize, hv, ok_bind]
    exact foldlM_pure.trans (by rw [List.sum_eq_foldl, foldl_map]; rfl)
  have hsub : support (B.shardTotal p) ⊆ (hg.shards.toFinset : Set ShardKey) := fun s hs => by
    rw [Finset.mem_coe, List.mem_toFinset]
    by_contra hno
    have hnn : ∀ m, weight (B ⟨m, p, s⟩) = 0 := fun m => by
      have hset : hg.sets m p s = none := by
        by_contra hne
        exact hno (h.listed m p s hne)
      rw [(h.stores _).weight_eq]
      simp [HypergraphCRDT.set, setOr, hset, IdSet.new]
    exact hs (by rw [Bindings.shardTotal, hnn, hnn]; rfl)
  change ∑ᶠ s, B.shardTotal p s = _
  rw [finsum_eq_finsetSum_of_support_subset _ hsub, sum_toFinset _ h.nodup, Nat.cast_list_sum, List.map_map]
  congr 1
  exact map_congr_left fun s _ => by rw [Bindings.shardTotal, hw, hw]; rfl

/-- The counter is right, and no removes set outweighs its adds set. -/
structure Balanced (c : Crypto) (hg : HypergraphCRDT) (B : Bindings) : Prop where
  sets : Sets c hg none B
  size : hg.size = B.balance
  ordered : B.Ordered

theorem Balanced.accounted (h : Balanced c hg B) : hg.Accounted := by
  obtain ⟨adds, had, had'⟩ := h.sets.phaseSize .adds
  obtain ⟨removes, hr, hr'⟩ := h.sets.phaseSize .removes
  refine ⟨adds, removes, had, hr, ?_, ?_⟩
  · rw [getSize, h.size, Bindings.balance, had', hr']
  · rw [getSize, h.size]
    exact h.ordered.balance_nonneg h.sets.finite

theorem Sets.bindings_eq (h : Sets c hg none B) : hg.bindings = B := by
  funext tree id
  have hst := h.stores tree
  have hbc := hst.backed
  rw [h.named tree] at hbc
  rw [bindings]
  by_cases hl : id.length = 64
  · cases hb : B tree id with
    | none =>
      have hdd : getNodeByKey hg.store tree id = .error .notFound := hbc.getNodeByKey_dead hl fun a ha hak => by
        rw [← hak, hst.mem_iff.mp ha] at hb
        cases hb
      rw [hdd]
    | some a =>
      obtain rfl := hst.key_eq hb
      obtain ⟨commitment, hlv⟩ := hbc.getNodeByKey_live (hst.mem_iff.mpr hb)
      have hlv' : getNodeByKey hg.store tree a.key = .ok (.leaf ⟨a, commitment⟩) := hlv
      rw [hlv']
      exact if_pos hl
  · have hb : B tree id = none := by
      by_contra hne
      obtain ⟨a, ha⟩ := ne_none_iff_exists'.mp hne
      exact hl (hst.key_length ha)
    rw [hb]
    split
    · exact if_neg hl
    · rfl

end

/-! ### Calls -/

inductive Mutator where
  | add (a : Atom)
  | revertAdd (a : Atom)
  | remove (a : Atom)
  | revertRemove (a : Atom)
  | importTree (tree : TreeId) (root : LazyNode)
  | revertChanges (frameStart frameEnd : Nat) (shardKey : ShardKey)

/-- The size of the binding that reverting a change drops, with the sign of its tree. -/
def revertDrop (c : Crypto) (B : Bindings) (x : TreeId × ChangeRecord) : Int :=
  match x.1.phaseType, x.2.oldValue with
  | .adds, some oldValue =>
    match oldAtom c x.1.setType x.2.key oldValue with
    | .ok a => if a.skipped c B then 0 else itemSize (B (a.tree c .adds) a.id)
    | .error _ => 0
  | _, _ => x.1.phaseType.sign * itemSize (B x.1 x.2.key)

/-- The sum of these sizes over the changes, each one taken after those before it are reverted. -/
def revertDrops (c : Crypto) : Bindings → List (TreeId × ChangeRecord) → Int
  | _, [] => 0
  | B, x :: xs => revertDrop c B x + revertDrops c (revertOne c B x) xs

section
variable (c : Crypto)

namespace Mutator

def apply : Mutator → HypergraphCRDT.Step
  | .add a => a.add c
  | .revertAdd a => a.revertAdd c
  | .remove a => a.remove c
  | .revertRemove a => a.revertRemove c
  | .importTree tree root => fun hg txn => do
    let hg ← hg.importTree tree.setType tree.phaseType tree.shardKey root
    .ok (hg, txn, none)
  | .revertChanges frameStart frameEnd shardKey => HypergraphCRDT.revertChanges c frameStart frameEnd shardKey

/-- A call without a transaction, or in one of its own that is committed if there is no error. -/
def perform (m : Mutator) (inTxn : Bool) (hg : HypergraphCRDT) : Except Fault HypergraphCRDT := do
  let (hg, txn, err) ← m.apply c hg (if inTxn then some [] else none)
  .ok (if err.isNone then hg.commitTxn txn else hg)

def run : List (Mutator × Bool) → HypergraphCRDT → Except Fault HypergraphCRDT
  | [], hg => .ok hg
  | m :: ms, hg => do
    let hg ← m.1.perform c m.2 hg
    run ms hg

end Mutator

/-- Changes whose reversal keeps the size right. A transaction takes one change, as the next would not read what it
    wrote. What is deleted or overwritten, which the counter misses, adds up to nothing. -/
structure RevertFits (hg : HypergraphCRDT) (inTxn : Bool) (changes : List (TreeId × ChangeRecord)) : Prop where
  alone : inTxn = true → changes.length ≤ 1
  keys : ∀ x ∈ changes, x.2.key.length = 64 ∧ hg.covers x.2.key = true
  sizes : ∀ x ∈ changes, ∀ oldValue a, x.2.oldValue = some oldValue → oldAtom c x.1.setType x.2.key oldValue = .ok a →
    0 ≤ a.size
  drops : revertDrops c hg.bindings changes = 0
  ordered : (changes.foldl (revertOne c) hg.bindings).Ordered

def Mutator.Fits (hg : HypergraphCRDT) (inTxn : Bool) : Mutator → Prop
  | .add a => a.skipped c hg.bindings ∨ 0 ≤ a.size ∧ itemSize (hg.bindings (a.tree c .adds) a.id) = 0
  | .revertAdd a => a.skipped c hg.bindings ∨ hg.bindings (a.tree c .adds) a.id = none ∨
    a.size = itemSize (hg.bindings (a.tree c .adds) a.id) ∧ itemSize (hg.bindings (a.tree c .removes) a.id) = 0
  | .remove a => 0 ≤ a.size ∧
    if (hg.bindings (a.tree c .adds) a.id).isSome && !(hg.bindings (a.tree c .removes) a.id).isSome then
      a.size ≤ itemSize (hg.bindings (a.tree c .adds) a.id)
    else itemSize (hg.bindings (a.tree c .adds) a.id) = itemSize (hg.bindings (a.tree c .removes) a.id)
  | .revertRemove a => a.size = itemSize (hg.bindings (a.tree c .removes) a.id)
  | .importTree tree root => ∃ b, Stores c.sha512 c.prover 64 b ⟨root, tree, hg.coveredPrefix⟩ hg.store ∧
    (IdSet.new tree.setType tree.phaseType tree.shardKey root []).getSize =
      .ok (((root.leaves.map (·.toItem)).map (·.size)).sum : Nat) ∧
    hg.setSize tree = .ok 0 ∧ Bindings.Ordered (Function.update hg.bindings tree b)
  | .revertChanges frameStart frameEnd shardKey => ∀ changes,
    HypergraphCRDT.shardChanges hg.store shardKey (if frameStart = 0 then 1 else frameStart) frameEnd = .ok (.ok changes) →
    RevertFits c hg inTxn ((HypergraphCRDT.framesDown (if frameStart = 0 then 1 else frameStart) frameEnd).flatMap
      (HypergraphCRDT.changesOf shardKey changes))

def Fitting : HypergraphCRDT → List (Mutator × Bool) → Prop
  | _, [] => True
  | hg, m :: ms => m.1.Fits c hg m.2 ∧ ∀ hg', m.1.perform c m.2 hg = .ok hg' → Fitting hg' ms

end

section
variable {c : Crypto} {hg hg' : HypergraphCRDT} {txn txn' : Txn} {B B' : Bindings}

theorem Bindings.bind_apply (B : Bindings) (tree tree' : TreeId) (new : Item) (k : Bytes) :
    B.bind tree new tree' k = if tree' = tree ∧ k = new.key then some new else B tree' k := by
  by_cases ht : tree' = tree
  · subst ht
    rw [bind_self]
    simp
  · rw [bind_of_ne _ _ ht, if_neg fun h => ht h.1]

theorem Bindings.unbind_apply (B : Bindings) (tree tree' : TreeId) (key k : Bytes) :
    B.unbind tree key tree' k = if tree' = tree ∧ k = key then none else B tree' k := by
  by_cases ht : tree' = tree
  · subst ht
    rw [unbind_self]
    simp
  · rw [unbind_of_ne _ _ ht, if_neg fun h => ht h.1]

theorem Bindings.bind_elsewhere {m m' : AtomType} {p p' : PhaseType} {s s' : ShardKey} {key k : Bytes} {new : Item}
    (hkey : new.key = key) (hne : ¬(m' = m ∧ s' = s ∧ k = key)) :
    B.bind ⟨m, p, s⟩ new ⟨m', p', s'⟩ k = B ⟨m', p', s'⟩ k := by
  rw [bind_apply, hkey, if_neg]
  rintro ⟨heq, rfl⟩
  cases heq
  exact hne ⟨rfl, rfl, rfl⟩

theorem Bindings.unbind_elsewhere {m m' : AtomType} {p p' : PhaseType} {s s' : ShardKey} {key k : Bytes}
    (hne : ¬(m' = m ∧ s' = s ∧ k = key)) : B.unbind ⟨m, p, s⟩ key ⟨m', p', s'⟩ k = B ⟨m', p', s'⟩ k := by
  rw [unbind_apply, if_neg]
  rintro ⟨heq, rfl⟩
  cases heq
  exact hne ⟨rfl, rfl, rfl⟩

theorem Bindings.Finite.bind (h : B.Finite) (tree : TreeId) (new : Item) : (B.bind tree new).Finite where
  keys tree' := by
    refine ((h.keys tree').insert new.key).subset fun k hk => ?_
    rw [Set.mem_ofPred_eq, bind_apply] at hk
    split_ifs at hk with hhr
    · exact .inl hhr.2
    · exact .inr hk
  shards := by
    refine (h.shards.insert tree.shardKey).subset fun s ⟨m, p, k, hk⟩ => ?_
    rw [bind_apply] at hk
    split_ifs at hk with hhr
    · exact .inl (by rw [← hhr.1])
    · exact .inr ⟨m, p, k, hk⟩

theorem Atom.tree_eq (c : Crypto) (a : Atom) : ∃ m s, ∀ p, a.tree c p = ⟨m, p, s⟩ := by
  cases a with
  | vertex v | hyperedge h => exact ⟨_, _, fun _ => rfl⟩

theorem Bindings.Ordered.change (h : B.Ordered) (m : AtomType) (s : ShardKey) (key : Bytes)
    (hkey : itemSize (B' ⟨m, .removes, s⟩ key) ≤ itemSize (B' ⟨m, .adds, s⟩ key))
    (hot : ∀ m' p s' k, ¬(m' = m ∧ s' = s ∧ k = key) → B' ⟨m', p, s'⟩ k = B ⟨m', p, s'⟩ k) : B'.Ordered := by
  intro m' s' k
  by_cases hhr : m' = m ∧ s' = s ∧ k = key
  · obtain ⟨rfl, rfl, rfl⟩ := hhr
    exact hkey
  · rw [hot m' _ s' k hhr, hot m' _ s' k hhr]
    exact h m' s' k

theorem itemSize_some (a : Item) : itemSize (some a) = a.size := rfl

theorem itemSize_none : itemSize none = 0 := rfl

section
variable (h : Balanced c hg B)
include h

theorem Balanced.add {a : Atom} (hs : Sets c hg' none (B.bind (a.tree c .adds) (a.item c)))
    (hsz : hg'.size = hg.size + a.size) (hpos : 0 ≤ a.size) (hfree : itemSize (B (a.tree c .adds) a.id) = 0) :
    Balanced c hg' (B.bind (a.tree c .adds) (a.item c)) := by
  have hb := Bindings.balance_bind h.sets.finite (a.tree c .adds) (a.item c)
  obtain ⟨m, s, htr⟩ := a.tree_eq c
  have ho := h.ordered m s a.id
  rw [htr] at hfree hs hb ⊢
  rw [a.item_key, a.item_size, hfree] at hb
  refine ⟨hs, ?_, h.ordered.change m s a.id ?_ fun m' p s' k hne => Bindings.bind_elsewhere (a.item_key c) hne⟩
  · rw [hsz, h.size, hb]
    simp only [PhaseType.sign]
    omega
  · rw [Bindings.bind_apply, Bindings.bind_apply, if_neg (by simp), if_pos ⟨rfl, (a.item_key c).symm⟩]
    omega

theorem Balanced.revertAdd {a : Atom} (hs : Sets c hg' none (B.unbind (a.tree c .adds) a.id))
    (hsz : hg'.size = hg.size - a.size) (hcn : a.size = itemSize (B (a.tree c .adds) a.id))
    (hfree : itemSize (B (a.tree c .removes) a.id) = 0) : Balanced c hg' (B.unbind (a.tree c .adds) a.id) := by
  have hb := Bindings.balance_unbind h.sets.finite (a.tree c .adds) a.id
  obtain ⟨m, s, htr⟩ := a.tree_eq c
  rw [htr] at hfree hs hb hcn ⊢
  refine ⟨hs, ?_, h.ordered.change m s a.id ?_ fun m' p s' k hne => Bindings.unbind_elsewhere hne⟩
  · rw [hsz, h.size, hb]
    simp only [PhaseType.sign]
    omega
  · rw [Bindings.unbind_apply, if_neg (by simp), hfree]
    exact Nat.zero_le _

theorem Balanced.revertRemove {a : Atom} (hs : Sets c hg' none (B.unbind (a.tree c .removes) a.id))
    (hsz : hg'.size = hg.size + a.size) (hcn : a.size = itemSize (B (a.tree c .removes) a.id)) :
    Balanced c hg' (B.unbind (a.tree c .removes) a.id) := by
  have hb := Bindings.balance_unbind h.sets.finite (a.tree c .removes) a.id
  obtain ⟨m, s, htr⟩ := a.tree_eq c
  rw [htr] at hs hb hcn ⊢
  refine ⟨hs, ?_, h.ordered.change m s a.id ?_ fun m' p s' k hne => Bindings.unbind_elsewhere hne⟩
  · rw [hsz, h.size, hb]
    simp only [PhaseType.sign]
    omega
  · rw [Bindings.unbind_apply, if_pos ⟨rfl, rfl⟩]
    exact Nat.zero_le _

theorem Balanced.remove {a : Atom} (hs : Sets c hg' none (B.bind (a.tree c .removes) (a.item c)))
    (hsz : hg'.size = hg.size - a.size) (hpos : 0 ≤ a.size) (hnew : B (a.tree c .removes) a.id = none)
    (hle : a.size ≤ itemSize (B (a.tree c .adds) a.id)) : Balanced c hg' (B.bind (a.tree c .removes) (a.item c)) := by
  have hb := Bindings.balance_bind h.sets.finite (a.tree c .removes) (a.item c)
  obtain ⟨m, s, htr⟩ := a.tree_eq c
  rw [htr] at hle hs hb hnew ⊢
  rw [a.item_key, a.item_size, hnew, itemSize_none] at hb
  refine ⟨hs, ?_, h.ordered.change m s a.id ?_ fun m' p s' k hne => Bindings.bind_elsewhere (a.item_key c) hne⟩
  · rw [hsz, h.size, hb]
    simp only [PhaseType.sign]
    omega
  · rw [Bindings.bind_apply, Bindings.bind_apply, if_pos ⟨rfl, (a.item_key c).symm⟩, if_neg (by simp), itemSize_some,
      a.item_size]
    omega

theorem Balanced.removeAbsent {a : Atom}
    (hs : Sets c hg' none ((B.bind (a.tree c .adds) (a.item c)).bind (a.tree c .removes) (a.again c)))
    (hsz : hg'.size = hg.size) (hev : itemSize (B (a.tree c .adds) a.id) = itemSize (B (a.tree c .removes) a.id)) :
    Balanced c hg' ((B.bind (a.tree c .adds) (a.item c)).bind (a.tree c .removes) (a.again c)) := by
  have hb := Bindings.balance_bind (h.sets.finite.bind (a.tree c .adds) (a.item c)) (a.tree c .removes) (a.again c)
  rw [Bindings.balance_bind h.sets.finite] at hb
  obtain ⟨m, s, htr⟩ := a.tree_eq c
  rw [htr, htr] at hev hs hb ⊢
  rw [a.again_key, a.again_size, a.item_key, Bindings.bind_apply, if_neg (by simp), hev] at hb
  refine ⟨hs, ?_, h.ordered.change m s a.id ?_ fun m' p s' k hne => (Bindings.bind_elsewhere (a.again_key c) hne).trans
    (Bindings.bind_elsewhere (a.item_key c) hne)⟩
  · rw [hsz, h.size, hb]
    simp only [PhaseType.sign]
    omega
  · rw [Bindings.bind_apply, if_pos ⟨rfl, (a.again_key c).symm⟩, Bindings.bind_apply, if_neg (by simp), Bindings.bind_apply,
      if_pos ⟨rfl, (a.item_key c).symm⟩, itemSize_some, itemSize_some, a.again_size]

end

/-! ### Whole trees and old values -/

theorem Sets.importTree (h : Sets c hg txn B) {root : LazyNode} {b : Bytes → Option Item} (tree : TreeId)
    (hst : Stores c.sha512 c.prover 64 b ⟨root, tree, hg.coveredPrefix⟩ (pending hg.store txn))
    (hr : hg.importTree tree.setType tree.phaseType tree.shardKey root = .ok hg') {size : Int}
    (hsz : (IdSet.new tree.setType tree.phaseType tree.shardKey root []).getSize = .ok size) :
    Sets c hg' txn (update B tree b) ∧ hg'.size = hg.size + tree.phaseType.sign * size := by
  have hsz' : (IdSet.new tree.setType tree.phaseType tree.shardKey root hg.coveredPrefix).getSize = .ok size := hsz
  have hs : ∀ size, Sets c { hg.putSet tree.setType tree.phaseType tree.shardKey
      (IdSet.new tree.setType tree.phaseType tree.shardKey root hg.coveredPrefix) with size } txn
      (update B tree b) := fun size => by
    have hput : Sets c (hg.putSet tree.setType tree.phaseType tree.shardKey
        (IdSet.new tree.setType tree.phaseType tree.shardKey root hg.coveredPrefix)) txn (update B tree b) := by
      refine h.putSet hg.store (fun tree' hne => ?_) ?_ rfl rfl rfl
      · rw [update_of_ne hne]
        exact h.stores tree'
      · rw [update_self]
        exact hst
    exact ⟨hput.stores, hput.named, hput.typed, hput.covered, hput.listed, hput.nodup⟩
  rw [HypergraphCRDT.importTree, hsz', ok_bind] at hr
  obtain ⟨m, p, s⟩ := tree
  cases p with
  | adds =>
    cases hr
    exact ⟨hs _, by simp [PhaseType.sign]⟩
  | removes =>
    cases hr
    exact ⟨hs _, by simp [PhaseType.sign, sub_eq_add_neg]⟩

theorem Bindings.balance_revertOne (hfin : B.Finite) (x : TreeId × ChangeRecord)
    (hpos : ∀ oldValue a, x.2.oldValue = some oldValue → oldAtom c x.1.setType x.2.key oldValue = .ok a → 0 ≤ a.size) :
    (revertOne c B x).balance = B.balance + revertGain c B x - revertDrop c B x := by
  have hd : (B.unbind x.1 x.2.key).balance = B.balance + 0 - x.1.phaseType.sign * itemSize (B x.1 x.2.key) := by
    rw [balance_unbind hfin, Int.add_zero]
  obtain ⟨⟨m, _ | _, s⟩, key, oldValue, frame⟩ := x
  · cases oldValue with
    | none => exact hd
    | some old =>
      simp only [revertOne, revertGain, revertDrop]
      cases ha : oldAtom c m key old with
      | error e => simp
      | ok a =>
        dsimp only
        split_ifs with hsk
        · simp
        · have hsz := hpos old a rfl ha
          have hsg : (a.tree c .adds).phaseType = .adds := by cases a <;> rfl
          rw [balance_bind hfin, hsg, a.item_key, a.item_size, PhaseType.sign]
          omega
  · cases oldValue with
    | none => exact hd
    | some old => exact hd

theorem Sets.revertAll (changes : List (TreeId × ChangeRecord)) (h : Sets c hg txn B)
    (ht : txn = none ∨ changes = [] ∨ txn.getD [] = [] ∧ changes.length ≤ 1)
    (hky : ∀ x ∈ changes, x.2.key.length = 64 ∧ hg.covers x.2.key = true)
    (hpos : ∀ x ∈ changes, ∀ oldValue a, x.2.oldValue = some oldValue →
      oldAtom c x.1.setType x.2.key oldValue = .ok a → 0 ≤ a.size) {result : HypergraphCRDT × Txn × Option String}
    (hr : Step.forEach (fun x : TreeId × ChangeRecord => HypergraphCRDT.revertChange c x.1 x.2) changes hg
      txn = .ok result) : result.2.2 = none ∧ Sets c result.1 result.2.1 (changes.foldl (revertOne c) B) ∧
      result.1.size = hg.size + ((changes.foldl (revertOne c) B).balance - B.balance) + revertDrops c B changes := by
  induction changes generalizing hg txn B with
  | nil =>
    cases hr
    exact ⟨rfl, h, by simp [revertDrops]⟩
  | cons x changes ih =>
    have hem : txn.getD [] = [] := by
      rcases ht with rfl | hnil | ⟨hem, -⟩
      · rfl
      · cases hnil
      · exact hem
    obtain ⟨⟨hg₁, txn₁, err⟩, hfr, hrs⟩ := bind_eq_ok.mp hr
    obtain ⟨hk, hcov⟩ := hky x mem_cons_self
    obtain ⟨herr, hs, hc, hsm, hsz⟩ := h.revertChange hem x hk hcov hfr
    subst herr
    have ht₁ : txn₁ = none ∨ changes = [] ∨ txn₁.getD [] = [] ∧ changes.length ≤ 1 := by
      rcases ht with rfl | hnil | ⟨-, hl⟩
      · exact .inl (by simpa using hsm)
      · cases hnil
      · exact .inr (.inl (length_eq_zero_iff.mp (Nat.le_zero.mp (Nat.le_of_succ_le_succ hl))))
    have hky₁ : ∀ y ∈ changes, y.2.key.length = 64 ∧ hg₁.covers y.2.key = true := fun y hy => by
      rw [covers, hc]
      exact hky y (mem_cons_of_mem x hy)
    obtain ⟨hnn, hs', hsz'⟩ := ih hs ht₁ hky₁ (fun y hy => hpos y (mem_cons_of_mem x hy)) hrs
    refine ⟨hnn, hs', ?_⟩
    have hb := Bindings.balance_revertOne h.finite x (hpos x mem_cons_self)
    rw [hsz', hsz, foldl_cons, revertDrops]
    omega

/-! ### Runs -/

theorem Sets.performed (h : Sets c hg txn B) (err : Option String) (herr : err ≠ none → txn.getD [] = []) :
    Sets c (if err.isNone then hg.commitTxn txn else hg) none B := by
  cases err with
  | none => exact h.commitTxn
  | some e =>
    have hem := herr (by rintro ⟨⟩)
    have hst := h.stores
    simp only [pending, hem] at hst
    exact ⟨hst, h.named, h.typed, h.covered, h.listed, h.nodup⟩

theorem Balanced.step {m : Mutator} {inTxn : Bool} (h : Balanced c hg B) (hfit : m.Fits c hg inTxn)
    (hr : m.perform c inTxn hg = .ok hg') : ∃ B', Balanced c hg' B' := by
  have hbn := h.sets.bindings_eq
  obtain ⟨txn, htxn, hmd, hse⟩ : ∃ txn : Txn, (if inTxn then some [] else none) = txn ∧
      (txn = none ∨ inTxn = true ∧ txn = some []) ∧ Sets c hg txn B := by
    cases inTxn with
    | true =>
      obtain ⟨hst, hn, ht, hc, hl, hd⟩ := h.sets
      exact ⟨some [], rfl, .inr ⟨rfl, rfl⟩, ⟨hst, hn, ht, hc, hl, hd⟩⟩
    | false => exact ⟨none, rfl, .inl rfl, h.sets⟩
  have hem : txn.getD [] = [] := by
    rcases hmd with rfl | ⟨-, rfl⟩
    · rfl
    · rfl
  simp only [Mutator.perform, htxn] at hr
  obtain ⟨⟨hg₁, txn₁, err⟩, hay, hdn⟩ := bind_eq_ok.mp hr
  cases hdn
  have hsz₁ : (if err.isNone then hg₁.commitTxn txn₁ else hg₁).size = hg₁.size := by split <;> rfl
  cases m with
  | add a =>
    obtain ⟨hg₂, txn₂, err₂, B', hadd, hL, herr, hB⟩ := hse.add hem a
    cases hay.symm.trans hadd
    have hs := hL.sets.performed err fun hne => by rw [(herr hne).1, hem]
    simp only [Mutator.Fits, hbn] at hfit
    rcases hB with ⟨rfl, hsz, -⟩ | ⟨-, rfl, hsz, hsk⟩
    · exact ⟨_, hs, hsz₁.trans (hsz.trans h.size), h.ordered⟩
    · rcases hfit with hsk' | ⟨hpos, hfree⟩
      · exact absurd (hsk.symm.trans hsk') Bool.false_ne_true
      · exact ⟨_, h.add hs (hsz₁.trans hsz) hpos hfree⟩
  | revertAdd a =>
    obtain ⟨hg₂, txn₂, B', hdel, hL, hB⟩ := hse.revertAdd hem a
    cases hay.symm.trans hdel
    have hs := hL.sets.performed none fun hne => absurd rfl hne
    simp only [Mutator.Fits, hbn] at hfit
    split_ifs at hB with hfn
    · obtain ⟨rfl, hsz⟩ := hB
      rw [Bool.and_eq_true, isSome_iff_ne_none, Bool.not_eq_true'] at hfn
      rcases hfit with hsk | hnn | ⟨hcn, hfree⟩
      · exact absurd (hfn.2.symm.trans hsk) Bool.false_ne_true
      · exact absurd hnn hfn.1
      · exact ⟨_, h.revertAdd hs (hsz₁.trans hsz) hcn hfree⟩
    · obtain ⟨rfl, hsz⟩ := hB
      exact ⟨_, hs, hsz₁.trans (hsz.trans h.size), h.ordered⟩
  | remove a =>
    obtain ⟨hg₂, txn₂, err₂, B', hrem, hL, herr, hB⟩ := hse.remove hem a
    cases hay.symm.trans hrem
    have hs := hL.sets.performed err fun hne => by rw [(herr hne).1, hem]
    simp only [Mutator.Fits, hbn] at hfit
    cases err with
    | some e =>
      obtain ⟨-, rfl, hsz⟩ := herr (by rintro ⟨⟩)
      exact ⟨_, hs, hsz₁.trans (hsz.trans h.size), h.ordered⟩
    | none =>
      have hB := hB rfl
      obtain ⟨hpos, hfit⟩ := hfit
      split_ifs at hB hfit with hfn
      · obtain ⟨rfl, hsz⟩ := hB
        rw [Bool.and_eq_true, Bool.not_eq_true', isSome_eq_false_iff, isNone_iff_eq_none] at hfn
        exact ⟨_, h.remove hs (hsz₁.trans hsz) hpos hfn.2 hfit⟩
      · obtain ⟨rfl, hsz⟩ := hB
        exact ⟨_, h.removeAbsent hs (hsz₁.trans hsz) hfit⟩
  | revertRemove a =>
    obtain ⟨hg₂, txn₂, hdel, hL, hsz⟩ := hse.revertRemove hem a
    cases hay.symm.trans hdel
    have hs := hL.sets.performed none fun hne => absurd rfl hne
    simp only [Mutator.Fits, hbn] at hfit
    exact ⟨_, h.revertRemove hs (hsz₁.trans hsz) hfit⟩
  | importTree tree root =>
    obtain ⟨hg₂, himp, heq⟩ := bind_eq_ok.mp hay
    cases heq
    obtain ⟨b, hst, hrt, hold, ho⟩ := hfit
    have hst' : Stores c.sha512 c.prover 64 b ⟨root, tree, hg.coveredPrefix⟩ (pending hg.store txn) := by
      rw [pending, hem]
      exact hst
    obtain ⟨hs, hsz⟩ := hse.importTree tree hst' himp hrt
    refine ⟨_, hs.performed none fun hne => absurd rfl hne, ?_, hbn ▸ ho⟩
    obtain ⟨n, hn, hw⟩ := h.sets.setSize tree
    cases hold.symm.trans hn
    rw [hsz₁, hsz, h.size, Bindings.balance_update h.sets.finite, hst.weight_eq, hw]
    simp
  | revertChanges frameStart frameEnd shardKey =>
    obtain ⟨changes, hchs, hlp⟩ := bind_eq_ok.mp hay
    cases changes with
    | error e =>
      cases hlp
      exact ⟨B, hse.performed _ fun _ => hem, hsz₁.trans h.size, h.ordered⟩
    | ok changes =>
      obtain ⟨⟨hg₂, txn₂, err₂⟩, hall, heq⟩ := bind_eq_ok.mp hlp
      cases heq
      obtain ⟨hal, hky, hpos, hdp, ho⟩ := hfit changes hchs
      rw [hbn] at hdp ho
      obtain ⟨herr, hs, hsz⟩ := hse.revertAll _ (hmd.imp_right fun hin => .inr ⟨hem, hal hin.1⟩) hky hpos hall
      subst herr
      refine ⟨_, hs.performed none fun hne => absurd rfl hne, ?_, ho⟩
      rw [hsz₁, hsz, h.size, hdp]
      omega

theorem Balanced.run {calls : List (Mutator × Bool)} (h : Balanced c hg B) (hfit : Fitting c hg calls)
    (hr : Mutator.run c calls hg = .ok hg') : ∃ B', Balanced c hg' B' := by
  induction calls generalizing hg B with
  | nil =>
    cases hr
    exact ⟨B, h⟩
  | cons m calls ih =>
    obtain ⟨hg₁, hfr, hrs⟩ := bind_eq_ok.mp hr
    obtain ⟨B₁, h₁⟩ := h.step hfit.1 hfr
    exact ih h₁ (hfit.2 hg₁ hfr) hrs

theorem balanced_new (c : Crypto) (cov : List Nibble) :
    Balanced c (.new OrdMap.empty cov) fun _ _ => none where
  sets := sets_new c cov
  size := by simp [new, Bindings.balance, Bindings.total, weight_none]
  ordered _ _ _ := Nat.le_refl 0

/-- In a run whose calls all fit, the size is right in every state: a part of such a run is one too. -/
theorem accounted_of_fitting (c : Crypto) (coveredPrefix : List Nibble) (calls : List (Mutator × Bool))
    (hfit : Fitting c (.new OrdMap.empty coveredPrefix) calls) (hg : HypergraphCRDT)
    (hrun : Mutator.run c calls (.new OrdMap.empty coveredPrefix) = .ok hg) : hg.Accounted := by
  obtain ⟨B, h⟩ := (balanced_new c coveredPrefix).run hfit hrun
  exact h.accounted

theorem Sets.size_of_accounted (h : Sets c hg none B) (hacc : hg.Accounted) : hg.size = B.balance := by
  obtain ⟨adds, removes, had, hr, hsz, -⟩ := hacc
  obtain ⟨n, hn, had'⟩ := h.phaseSize .adds
  obtain ⟨n', hn', hr'⟩ := h.phaseSize .removes
  cases had.symm.trans hn
  cases hr.symm.trans hn'
  rw [Bindings.balance, had', hr']
  exact hsz

theorem Sets.perform_add (h : Sets c hg none B) (hc : hg.coveredPrefix = []) (v : Vertex) :
    ∃ hg', (Mutator.add (.vertex v)).perform c false hg = .ok hg' ∧ Sets c hg' none (B.bind (v.tree c .adds) v.item) ∧
      hg'.coveredPrefix = [] ∧ hg'.size = hg.size + v.size := by
  obtain ⟨hg', txn', hadd, hL, -, hsz⟩ := h.addVertex v (h.read rfl) (by rw [covers, hc]; rfl)
  have hadd' : (Mutator.add (.vertex v)).apply c hg (if false = true then some [] else none) = .ok (hg', txn', none) := hadd
  refine ⟨hg'.commitTxn txn', ?_, hL.sets.commitTxn, hL.coveredPrefix.trans hc, hsz⟩
  simp only [Mutator.perform, hadd', ok_bind, isNone_none, if_true]

end

def unitVertex : Vertex where
  appAddress := .zero
  dataAddress := .zero
  commitment := []
  size := 1
  size_lt := by decide

/-- A vertex that is added twice is counted twice. -/
theorem add_twice_miscounts : ∃ hg, Mutator.run Crypto.plain [(.add (.vertex unitVertex), false),
    (.add (.vertex unitVertex), false)] (.new OrdMap.empty []) = .ok hg ∧ ¬hg.Accounted := by
  have h₀ := sets_new Crypto.plain []
  obtain ⟨hg₁, hr₁, h₁, hc₁, hsz₁⟩ := h₀.perform_add rfl unitVertex
  obtain ⟨hg₂, hr₂, h₂, -, hsz₂⟩ := h₁.perform_add hc₁ unitVertex
  refine ⟨hg₂, ?_, fun hacc => ?_⟩
  · simp [Mutator.run, hr₁, hr₂]
  · have hb := h₂.size_of_accounted hacc
    rw [hsz₂, hsz₁, Bindings.balance_bind h₁.finite, Bindings.balance_bind h₀.finite, Bindings.bind_self,
      if_pos rfl, (balanced_new Crypto.plain []).size.symm] at hb
    simp [new, itemSize, unitVertex, Vertex.item, Vertex.tree, PhaseType.sign] at hb

theorem accounted_of_fitting_add_remove : ∃ hg, Mutator.run Crypto.plain [(.add (.vertex unitVertex), false),
    (.remove (.vertex unitVertex), true)] (.new OrdMap.empty []) = .ok hg ∧ hg.Accounted := by
  have h₀ := sets_new Crypto.plain []
  obtain ⟨hg₁, hr₁, h₁, hc₁, -⟩ := h₀.perform_add rfl unitVertex
  have h₁' : Sets Crypto.plain hg₁ (some []) _ := ⟨h₁.stores, h₁.named, h₁.typed, h₁.covered, h₁.listed, h₁.nodup⟩
  obtain ⟨hg₂, txn₂, B₂, hrem, -⟩ := h₁'.removeVertex unitVertex (h₁'.read rfl)
    (by rw [covers, hc₁]; rfl)
  have hr₂ : (Mutator.remove (.vertex unitVertex)).perform Crypto.plain true hg₁ = .ok (hg₂.commitTxn txn₂) := by
    have hr' : (Mutator.remove (.vertex unitVertex)).apply Crypto.plain hg₁ (some []) = .ok (hg₂, txn₂, none) := hrem
    simp [Mutator.perform, hr']
  have hr : Mutator.run Crypto.plain [(.add (.vertex unitVertex), false), (.remove (.vertex unitVertex), true)]
      (.new OrdMap.empty []) = .ok (hg₂.commitTxn txn₂) := by
    simp [Mutator.run, hr₁, hr₂]
  have hfit : Fitting Crypto.plain (.new OrdMap.empty []) [(.add (.vertex unitVertex), false),
      (.remove (.vertex unitVertex), true)] := by
    refine ⟨?_, fun hg' hrun' => ?_⟩
    · simp only [Mutator.Fits, h₀.bindings_eq]
      exact .inr ⟨by decide, rfl⟩
    · cases hr₁.symm.trans hrun'
      refine ⟨?_, fun _ _ => trivial⟩
      simp only [Mutator.Fits, h₁.bindings_eq, Atom.tree, Atom.id, Bindings.bind_apply]
      simp [Vertex.tree, Vertex.item, Atom.size, itemSize, unitVertex]
  exact ⟨_, hr, accounted_of_fitting Crypto.plain [] _ hfit _ hr⟩

end Quilibrium
