import Quilibrium.Theorems.Revert

/-! The sizes of shards. A query creates the sets of its shard, those of hyperedges with the wrong type. -/

namespace Quilibrium
open Except

namespace HypergraphCRDT

/-- The sets of the shard are there, and the adds sets have roots if the whole shard is asked for. -/
def Sized (hg : HypergraphCRDT) (s : ShardKey) (path : List Nibble) : Prop :=
  ∀ m, hg.Created m s ∧ (path = [] → (hg.set ⟨m, .adds, s⟩).tree.root.isNil = false)

section
variable {c : Crypto} {hg hg' : HypergraphCRDT} {m : AtomType} {s : ShardKey} {path : List Nibble}

/-- What calls make of a new hypergraph if size queries find the sets of their shards. -/
inductive Reached (c : Crypto) : HypergraphCRDT → Prop
  | new (store : Db) (coveredPrefix : List Nibble) : Reached c (.new store coveredPrefix)
  | lookupVertex {hg : HypergraphCRDT} (v : Vertex) : Reached c hg → Reached c (hg.lookupVertex c v).1
  | lookupHyperedge {hg : HypergraphCRDT} (e : Hyperedge) : Reached c hg → Reached c (hg.lookupHyperedge c e).1
  | add {hg hg' : HypergraphCRDT} (a : Atom) (txn : Txn) {r : Txn × Option String} :
    Reached c hg → a.add c hg txn = .ok (hg', r) → Reached c hg'
  | remove {hg hg' : HypergraphCRDT} (a : Atom) (txn : Txn) {r : Txn × Option String} :
    Reached c hg → a.remove c hg txn = .ok (hg', r) → Reached c hg'
  | commitTxn {hg : HypergraphCRDT} (txn : Txn) : Reached c hg → Reached c (hg.commitTxn txn)
  | getSize {hg hg' : HypergraphCRDT} {s : ShardKey} {path : List Nibble} {n : Int} :
    Reached c hg → hg.Sized s path → hg.getShardSize s path = .ok (hg', n) → Reached c hg'

/-! ### Types of sets -/

def Typed (hg : HypergraphCRDT) : Prop := ∀ tree, (hg.set tree).atomType = tree.setType

def Keeps {α : Type} (x : Except Fault (HypergraphCRDT × α)) : Prop := ∀ hg r, x = .ok (hg, r) → hg.Typed

section
variable {α β : Type} {x y : Except Fault (HypergraphCRDT × α)}

theorem Typed.ok {r : α} (h : hg.Typed) : Keeps (.ok (hg, r)) := by
  rintro _ _ ⟨⟩
  exact h

theorem Keeps.bind {f : HypergraphCRDT × α → Except Fault (HypergraphCRDT × β)} (hx : Keeps x)
    (hf : ∀ hg r, hg.Typed → Keeps (f (hg, r))) : Keeps (x >>= f) := by
  intro hg r h
  obtain ⟨⟨hg₁, r₁⟩, h₁, h⟩ := bind_eq_ok.mp h
  exact hf hg₁ r₁ (hx hg₁ r₁ h₁) hg r h

theorem Keeps.ite {p : Prop} [Decidable p] (hx : Keeps x) (hy : Keeps y) : Keeps (if p then x else y) := by
  split
  · exact hx
  · exact hy

end

theorem Typed.create (h : hg.Typed) : (hg.create m s).Typed := fun tree => set_create hg m s ▸ h tree

theorem Typed.addTo {set : IdSet} (h : hg.Typed) (hset : set.atomType = m) (sha3 : Digest 32) (txn : Txn) (p : PhaseType)
    (new : Item) : Keeps (hg.addTo sha3 txn m p s set new) := by
  intro hg' r hr
  obtain ⟨⟨set', store, r'⟩, hadd, heq⟩ := bind_eq_ok.mp hr
  cases heq
  have ht : set'.atomType = m := by
    rw [IdSet.add, if_neg (not_not.mpr hset.symm)] at hadd
    obtain ⟨⟨tree, r''⟩, -, heq⟩ := bind_eq_ok.mp hadd
    cases heq
    exact hset
  intro tree
  change ((hg.putSet m p s set').set tree).atomType = _
  rw [hg.set_putSet ⟨m, p, s⟩]
  split_ifs with heq
  · exact ht.trans (heq ▸ rfl)
  · exact h tree

theorem Typed.addVertex (h : hg.Typed) (txn : Txn) (v : Vertex) : Keeps (hg.addVertex c txn v) := by
  refine (h.create.addTo (h ⟨.vertex, .adds, _⟩) c.sha3 txn .adds v.item).bind fun hg ⟨txn, err⟩ h => ?_
  cases err <;> exact Typed.ok h

theorem Typed.removeVertex (h : hg.Typed) (txn : Txn) (v : Vertex) : Keeps (hg.removeVertex c txn v) := by
  refine Keeps.ite ?_ ?_
  · refine (h.create.create.addTo (h.create ⟨.vertex, .adds, _⟩) c.sha3 txn .adds v.item).bind fun hg ⟨txn, err⟩ h' => ?_
    cases err with
    | some err => exact h'.ok
    | none => exact (h'.addTo (h.create ⟨.vertex, .removes, _⟩) c.sha3 txn .removes v.item).bind fun hg r h => h.ok
  · refine (h.create.create.addTo (h.create ⟨.vertex, .removes, _⟩) c.sha3 txn .removes v.item).bind fun hg ⟨txn, err⟩ h => ?_
    cases err <;> exact Typed.ok h

theorem Typed.addHyperedgeTo {set : IdSet} (h : hg.Typed) (hset : set.atomType = .hyperedge) (txn : Txn) (p : PhaseType)
    (e : Hyperedge) : Keeps (hg.addHyperedgeTo c txn p s set e) :=
  (h.addTo hset c.sha3 txn p _).bind fun _ _ h => h.ok

theorem Typed.addHyperedge (h : hg.Typed) (txn : Txn) (e : Hyperedge) : Keeps (hg.addHyperedge c txn e) := by
  refine Keeps.ite ?_ h.create.ok
  refine (h.create.addHyperedgeTo (h ⟨.hyperedge, .adds, _⟩) txn .adds e).bind fun hg ⟨e, txn, err⟩ h => ?_
  cases err <;> exact Typed.ok h

theorem Typed.removeHyperedge (h : hg.Typed) (txn : Txn) (e : Hyperedge) : Keeps (hg.removeHyperedge c txn e) := by
  refine Keeps.ite ?_ ?_
  · refine (h.create.create.addHyperedgeTo (h.create ⟨.hyperedge, .adds, _⟩) txn .adds e).bind fun hg ⟨e, txn, err⟩ h' => ?_
    cases err with
    | some err => exact h'.ok
    | none => exact (h'.addHyperedgeTo (h.create ⟨.hyperedge, .removes, _⟩) txn .removes e).bind fun hg r h => h.ok
  · refine (h.create.create.addHyperedgeTo (h.create ⟨.hyperedge, .removes, _⟩) txn .removes e).bind
      fun hg ⟨e, txn, err⟩ h => ?_
    cases err <;> exact Typed.ok h

/-! ### Size queries -/

theorem Created.getOrCreateIdSet_eq (h : hg.Created m s) (atomType : AtomType) (coveredPrefix : List Nibble) :
    hg.getOrCreateIdSet m s atomType coveredPrefix = (hg, hg.set ⟨m, .adds, s⟩, hg.set ⟨m, .removes, s⟩) := by
  have hs (p : PhaseType) : hg.setOr m p s atomType coveredPrefix = hg.set ⟨m, p, s⟩ := by
    rw [setOr, h.2 p]
    rfl
  rw [getOrCreateIdSet, hs, hs]
  exact congrArg (·, _) h.create_eq

theorem Sized.getShardSize_eq (h : hg.Sized s path) : ∃ n, hg.getShardSize s path = .ok (hg, n) := by
  rw [getShardSize, (h .vertex).1.getOrCreateIdSet_eq]
  dsimp only
  rw [(h .hyperedge).1.getOrCreateIdSet_eq]
  split_ifs with hp
  · have hn (m : AtomType) : ∃ n, (hg.set ⟨m, .adds, s⟩).getSize = .ok n := by
      have hr := (h m).2 hp
      rw [IdSet.getSize, LazyVectorCommitmentTree.getSize]
      cases hroot : (hg.set ⟨m, .adds, s⟩).tree.root with
      | nil => rw [hroot] at hr; cases hr
      | leaf n => exact ⟨_, rfl⟩
      | branch n => exact ⟨_, rfl⟩
    obtain ⟨n, hn₁⟩ := hn .vertex
    obtain ⟨o, ho⟩ := hn .hyperedge
    exact ⟨n + o, by rw [hn₁, ho]; rfl⟩
  · dsimp only
    split <;> exact ⟨_, rfl⟩

theorem Reached.typed (h : Reached c hg) : hg.Typed := by
  induction h with
  | new => exact fun _ => rfl
  | lookupVertex _ _ ih | lookupHyperedge _ _ ih => exact ih.create
  | commitTxn _ _ ih => exact ih
  | @add _ _ a txn _ _ hr ih =>
    cases a with
    | vertex v => exact ih.addVertex txn v _ _ hr
    | hyperedge e =>
      have hk : Keeps ((Atom.hyperedge e).add c _ txn) := (ih.addHyperedge txn e).bind fun _ _ h => h.ok
      exact hk _ _ hr
  | @remove _ _ a txn _ _ hr ih =>
    cases a with
    | vertex v => exact ih.removeVertex txn v _ _ hr
    | hyperedge e =>
      have hk : Keeps ((Atom.hyperedge e).remove c _ txn) := (ih.removeHyperedge txn e).bind fun _ _ h => h.ok
      exact hk _ _ hr
  | getSize _ hs hr ih =>
    obtain ⟨n, hn⟩ := hs.getShardSize_eq
    obtain ⟨rfl, -⟩ := Prod.mk.inj (ok.inj (hn.symm.trans hr))
    exact ih

/-- The sets keep their types, and a query that finds them returns and changes nothing. -/
theorem reached_sized (h : Reached c hg) : (∀ m p s set, hg.sets m p s = some set → set.atomType = m) ∧
    ∀ s path, hg.Sized s path → ∃ n, hg.getShardSize s path = .ok (hg, n) := by
  refine ⟨fun m p s set hs => ?_, fun s path => Sized.getShardSize_eq⟩
  have ht := h.typed ⟨m, p, s⟩
  rwa [HypergraphCRDT.set, setOr, hs] at ht

end

/-- A query of a new shard creates sets of hyperedges with the wrong type, or panics. -/
theorem getShardSize_spoils :
    let s := shardKeyOf Crypto.plain.shake .zero
    (∃ hg, (new .empty []).getShardSize s [0] = .ok (hg, 0) ∧
      (hg.sets .hyperedge .adds s).map (·.atomType) = some .vertex) ∧
    (new .empty []).getShardSize s [] = .error .nilDereference := ⟨⟨_, rfl, rfl⟩, rfl⟩

theorem reached_sized_two :
    let hg := (((new .empty []).lookupVertex .plain ⟨.zero, .zero, [], 0, by decide⟩).1.lookupHyperedge .plain
      ⟨.zero, .zero, .empty⟩).1
    ∃ n, hg.getShardSize (shardKeyOf Crypto.plain.shake .zero) [0] = .ok (hg, n) := by
  refine (reached_sized (c := .plain) (.lookupHyperedge _ (.lookupVertex _ (.new .empty [])))).2 _ _ fun m => ⟨?_, by simp⟩
  cases m with
  | vertex => exact ⟨by decide, fun p => by cases p <;> rfl⟩
  | hyperedge => exact created_create ..

end HypergraphCRDT

end Quilibrium
