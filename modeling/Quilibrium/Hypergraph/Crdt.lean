import Quilibrium.Hypergraph.Atom
import Quilibrium.Store.Changes
import Quilibrium.Tries.LazyProofTree

/-! # The hypergraph

`HypergraphCRDT` of `hypergraph/hypergraph.go`, with the operations of `id_set.go`, `vertex.go`, `hyperedge.go`,
`vertex_data.go` and `proofs.go`. A call that commits the tree of a hyperedge, which is a pointer in the code, returns
the changed hyperedge. -/

namespace Quilibrium
open Radix

/-- The writes of an open transaction, if there is one. -/
abbrev Txn := Option (List Write)

def pending (db : Db) (txn : Txn) : Db := db.apply (txn.getD [])

/-! ### Sets -/

structure IdSet where
  dirty : Bool
  atomType : AtomType
  tree : LazyVectorCommitmentTree

def IdSet.new (atomType : AtomType) (phaseType : PhaseType) (shardKey : ShardKey) (root : LazyNode)
    (coveredPrefix : List Nibble) : IdSet where
  dirty := false
  atomType := atomType
  tree := ⟨root, ⟨atomType, phaseType, shardKey⟩, coveredPrefix⟩

/-- `GetSize` of a tree. A tree without a root has no node to ask. -/
def LazyVectorCommitmentTree.getSize (t : LazyVectorCommitmentTree) : Except Fault Int :=
  match t.root with
  | .nil => .error .nilDereference
  | .leaf n => .ok n.size
  | .branch n _ => .ok n.size

/-- `Get` of a tree, which asks the store. -/
def LazyVectorCommitmentTree.get (t : LazyVectorCommitmentTree) (db : Db) (key : Bytes) : Except String Bytes :=
  if key = [] then .error "get: empty key not allowed"
  else match getNodeByKey db t.tree key with
    | .error _ => .error "get: item not found"
    | .ok (.leaf n) => .ok n.value
    | .ok _ => .error "get: invalid node"

def ErrInvalidAtomType : String := "invalid atom type for set"
def ErrRemoved : String := "removed"

def wrap (message : String) (err : Option String) : Option String := err.map (message ++ ": " ++ ·)

namespace IdSet

/-- `Add` of an atom of this type that is inserted as `new`. -/
def add (sha3 : Digest 32) (set : IdSet) (db : Db) (txn : Txn) (atomType : AtomType) (new : Item) :
    Except Fault (IdSet × Db × Txn × Option String) :=
  if atomType ≠ set.atomType then .ok (set, db, txn, some ErrInvalidAtomType)
  else do
    let (tree, db, txn, err) ← set.tree.insert sha3 db txn new
    .ok ({ set with dirty := true, tree }, db, txn, err)

def delete (sha3 : Digest 32) (set : IdSet) (db : Db) (txn : Txn) (atomType : AtomType) (id : Bytes) :
    Except Fault (IdSet × Db × Txn × Option String) :=
  if atomType ≠ set.atomType then .ok (set, db, txn, some ErrInvalidAtomType)
  else do
    let (tree, db, txn, err) ← set.tree.delete sha3 db txn id
    .ok ({ set with dirty := true, tree }, db, txn, err)

/-- `Has`, which asks the store and not the tree. -/
def has (set : IdSet) (db : Db) (key : Bytes) : Bool :=
  match getNodeByKey db set.tree.tree key with
  | .ok _ => true
  | .error _ => false

def getSize (set : IdSet) : Except Fault Int := set.tree.getSize

end IdSet

/-! ### The hypergraph -/

/-- `HypergraphCRDT`. `sets` are its four maps from shards to sets; `shards` are the keys that have been put
    into one of them. -/
@[ext]
structure HypergraphCRDT where
  size : Int
  sets : AtomType → PhaseType → ShardKey → Option IdSet
  shards : List ShardKey
  coveredPrefix : List Nibble
  store : Db

def setAt (sets : AtomType → PhaseType → ShardKey → Option IdSet) (atomType : AtomType) (phaseType : PhaseType)
    (shardKey : ShardKey) (set : IdSet) : AtomType → PhaseType → ShardKey → Option IdSet :=
  fun a p s => if a = atomType ∧ p = phaseType ∧ s = shardKey then some set else sets a p s

namespace HypergraphCRDT

def new (store : Db) (coveredPrefix : List Nibble) : HypergraphCRDT where
  size := 0
  sets _ _ _ := none
  shards := []
  coveredPrefix := coveredPrefix
  store := store

def commitTxn (hg : HypergraphCRDT) (txn : Txn) : HypergraphCRDT := { hg with store := pending hg.store txn }

/-- `SetCoveredPrefix`. The store does not keep it: `binary.Write` takes no slice of `int`, so that the call
    returns an error once the prefix has been changed in memory. -/
def setCoveredPrefix (hg : HypergraphCRDT) (coveredPrefix : List Nibble) : HypergraphCRDT :=
  { hg with
    coveredPrefix
    sets := fun m p s => (hg.sets m p s).map fun set => { set with tree := { set.tree with coveredPrefix } } }

/-- `binary.Write` of a `[]int`, whose elements have no fixed size. -/
def binaryWriteInts (_ : List Nibble) : Except String Bytes :=
  .error "binary.Write: some values are not fixed-sized in type []int"

/-- `SetCoveredPrefix` of the store: its entry and the error that the call above returns. -/
def storeCoveredPrefix (entry : Option Bytes) (coveredPrefix : List Nibble) : Option Bytes × Option String :=
  match binaryWriteInts coveredPrefix with
  | .error err => (entry, wrap "set covered prefix" (some err))
  | .ok bytes => (some bytes, none)

/-- The covered prefix of the hypergraph that `LoadHypergraph` returns. `binary.Read` does not fill a `[]int`. -/
def loadCoveredPrefix : Option Bytes → Except String (List Nibble)
  | none | some [] => .ok []
  | some (_ :: _) => .error "load hypergraph: binary.Read: invalid type *[]int"

def putSet (hg : HypergraphCRDT) (m : AtomType) (phaseType : PhaseType) (shardKey : ShardKey) (set : IdSet) :
    HypergraphCRDT :=
  { hg with
    sets := setAt hg.sets m phaseType shardKey set
    shards := if shardKey ∈ hg.shards then hg.shards else hg.shards ++ [shardKey] }

/-- The set of the map of atom type `m`, or the new one that `getOrCreateIdSet` puts there. -/
def setOr (hg : HypergraphCRDT) (m : AtomType) (phaseType : PhaseType) (shardAddr : ShardKey) (atomType : AtomType)
    (coveredPrefix : List Nibble) : IdSet :=
  (hg.sets m phaseType shardAddr).getD (IdSet.new atomType phaseType shardAddr .nil coveredPrefix)

def getOrCreateIdSet (hg : HypergraphCRDT) (m : AtomType) (shardAddr : ShardKey) (atomType : AtomType)
    (coveredPrefix : List Nibble) : HypergraphCRDT × IdSet × IdSet :=
  let addSet := hg.setOr m .adds shardAddr atomType coveredPrefix
  let removeSet := hg.setOr m .removes shardAddr atomType coveredPrefix
  ((hg.putSet m .adds shardAddr addSet).putSet m .removes shardAddr removeSet, addSet, removeSet)

section
variable (sha3 : Digest 32)

/-- `Add` to a set of the hypergraph: the set in the map is the one that changes. -/
def addTo (hg : HypergraphCRDT) (txn : Txn) (m : AtomType) (phaseType : PhaseType) (shardKey : ShardKey) (set : IdSet)
    (new : Item) : Except Fault (HypergraphCRDT × Txn × Option String) := do
  let (set, store, txn, err) ← set.add sha3 hg.store txn m new
  .ok ({ hg.putSet m phaseType shardKey set with store }, txn, err)

def deleteFrom (hg : HypergraphCRDT) (txn : Txn) (m : AtomType) (phaseType : PhaseType) (shardKey : ShardKey)
    (set : IdSet) (id : Bytes) : Except Fault (HypergraphCRDT × Txn × Option String) := do
  let (set, store, txn, err) ← set.delete sha3 hg.store txn m id
  .ok ({ hg.putSet m phaseType shardKey set with store }, txn, err)

end

/-! ### Vertices -/

section
variable (c : Crypto)

def lookupVertex (hg : HypergraphCRDT) (v : Vertex) : HypergraphCRDT × Bool :=
  let (hg, addSet, removeSet) :=
    hg.getOrCreateIdSet .vertex (shardKeyOf c.shake v.appAddress) .vertex hg.coveredPrefix
  (hg, addSet.has hg.store v.id && !removeSet.has hg.store v.id)

def addVertex (hg : HypergraphCRDT) (txn : Txn) (v : Vertex) :
    Except Fault (HypergraphCRDT × Txn × Option String) := do
  let shardAddr := shardKeyOf c.shake v.appAddress
  let (hg, addSet, _) := hg.getOrCreateIdSet .vertex shardAddr .vertex hg.coveredPrefix
  let (hg, txn, err) ← hg.addTo c.sha3 txn .vertex .adds shardAddr addSet v.item
  match err with
  | some err => .ok (hg, txn, wrap "add vertex" (some err))
  | none => .ok ({ hg with size := hg.size + v.size }, txn, none)

def revertAddVertex (hg : HypergraphCRDT) (txn : Txn) (v : Vertex) :
    Except Fault (HypergraphCRDT × Txn × Option String) :=
  let shardAddr := shardKeyOf c.shake v.appAddress
  let (hg, addSet, _) := hg.getOrCreateIdSet .vertex shardAddr .vertex hg.coveredPrefix
  if !addSet.has hg.store v.id then .ok (hg, txn, none)
  else do
    let (hg, txn, err) ← hg.deleteFrom c.sha3 txn .vertex .adds shardAddr addSet v.id
    match err with
    | some err => .ok (hg, txn, wrap "revert add vertex" (some err))
    | none => .ok ({ hg with size := hg.size - v.size }, txn, none)

def removeVertex (hg : HypergraphCRDT) (txn : Txn) (v : Vertex) :
    Except Fault (HypergraphCRDT × Txn × Option String) :=
  let shardKey := shardKeyOf c.shake v.appAddress
  let (hg, found) := hg.lookupVertex c v
  let (hg, addSet, removeSet) := hg.getOrCreateIdSet .vertex shardKey .vertex hg.coveredPrefix
  if !found then do
    let (hg, txn, err) ← hg.addTo c.sha3 txn .vertex .adds shardKey addSet v.item
    match err with
    | some err => .ok (hg, txn, wrap "remove vertex" (some err))
    | none =>
      let (hg, txn, err) ← hg.addTo c.sha3 txn .vertex .removes shardKey removeSet v.item
      .ok (hg, txn, wrap "remove vertex" err)
  else do
    let (hg, txn, err) ← hg.addTo c.sha3 txn .vertex .removes shardKey removeSet v.item
    match err with
    | some err => .ok (hg, txn, some err)
    | none => .ok ({ hg with size := hg.size - v.size }, txn, none)

def revertRemoveVertex (hg : HypergraphCRDT) (txn : Txn) (v : Vertex) :
    Except Fault (HypergraphCRDT × Txn × Option String) := do
  let shardKey := shardKeyOf c.shake v.appAddress
  let (hg, _, removeSet) := hg.getOrCreateIdSet .vertex shardKey .vertex hg.coveredPrefix
  let (hg, txn, err) ← hg.deleteFrom c.sha3 txn .vertex .removes shardKey removeSet v.id
  match err with
  | some err => .ok (hg, txn, some err)
  | none => .ok ({ hg with size := hg.size + v.size }, txn, none)

/-! ### Hyperedges -/

/-- `Add` of a hyperedge to a set: its tree is committed, if the set takes it. -/
def addHyperedgeTo (hg : HypergraphCRDT) (txn : Txn) (phaseType : PhaseType) (shardKey : ShardKey) (set : IdSet)
    (h : Hyperedge) : Except Fault (HypergraphCRDT × Hyperedge × Txn × Option String) := do
  let (hg, txn, err) ← hg.addTo c.sha3 txn .hyperedge phaseType shardKey set (h.item c.sha512 c.prover)
  let h := if set.atomType = .hyperedge then (h.commit c.sha512 c.prover).2 else h
  .ok (hg, h, txn, err)

def lookupHyperedge (hg : HypergraphCRDT) (h : Hyperedge) : HypergraphCRDT × Bool :=
  let (hg, addSet, removeSet) :=
    hg.getOrCreateIdSet .hyperedge (shardKeyOf c.shake h.appAddress) .hyperedge hg.coveredPrefix
  (hg, addSet.has hg.store h.id && !removeSet.has hg.store h.id)

/-- `addHyperedge`: a hyperedge that has been removed is not added, which is no error. -/
def addHyperedge (hg : HypergraphCRDT) (txn : Txn) (h : Hyperedge) :
    Except Fault (HypergraphCRDT × Hyperedge × Txn × Option String) :=
  let shardAddr := shardKeyOf c.shake h.appAddress
  let (hg, addSet, removeSet) := hg.getOrCreateIdSet .hyperedge shardAddr .hyperedge hg.coveredPrefix
  if !removeSet.has hg.store h.id then do
    let (hg, h, txn, err) ← hg.addHyperedgeTo c txn .adds shardAddr addSet h
    match err with
    | some err => .ok (hg, h, txn, wrap "add hyperedge" (some err))
    | none => .ok ({ hg with size := hg.size + h.getSize }, h, txn, none)
  else .ok (hg, h, txn, none)

def revertAddHyperedge (hg : HypergraphCRDT) (txn : Txn) (h : Hyperedge) :
    Except Fault (HypergraphCRDT × Txn × Option String) :=
  let shardAddr := shardKeyOf c.shake h.appAddress
  let (hg, addSet, removeSet) := hg.getOrCreateIdSet .hyperedge shardAddr .hyperedge hg.coveredPrefix
  if !addSet.has hg.store h.id then .ok (hg, txn, none)
  else if !removeSet.has hg.store h.id then do
    let (hg, txn, err) ← hg.deleteFrom c.sha3 txn .hyperedge .adds shardAddr addSet h.id
    match err with
    | some err => .ok (hg, txn, wrap "revert add hyperedge" (some err))
    | none => .ok ({ hg with size := hg.size - h.getSize }, txn, none)
  else .ok (hg, txn, none)

def removeHyperedge (hg : HypergraphCRDT) (txn : Txn) (h : Hyperedge) :
    Except Fault (HypergraphCRDT × Hyperedge × Txn × Option String) :=
  let shardKey := shardKeyOf c.shake h.appAddress
  let (hg, wasPresent) := hg.lookupHyperedge c h
  let (hg, addSet, removeSet) := hg.getOrCreateIdSet .hyperedge shardKey .hyperedge hg.coveredPrefix
  if !wasPresent then do
    let (hg, h, txn, err) ← hg.addHyperedgeTo c txn .adds shardKey addSet h
    match err with
    | some err => .ok (hg, h, txn, wrap "remove hyperedge" (some err))
    | none =>
      let (hg, h, txn, err) ← hg.addHyperedgeTo c txn .removes shardKey removeSet h
      .ok (hg, h, txn, wrap "remove hyperedge" err)
  else do
    let (hg, h, txn, err) ← hg.addHyperedgeTo c txn .removes shardKey removeSet h
    match err with
    | some err => .ok (hg, h, txn, some err)
    | none => .ok ({ hg with size := hg.size - h.getSize }, h, txn, none)

def revertRemoveHyperedge (hg : HypergraphCRDT) (txn : Txn) (h : Hyperedge) :
    Except Fault (HypergraphCRDT × Txn × Option String) := do
  let shardKey := shardKeyOf c.shake h.appAddress
  let (hg, _, removeSet) := hg.getOrCreateIdSet .hyperedge shardKey .hyperedge hg.coveredPrefix
  let (hg, txn, err) ← hg.deleteFrom c.sha3 txn .hyperedge .removes shardKey removeSet h.id
  match err with
  | some err => .ok (hg, txn, some err)
  | none => .ok ({ hg with size := hg.size + h.getSize }, txn, none)

/-! ### Whole trees -/

def importTree (hg : HypergraphCRDT) (atomType : AtomType) (phaseType : PhaseType) (shardKey : ShardKey)
    (root : LazyNode) : Except Fault HypergraphCRDT := do
  let set := IdSet.new atomType phaseType shardKey root hg.coveredPrefix
  let treeSize ← set.getSize
  match phaseType with
  | .adds => .ok { hg.putSet atomType phaseType shardKey set with size := hg.size + treeSize }
  | .removes => .ok { hg.putSet atomType phaseType shardKey set with size := hg.size - treeSize }

def getSize (hg : HypergraphCRDT) : Int := hg.size

def nodeSize : LazyNode → Int
  | .nil => 0
  | .leaf n => n.size
  | .branch n _ => n.size

/-- `GetSize` with a shard key. The sets of hyperedges are created with the type of vertices. -/
def getShardSize (hg : HypergraphCRDT) (shardKey : ShardKey) (path : List Nibble) :
    Except Fault (HypergraphCRDT × Int) :=
  let coveredPrefix := if shardKey.l1 = [0, 0, 0] then [] else hg.coveredPrefix
  let (hg, vas, _) := hg.getOrCreateIdSet .vertex shardKey .vertex coveredPrefix
  let (hg, has, _) := hg.getOrCreateIdSet .hyperedge shardKey .vertex coveredPrefix
  if path = [] then do
    let n ← vas.getSize
    let o ← has.getSize
    .ok (hg, n + o)
  else match getNodeByPath hg.store vas.tree.tree path, getNodeByPath hg.store has.tree.tree path with
    | .error _, _ => .ok (hg, 0)
    | .ok n, .error _ => .ok (hg, nodeSize n)
    | .ok n, .ok o => .ok (hg, nodeSize n + nodeSize o)

def commitSet (fuel : Nat) (hg : HypergraphCRDT) (m : AtomType) (phaseType : PhaseType) (shardKey : ShardKey) :
    Except Fault (Bytes × HypergraphCRDT) :=
  match hg.sets m phaseType shardKey with
  | none => .ok (List.replicate 64 0, hg)
  | some set => do
    let (root, tree, store) ← set.tree.commit c.sha3 c.sha512 c.prover fuel hg.store false
    .ok (root, { hg.putSet m phaseType shardKey { set with tree } with store })

def commitOrder (shards : List ShardKey) : List (AtomType × PhaseType × ShardKey) :=
  shards.map (.vertex, .adds, ·) ++ shards.map (.vertex, .removes, ·) ++ shards.map (.hyperedge, .adds, ·) ++
    shards.map (.hyperedge, .removes, ·)

/-- `Commit` of the hypergraph. Within a map Go goes through the shards in any order; here it is the order in
    which they were created. -/
def commit (fuel : Nat) (hg : HypergraphCRDT) : Except Fault HypergraphCRDT :=
  (commitOrder hg.shards).foldlM (fun hg s => do
    let (_, hg) ← hg.commitSet c fuel s.1 s.2.1 s.2.2
    .ok hg) hg

end
end HypergraphCRDT
end Quilibrium
