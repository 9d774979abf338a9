import Quilibrium.Hypergraph.Decode
import Quilibrium.Hypergraph.Revert

/-! # The state of an application shard

`HypergraphState` of `node/execution/state/hypergraph/hypergraph_state.go`. Committing a change fills in the commitments
of its tree, so the trees are pointers into `heap`. -/

namespace Quilibrium
open Radix

abbrev Heap := Nat → VectorCommitmentTree

/-- The four discriminators of the source, or any other bytes. -/
inductive Discriminator where
  | vertexAdds
  | vertexRemoves
  | hyperedgeAdds
  | hyperedgeRemoves
  | other (bytes : Bytes)
  deriving DecidableEq, Repr

inductive StateChangeEvent where
  | create
  | update
  | delete
  deriving DecidableEq, Repr

/-- The four materialized states. The time at which a removed vertex may be deleted is left out: nothing reads
    it. -/
inductive MaterializedState where
  | vertexAdd (appAddress dataAddress : Address) (frameNumber : Nat) (prior : Option Nat) (data : Nat)
  | vertexRemove (v : Vertex) (frameNumber : Nat) (prior : Option Nat)
  | hyperedgeAdd (appAddress dataAddress : Address) (extTree : Nat) (frameNumber : Nat) (prior : Option Nat)
  | hyperedgeRemove (appAddress dataAddress : Address) (extTree : Nat) (frameNumber : Nat) (prior : Option Nat)

structure StateChange where
  domain : Bytes
  address : Bytes
  discriminator : Discriminator
  event : StateChangeEvent
  value : MaterializedState

structure HypergraphState where
  hypergraph : HypergraphCRDT
  changeset : List StateChange
  heap : Heap
  next : Nat

abbrev HeapStep := Heap → HypergraphCRDT → Txn → Except Fault (Heap × HypergraphCRDT × Txn × Option String)

namespace MaterializedState

def dataValue : MaterializedState → Option Nat
  | .vertexAdd _ _ _ _ data => some data
  | .vertexRemove _ _ _ => none
  | .hyperedgeAdd _ _ extTree _ _ => some extTree
  | .hyperedgeRemove _ _ _ _ _ => none

section
variable (c : Crypto)

def commit : MaterializedState → HeapStep
  | .vertexAdd appAddress dataAddress frameNumber prior data => fun heap hg txn => do
    let (commitment, tree) := (heap data).commit c.sha512 c.prover false
    let heap := Function.update heap data tree
    if h : tree.getSize.natAbs < 2 ^ 256 then
      let id := atomId appAddress dataAddress
      let (hg, txn, err) ← (HypergraphCRDT.Step.andThen
        (fun hg txn => hg.addVertex c txn ⟨appAddress, dataAddress, commitment, tree.getSize, h⟩)
        (HypergraphCRDT.Step.andThen (HypergraphCRDT.setVertexData id tree)
          (HypergraphCRDT.trackChange ⟨.vertex, .adds, shardKeyOf c.shake appAddress⟩ id (prior.map heap) frameNumber))) hg txn
      .ok (heap, hg, txn, wrap "vertex add commit" err)
    else .error .logPanic
  | .vertexRemove v frameNumber prior => fun heap hg txn => do
    let (hg, txn, err) ← (HypergraphCRDT.Step.andThen (fun hg txn => hg.removeVertex c txn v)
      (HypergraphCRDT.trackChange ⟨.vertex, .removes, shardKeyOf c.shake v.appAddress⟩ v.id (prior.map heap) frameNumber))
      hg txn
    .ok (heap, hg, txn, wrap "vertex remove commit" err)
  | .hyperedgeAdd appAddress dataAddress extTree frameNumber prior => fun heap hg txn => do
    let (hg, h, txn, err) ← hg.addHyperedge c txn ⟨appAddress, dataAddress, heap extTree⟩
    let heap := Function.update heap extTree h.extTree
    match err with
    | some err => .ok (heap, hg, txn, wrap "hyperedge add commit" (some err))
    | none =>
      let (hg, txn, err) ← HypergraphCRDT.trackChange ⟨.hyperedge, .adds, shardKeyOf c.shake appAddress⟩
        (atomId appAddress dataAddress) (prior.map heap) frameNumber hg txn
      .ok (heap, hg, txn, wrap "hyperedge add commit" err)
  | .hyperedgeRemove appAddress dataAddress extTree frameNumber prior => fun heap hg txn => do
    let (hg, h, txn, err) ← hg.removeHyperedge c txn ⟨appAddress, dataAddress, heap extTree⟩
    let heap := Function.update heap extTree h.extTree
    match err with
    | some err => .ok (heap, hg, txn, wrap "hyperedge remove commit" (some err))
    | none =>
      let (hg, txn, err) ← HypergraphCRDT.trackChange ⟨.hyperedge, .removes, shardKeyOf c.shake appAddress⟩
        (atomId appAddress dataAddress) (prior.map heap) frameNumber hg txn
      .ok (heap, hg, txn, wrap "hyperedge remove commit" err)

/-- The loop of `Commit` over the changeset, which ends at the first error. -/
def commitAll : List MaterializedState → HeapStep
  | [] => fun heap hg txn => .ok (heap, hg, txn, none)
  | value :: values => fun heap hg txn => do
    match ← value.commit c heap hg txn with
    | (heap, hg, txn, none) => commitAll values heap hg txn
    | (heap, hg, txn, some err) => .ok (heap, hg, txn, some err)

end
end MaterializedState

namespace HypergraphState

def ErrInvalidDiscriminator : String := "invalid discriminator"

def new (hypergraph : HypergraphCRDT) (heap : Heap) (next : Nat) : HypergraphState := ⟨hypergraph, [], heap, next⟩

/-- `copy` into 32 zero bytes. -/
def copy32 (b : Bytes) : Address where
  bytes := (b ++ List.replicate 32 0).take 32
  length_bytes := by
    rw [List.length_take, List.length_append, List.length_replicate]
    omega

section
variable (c : Crypto)

/-- What `Get` returns: the tree of a pending change, the data of a vertex, or a hyperedge. -/
inductive Got where
  | pending (tree : Option Nat)
  | data (tree : VectorCommitmentTree)
  | hyperedge (h : WireHyperedge)

def lastChange (s : HypergraphState) (domain address : Bytes) (discriminator : Discriminator) : Option StateChange :=
  s.changeset.reverse.find? fun change =>
    change.address == address && change.domain == domain && change.discriminator == discriminator

def get (s : HypergraphState) (domain address : Bytes) (discriminator : Discriminator) :
    HypergraphState × Except String Got :=
  match s.lastChange domain address discriminator with
  | some change => (s, .ok (.pending change.value.dataValue))
  | none =>
    match discriminator with
    | .vertexAdds =>
      match s.hypergraph.getVertexData c (copy32 domain) (copy32 address) with
      | (hypergraph, .error err) => ({ s with hypergraph }, .error ("get: " ++ err))
      | (hypergraph, .ok data) => ({ s with hypergraph }, .ok (.data data))
    | .hyperedgeAdds =>
      match s.hypergraph.getHyperedge c (copy32 domain) (copy32 address) with
      | (hypergraph, .error err) => ({ s with hypergraph }, .error ("get: " ++ err))
      | (hypergraph, .ok h) => ({ s with hypergraph }, .ok (.hyperedge h))
    | _ => (s, .error ("get: " ++ ErrInvalidDiscriminator))

def append (s : HypergraphState) (domain address : Bytes) (discriminator : Discriminator) (event : StateChangeEvent)
    (value : MaterializedState) : HypergraphState :=
  { s with changeset := s.changeset ++ [⟨domain, address, discriminator, event, value⟩] }

/-- `Set`. The frame number is that of the value. -/
def set (s : HypergraphState) (domain address : Bytes) (discriminator : Discriminator) (value : MaterializedState) :
    HypergraphState × Option String :=
  match discriminator, value with
  | .vertexAdds, .vertexAdd _ _ _ _ _ =>
    match s.hypergraph.getVertex c (copy32 domain) (copy32 address) with
    | (hypergraph, .ok _) =>
      (append { s with hypergraph } domain address discriminator .update value, none)
    | (hypergraph, .error err) =>
      if err = "get vertex: " ++ ErrRemoved then ({ s with hypergraph }, some ("set: " ++ err))
      else (append { s with hypergraph } domain address discriminator .create value, none)
  | .hyperedgeAdds, .hyperedgeAdd _ _ _ _ _ =>
    match s.hypergraph.getHyperedge c (copy32 domain) (copy32 address) with
    | (hypergraph, .ok _) =>
      (append { s with hypergraph } domain address discriminator .update value, none)
    | (hypergraph, .error err) =>
      if err = "get hyperedge: " ++ ErrRemoved then ({ s with hypergraph }, some ("set: " ++ err))
      else (append { s with hypergraph } domain address discriminator .create value, none)
  | _, _ => (s, some ("set: " ++ ErrInvalidDiscriminator))

def allocate (s : HypergraphState) (tree : VectorCommitmentTree) : HypergraphState :=
  { s with heap := Function.update s.heap s.next tree, next := s.next + 1 }

/-- `Delete`. A domain or address of fewer than 32 bytes panics once the atom was found. -/
def delete (s : HypergraphState) (domain address : Bytes) (discriminator : Discriminator) (frameNumber : Nat) :
    Except Fault (HypergraphState × Option String) :=
  match discriminator with
  | .vertexRemoves =>
    match s.hypergraph.getVertex c (copy32 domain) (copy32 address) with
    | (hypergraph, .error err) => .ok ({ s with hypergraph }, some ("delete: " ++ err))
    | (hypergraph, .ok vertex) =>
      match hypergraph.getVertexData c (copy32 domain) (copy32 address) with
      | (hypergraph, .error err) => .ok ({ s with hypergraph }, some ("delete: " ++ err))
      | (hypergraph, .ok data) => do
        let appAddress ← HypergraphCRDT.toAddress domain
        let dataAddress ← HypergraphCRDT.toAddress address
        .ok ((allocate { s with hypergraph } data).append domain address discriminator .delete
          (.vertexRemove ⟨appAddress, dataAddress, vertex.commitment, vertex.size, vertex.size_lt⟩ frameNumber
            (some s.next)), none)
  | .hyperedgeRemoves =>
    match s.hypergraph.getHyperedge c (copy32 domain) (copy32 address) with
    | (hypergraph, .error err) => .ok ({ s with hypergraph }, some ("delete: " ++ err))
    | (hypergraph, .ok hyperedge) =>
      -- the tree was written by `ToBytes`, so that its prefixes consist of nibbles
      match WireNode.toNode hyperedge.extTree with
      | none => .error .logPanic
      | some root =>
        .ok ((allocate { s with hypergraph } ⟨root⟩).append domain address discriminator .delete
          (.hyperedgeRemove hyperedge.appAddress hyperedge.dataAddress s.next frameNumber (some s.next)), none)
  | _ => .ok (s, some ("delete: " ++ ErrInvalidDiscriminator))

/-- `Commit`. An error drops the transaction; the changeset stays. -/
def commit (fuel : Nat) (s : HypergraphState) : Except Fault (HypergraphState × Option String) := do
  let (heap, hypergraph, txn, err) ← MaterializedState.commitAll c (s.changeset.map (·.value)) s.heap s.hypergraph (some [])
  match err with
  | some err => .ok ({ s with heap, hypergraph }, some ("commit: " ++ err))
  | none =>
    let hypergraph ← (hypergraph.commitTxn txn).commit c fuel
    .ok ({ s with heap, hypergraph }, none)

def abort (s : HypergraphState) : HypergraphState := { s with changeset := [] }

end
end HypergraphState

end Quilibrium
