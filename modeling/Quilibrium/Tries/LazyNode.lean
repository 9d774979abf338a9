import Quilibrium.Tries.ProofTree

/-! # Nodes of the store-backed tree

`LazyVectorCommitmentNode` of `types/tries/lazy_proof_tree.go`. A slot of a branch that is `nil` is
either empty or not loaded. -/

namespace Quilibrium
open Radix

/-- `hypergraph.AtomType`, as the set type of a tree. -/
inductive AtomType where
  | vertex
  | hyperedge
  deriving DecidableEq, Repr

inductive PhaseType where
  | adds
  | removes
  deriving DecidableEq, Repr

structure ShardKey where
  l1 : Bytes
  l2 : Bytes
  length_l1 : l1.length = 3
  length_l2 : l2.length = 32
  deriving DecidableEq, Repr

/-- `SetType`, `PhaseType` and `ShardKey`, which name a tree of the store. -/
structure TreeId where
  setType : AtomType
  phaseType : PhaseType
  shardKey : ShardKey
  deriving DecidableEq, Repr

/-- `LazyVectorCommitmentBranchNode` without its children. -/
structure LazyBranchNode extends BranchNode where
  fullPrefix : List Nibble
  fullyLoaded : Bool
  deriving DecidableEq, Repr

/-- `LazyVectorCommitmentNode`. -/
abbrev LazyNode := Trie 64 LazyBranchNode LeafNode

/-- A node as `SerializeLeafNode` and `SerializeBranchNode` write it: without children, and with the
    absolute value of a branch's size. A branch is stored with its full prefix. -/
inductive NodeRecord where
  | leaf (n : LeafNode)
  | branch (n : BranchNode) (fullPrefix : List Nibble)
  deriving DecidableEq, Repr

def LazyBranchNode.record (n : LazyBranchNode) : NodeRecord :=
  .branch { n.toBranchNode with size := n.size.natAbs } n.fullPrefix

/-- The node that a record is read back as: no children are loaded. -/
def NodeRecord.toNode : NodeRecord → LazyNode
  | .leaf n => .leaf n
  | .branch n fullPrefix => .branch { n with fullPrefix, fullyLoaded := false } fun _ => .nil

end Quilibrium
