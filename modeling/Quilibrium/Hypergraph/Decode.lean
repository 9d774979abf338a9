import Quilibrium.Hypergraph.Crdt

/-! # Reading atoms

`AtomFromBytes` of `hypergraph/atom.go`, and `GetVertex` and `GetHyperedge`. -/

namespace Quilibrium
open Radix

/-- A `hyperedge` as it is read: the prefixes of its tree can hold any numbers. -/
structure WireHyperedge where
  appAddress : Address
  dataAddress : Address
  extTree : WireNode

inductive WireAtom where
  | vertex (v : Vertex)
  | hyperedge (h : WireHyperedge)

/-- The leaf count that `GetMetadata` gives for a tree with this root. -/
def WireNode.leafCount : WireNode → Int
  | .nil => 0
  | .leaf _ => 1
  | .branch n _ => n.leafCount

def WireAtom.getSize : WireAtom → Int
  | .vertex v => v.size
  | .hyperedge h => WireNode.leafCount h.extTree

def addressAt (data : Bytes) (offset : Nat) (h : offset + 32 ≤ data.length) : Address where
  bytes := (data.drop offset).take 32
  length_bytes := by
    rw [List.length_take, List.length_drop]
    omega

/-- The vertex of `AtomFromBytes`: type, addresses, commitment and, in the last 32 bytes, the size. -/
def vertexFromBytes (data : Bytes) : Option Vertex :=
  if h : 161 ≤ data.length then
    some {
      appAddress := addressAt data 1 (by omega)
      dataAddress := addressAt data 33 (by omega)
      commitment := (data.drop 65).take (data.length - 32 - 65)
      size := natOfBE (data.drop (data.length - 32))
      size_lt := by
        have hlen : (data.drop (data.length - 32)).length = 32 := by
          rw [List.length_drop]
          omega
        have hlt := natOfBE_lt (data.drop (data.length - 32))
        rw [hlen] at hlt
        exact lt_of_lt_of_eq hlt (by norm_num) }
  else none

/-- `AtomFromBytes`, with fuel for the atoms in the leaves of a hyperedge. -/
def atomFromBytesWith : Nat → Bytes → Option WireAtom
  | 0, _ => none
  | _ + 1, [] => none
  | fuel + 1, type :: rest =>
    let data := type :: rest
    if type = 0x00 then (vertexFromBytes data).map .vertex
    else if h : 65 ≤ data.length then
      match deserializeWireTree (data.drop 65) with
      | .error _ => none
      | .ok tree =>
        let valid := tree.leaves.all fun leaf =>
          leaf.key.length == 64 &&
            match atomFromBytesWith fuel leaf.value with
            | none => false
            | some a => decide ((leaf.size : Int) = a.getSize)
        if valid then
          some (.hyperedge ⟨addressAt data 1 (by omega), addressAt data 33 (by omega), tree⟩)
        else none
    else none

/-- `AtomFromBytes`. The atoms of a hyperedge have fewer bytes than it has. -/
def atomFromBytes (data : Bytes) : Option WireAtom := atomFromBytesWith data.length data

namespace HypergraphCRDT
variable (c : Crypto)

def getVertex (hg : HypergraphCRDT) (appAddress dataAddress : Address) : HypergraphCRDT × Except String Vertex :=
  let id := atomId appAddress dataAddress
  let (hg, addSet, removeSet) := hg.getOrCreateIdSet .vertex (shardKeyOf c.shake appAddress) .vertex hg.coveredPrefix
  if removeSet.has hg.store id then (hg, .error ("get vertex: " ++ ErrRemoved))
  else match addSet.tree.get hg.store id with
    | .error err => (hg, .error ("get vertex: " ++ err))
    | .ok value =>
      match atomFromBytes value with
      | some (.vertex v) => (hg, .ok v)
      | _ => (hg, .error ("get vertex: " ++ ErrInvalidAtomType))

def ErrInvalidLocation : String := "invalid location"

def getHyperedge (hg : HypergraphCRDT) (appAddress dataAddress : Address) :
    HypergraphCRDT × Except String WireHyperedge :=
  let id := atomId appAddress dataAddress
  let (hg, addSet, removeSet) :=
    hg.getOrCreateIdSet .hyperedge (shardKeyOf c.shake appAddress) .hyperedge hg.coveredPrefix
  if removeSet.has hg.store id then (hg, .error ("get hyperedge: " ++ ErrRemoved))
  else match getNodeByKey hg.store addSet.tree.tree id with
    | .error _ => (hg, .error "get hyperedge: item not found")
    | .ok (.leaf n) =>
      match atomFromBytes n.value with
      | some (.hyperedge h) => (hg, .ok h)
      | _ => (hg, .error ("get hyperedge: " ++ ErrInvalidAtomType))
    | .ok _ => (hg, .error ("get hyperedge: " ++ ErrInvalidLocation))

end HypergraphCRDT

end Quilibrium
