import Mathlib.Data.Nat.Digits.Defs
import Quilibrium.Tries.TraversalProof

/-! # The byte form of an in-memory tree

`SerializeNonLazyTree` and `DeserializeNonLazyTree` of `types/tries/proof_tree.go`. -/

namespace Quilibrium
open Radix

def typeNil : UInt8 := 0
def typeLeaf : UInt8 := 1
def typeBranch : UInt8 := 2

/-! ### Writing -/

def serializeBytes (data : Bytes) : Bytes := uint64BE data.length ++ data

def serializeIntSlice (ints : List Nibble) : Bytes := uint32BE ints.length ++ ints.flatMap fun v => uint32BE v.val

/-- `big.Int.Bytes`: the big-endian digits of the absolute value, without leading zeros. -/
def bigIntBytes (n : Nat) : Bytes := (Nat.digits 256 n).reverse.map UInt8.ofNat

def serializeBigInt (n : Nat) : Bytes := serializeBytes (bigIntBytes n)

def serializeLeafNode (n : LeafNode) : Bytes :=
  serializeBytes n.key ++ (serializeBytes n.value ++ (serializeBytes n.hashTarget ++
    (serializeBytes n.commitment ++ serializeBigInt n.size)))

/-- What follows the children of a branch. `LeafCount` is written as an `int64`, `LongestBranch` as an
    `int32`. -/
def serializeBranchTail (n : BranchNode) : Bytes :=
  serializeBytes n.commitment ++ (serializeBigInt n.size.natAbs ++
    (uint64BE (n.leafCount % 2 ^ 64).toNat ++ uint32BE (n.longestBranch % 2 ^ 32).toNat))

def serializeNonLazyNode : Node → Bytes
  | .nil => [typeNil]
  | .leaf n => typeLeaf :: serializeLeafNode n
  | .branch n children =>
    typeBranch :: (serializeIntSlice n.pfx ++
      (((List.finRange 64).flatMap fun i => serializeNonLazyNode (children i)) ++ serializeBranchTail n))

def serializeNonLazyTree (tree : VectorCommitmentTree) : Bytes := serializeNonLazyNode tree.root

/-! ### Reading -/

/-- `VectorCommitmentBranchNode` as it is read: an entry of the prefix can be any `int32`. -/
structure WireBranch where
  pfx : List Int
  commitment : Bytes
  size : Nat
  leafCount : Int
  longestBranch : Int
  deriving DecidableEq, Repr

abbrev WireNode := Trie 64 WireBranch LeafNode

/-- `io.ReadFull` of `n` bytes. -/
def readExactly (n : Nat) : Reader Bytes := fun buf =>
  if n ≤ buf.length then .ok (buf.take n, buf.drop n)
  else if buf = [] then .error "EOF"
  else .error "unexpected EOF"

/-- `binary.Read` of an unsigned integer of `n` bytes. -/
def readUint (n : Nat) : Reader Nat := do
  let b ← readExactly n
  return natOfBE b

/-- `binary.Read` of a signed integer of `n` bytes. -/
def readInt (n : Nat) : Reader Int := do
  let m ← readUint n
  return if m < 2 ^ (8 * n - 1) then (m : Int) else (m : Int) - 2 ^ (8 * n)

theorem natOfBE_lt (b : Bytes) : natOfBE b < 256 ^ b.length := by
  have from_acc : ∀ (b : Bytes) (m k : Nat), m < 256 ^ k →
      b.foldl (fun m x => m * 256 + x.toNat) m < 256 ^ (k + b.length) := by
    intro b
    induction b with
    | nil => exact fun m k hm => hm
    | cons x b ih =>
      intro m k hm
      have hx : x.toNat < 256 := x.toNat_lt
      have hstep : m * 256 + x.toNat < 256 ^ (k + 1) := by
        rw [Nat.pow_succ]
        omega
      rw [List.foldl_cons, List.length_cons, Nat.add_comm b.length, ← Nat.add_assoc]
      exact ih _ _ hstep
  have h := from_acc b 0 0 (Nat.one_pos)
  rwa [Nat.zero_add] at h

def deserializeBytes : Reader Bytes := do
  let length ← readUint 8
  if 0 < length then
    if 1 * 1024 * 1024 * 1024 < length then throw "invalid array length" else readExactly length
  else return []

def deserializeIntSlice : Reader (List Int) := do
  let length ← readUint 4
  readN (readInt 4) length

def deserializeBigInt : Reader Nat := do
  let bytes ← deserializeBytes
  return natOfBE bytes

def deserializeLeafNode : Reader LeafNode := do
  let key ← deserializeBytes
  let value ← deserializeBytes
  let hashTarget ← deserializeBytes
  let commitment ← deserializeBytes
  let size ← deserializeBigInt
  return { key, value, hashTarget, size, commitment }

def deserializeBranchTail (pfx : List Int) : Reader WireBranch := do
  let commitment ← deserializeBytes
  let size ← deserializeBigInt
  let leafCount ← readInt 8
  let longestBranch ← readInt 4
  return { pfx, commitment, size, leafCount, longestBranch }

/-- `deserializeNonLazyNode`. Every node takes a byte, so the fuel of `deserializeNonLazyTree` is enough. -/
def deserializeNonLazyNode : Nat → Reader WireNode
  | 0 => throw "EOF"
  | fuel + 1 => do
    let nodeType ← readUint 1
    if nodeType = typeNil.toNat then return .nil
    else if nodeType = typeLeaf.toNat then do
      let n ← deserializeLeafNode
      return .leaf n
    else if nodeType = typeBranch.toNat then do
      let pfx ← deserializeIntSlice
      let children ← readN (deserializeNonLazyNode fuel) 64
      let n ← deserializeBranchTail pfx
      return .branch n fun i => children.getD i.val .nil
    else throw ("unknown node type marker: " ++ toString nodeType)

/-- `DeserializeNonLazyTree`. Bytes behind the tree are not read. -/
def deserializeWireTree (data : Bytes) : Except String WireNode :=
  match deserializeNonLazyNode (data.length + 1) data with
  | .ok (node, _) => .ok node
  | .error err => .error ("failed to deserialize tree: " ++ err)

def nibbles (ints : List Int) : Option (List Nibble) :=
  ints.mapM fun v => if h : 0 ≤ v ∧ v < 64 then some ⟨v.toNat, by omega⟩ else none

def WireBranch.toBranch (n : WireBranch) : Option BranchNode := do
  let pfx ← nibbles n.pfx
  return { pfx, commitment := n.commitment, size := n.size, leafCount := n.leafCount, longestBranch := n.longestBranch }

/-- The node that a decoded one is, if all of its prefixes consist of nibbles. -/
def WireNode.toNode : WireNode → Option Node
  | .nil => some .nil
  | .leaf n => some (.leaf n)
  | .branch n children =>
    match n.toBranch with
    | none => none
    | some b =>
      let decoded := fun i => WireNode.toNode (children i)
      if (List.finRange 64).all fun i => (decoded i).isSome then some (.branch b fun i => (decoded i).getD .nil)
      else none

/-- `DeserializeNonLazyTree` of bytes that `SerializeNonLazyTree` wrote: prefixes consist of nibbles. -/
def deserializeNonLazyTree (data : Bytes) : Except String VectorCommitmentTree :=
  match deserializeWireTree data with
  | .error err => .error err
  | .ok node =>
    match WireNode.toNode node with
    | some root => .ok ⟨root⟩
    | none => .error "failed to deserialize tree: prefix out of range"

end Quilibrium
