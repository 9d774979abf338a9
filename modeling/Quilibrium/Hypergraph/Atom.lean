import Mathlib.Data.List.Sort
import Quilibrium.Store.Hypergraph
import Quilibrium.Tries.Serialize

/-! # Atoms of the hypergraph

`vertex` and `hyperedge` of `hypergraph/vertex.go` and `hypergraph/hyperedge.go`, and the shard of an atom
(`types/hypergraph/addressing.go`). -/

namespace Quilibrium
open Radix

/-! ### Addresses and shards -/

@[ext]
structure Address where
  bytes : Bytes
  length_bytes : bytes.length = 32
  deriving Repr

instance Address.instDecidableEq : DecidableEq Address := fun a b =>
  decidable_of_iff (a.bytes = b.bytes) Address.ext_iff.symm

theorem Address.length_zero : (List.replicate 32 (0 : UInt8)).length = 32 := List.length_replicate

def Address.zero : Address := ⟨List.replicate 32 0, Address.length_zero⟩

/-- The first three different bytes of a digest, in increasing order. -/
def bloomIndices (digest : Bytes) : Bytes :=
  digest.foldl (fun indices b =>
    if indices.length = 3 ∨ b ∈ indices then indices else indices.orderedInsert (· ≤ ·) b) []

/-- The first 24 bytes of SHAKE-256. Three of them are different: `GetBloomFilterIndices` reads past the
    digest otherwise. -/
structure Shake where
  sum : Bytes → Bytes
  length_indices : ∀ data, (bloomIndices (sum data)).length = 3

/-- The hash functions and the prover of a hypergraph. -/
structure Crypto where
  sha3 : Digest 32
  sha512 : Digest 64
  shake : Shake
  prover : InclusionProver

/-- Hash functions and a prover for evaluating the model. -/
def Crypto.plain : Crypto where
  sha3 := .padded
  sha512 := .zeros 64
  shake := ⟨fun _ => [0, 1, 2], fun _ => rfl⟩
  prover := .transparent

/-- `GetBloomFilterIndices` of an address with 256 bits and three indices. -/
def getBloomFilterIndices (shake : Shake) (data : Address) : Bytes :=
  if 0x3f < data.bytes.headD 0 ∨ data.bytes = List.replicate 32 0 then [0, 0, 0] else bloomIndices (shake.sum data.bytes)

theorem length_getBloomFilterIndices (shake : Shake) (data : Address) :
    (getBloomFilterIndices shake data).length = 3 := by
  unfold getBloomFilterIndices
  split
  · rfl
  · exact shake.length_indices _

/-- `GetShardKey` of an atom with this app address. -/
def shardKeyOf (shake : Shake) (appAddress : Address) : ShardKey where
  l1 := getBloomFilterIndices shake appAddress
  l2 := appAddress.bytes
  length_l1 := length_getBloomFilterIndices shake appAddress
  length_l2 := appAddress.length_bytes

def atomId (appAddress dataAddress : Address) : Bytes := appAddress.bytes ++ dataAddress.bytes

theorem length_atomId (appAddress dataAddress : Address) : (atomId appAddress dataAddress).length = 64 := by
  rw [atomId, List.length_append, appAddress.length_bytes, dataAddress.length_bytes]

/-! ### Vertices -/

/-- `FillBytes` into 32 bytes. -/
def fillBytes (n : Nat) : Bytes := List.replicate (32 - (bigIntBytes n).length) 0 ++ bigIntBytes n

/-- `vertex`. `ToBytes` panics if the size needs more than 32 bytes. -/
structure Vertex where
  appAddress : Address
  dataAddress : Address
  commitment : Bytes
  size : Int
  size_lt : size.natAbs < 2 ^ 256

namespace Vertex

def id (v : Vertex) : Bytes := atomId v.appAddress v.dataAddress

def toBytes (v : Vertex) : Bytes :=
  0x00 :: (v.appAddress.bytes ++ v.dataAddress.bytes ++ v.commitment ++ fillBytes v.size.natAbs)

def item (v : Vertex) : Item where
  key := v.id
  value := v.toBytes
  hashTarget := v.commitment
  size := v.size.natAbs

end Vertex

/-! ### Hyperedges -/

def VectorCommitmentTree.getSize (t : VectorCommitmentTree) : Int :=
  match t.root with
  | .nil => 0
  | .leaf n => n.size
  | .branch n _ => n.size

structure Hyperedge where
  appAddress : Address
  dataAddress : Address
  extTree : VectorCommitmentTree

namespace Hyperedge

def id (h : Hyperedge) : Bytes := atomId h.appAddress h.dataAddress

/-- `GetSize`: the number of extrinsics. -/
def getSize (h : Hyperedge) : Int := h.extTree.getMetadata.1

def toBytes (h : Hyperedge) : Bytes :=
  0x01 :: (h.appAddress.bytes ++ h.dataAddress.bytes ++ serializeNonLazyTree h.extTree)

/-- `Commit`: the commitment, and the hyperedge with the commitments of its tree filled in. -/
def commit (sha512 : Digest 64) (prover : InclusionProver) (h : Hyperedge) : Bytes × Hyperedge :=
  let (commitment, extTree) := h.extTree.commit sha512 prover false
  (commitment, { h with extTree })

/-- What `idSet.Add` inserts for a hyperedge. Its bytes are taken before its tree is committed. -/
def item (sha512 : Digest 64) (prover : InclusionProver) (h : Hyperedge) : Item where
  key := h.id
  value := h.toBytes
  hashTarget := (h.commit sha512 prover).1
  size := h.getSize.natAbs

end Hyperedge

end Quilibrium
