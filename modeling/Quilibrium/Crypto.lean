import Quilibrium.Tries.Nibble

/-! # Hashes and the inclusion prover

The hash functions and the `InclusionProver` of `types/crypto/inclusion_prover.go` are parameters of the model. -/

namespace Quilibrium

/-- A hash function with digests of `size` bytes. -/
structure Digest (size : Nat) where
  sum : Bytes → Bytes
  length_sum : ∀ data, (sum data).length = size

structure Multiproof where
  multicommitment : Bytes
  proof : Bytes
  deriving DecidableEq, Repr

/-- The methods of an `InclusionProver` that the trees call. The trees drop the error of `CommitRaw`,
    so it is the returned commitment alone. `multiproofFromBytes` is `NewMultiproof().FromBytes` and
    `multiproofToBytes` is `Multiproof.ToBytes`. -/
structure InclusionProver where
  commitRaw : Bytes → Nat → Bytes
  proveMultiple : List Bytes → List Bytes → List UInt64 → Nat → Multiproof
  verifyMultiple : List Bytes → List Bytes → List UInt64 → Nat → Bytes → Bytes → Bool
  multiproofFromBytes : Bytes → Except String Multiproof
  multiproofToBytes : Multiproof → Except String Bytes

/-- A hash function that returns zeros, for evaluating the model. -/
def Digest.zeros (size : Nat) : Digest size := ⟨fun _ => List.replicate size 0, fun _ => List.length_replicate⟩

/-- A hash function that is injective on inputs of up to 31 bytes, for evaluating the model: the length of
    the input and the input filled up with zeros. -/
def Digest.padded : Digest 32 :=
  ⟨fun data => UInt8.ofNat data.length :: (data ++ List.replicate 31 0).take 31, fun data => by simp⟩

/-- The prover whose commitments are the vectors themselves, for evaluating the model: an opening is
    checked by reading the vector. -/
def InclusionProver.transparent : InclusionProver where
  commitRaw data _ := data
  proveMultiple _ _ _ _ := ⟨[1], [1]⟩
  verifyMultiple commits ys indices _ _ _ :=
    commits.length == ys.length && ys.length == indices.length &&
      (commits.zip (ys.zip indices)).all fun (c, y, i) => (c.drop (i.toNat * 64)).take 64 == y
  multiproofFromBytes _ := .ok ⟨[1], [1]⟩
  multiproofToBytes _ := .ok [1]

/-- `binary.BigEndian.AppendUint32` of the low 32 bits of `m`. -/
def uint32BE (m : Nat) : Bytes :=
  [UInt8.ofNat (m >>> 24), UInt8.ofNat (m >>> 16), UInt8.ofNat (m >>> 8), UInt8.ofNat m]

/-- `binary.BigEndian.AppendUint64` of the low 64 bits of `m`. -/
def uint64BE (m : Nat) : Bytes := uint32BE (m >>> 32) ++ uint32BE m

end Quilibrium
