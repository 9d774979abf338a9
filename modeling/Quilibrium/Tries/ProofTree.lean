import Quilibrium.Crypto

/-! # The in-memory vector commitment tree

`VectorCommitmentTree` of `types/tries/proof_tree.go`, with nodes that are returned where the code changes them in
place. -/

namespace Quilibrium
open Radix

/-- What a leaf binds: `Key`, `Value`, `HashTarget` and `Size` of `VectorCommitmentLeafNode`. Values are
    non-nil slices. -/
structure Item where
  key : Bytes
  value : Bytes
  hashTarget : Bytes
  size : Nat
  deriving DecidableEq, Repr

/-- `VectorCommitmentLeafNode`. An empty commitment has not been computed. -/
structure LeafNode extends Item where
  commitment : Bytes
  deriving DecidableEq, Repr

/-- `VectorCommitmentBranchNode` without its children. -/
structure BranchNode where
  pfx : List Nibble
  commitment : Bytes
  size : Int
  leafCount : Int
  longestBranch : Int
  deriving DecidableEq, Repr

/-- `VectorCommitmentNode`. -/
abbrev Node := Trie 64 BranchNode LeafNode

/-! ### Commitments -/

section Commit
variable (sha512 : Digest 64) (prover : InclusionProver)

/-- What a leaf commits to: the hash target if there is one, else the value. -/
def Item.target (n : Item) : Bytes := if n.hashTarget ≠ [] then n.hashTarget else n.value

def Item.hash (n : Item) : Bytes := sha512.sum (0 :: n.key ++ n.target)

def LeafNode.commit (recalculate : Bool) (n : LeafNode) : Bytes × LeafNode :=
  if n.commitment = [] ∨ recalculate then
    let commitment := n.toItem.hash sha512
    (commitment, { n with commitment })
  else (n.commitment, n)

/-- The hash of a branch in its parent's vector: its prefix and its commitment. -/
def hashBranch (pfx : List Nat) (out : Bytes) : Bytes :=
  sha512.sum (1 :: pfx.flatMap uint32BE ++ out)

def vectorEntry (child : Node) (out : Bytes) : Bytes :=
  match child with
  | .nil => List.replicate 64 0
  | .leaf _ => out
  | .branch c _ => hashBranch sha512 (c.pfx.map Fin.val) out

/-- `Commit` of a node: the commitment, and the node with the commitments computed on the way. -/
def Node.commit (recalculate : Bool) : Node → Bytes × Node
  | .nil => ([], .nil)
  | .leaf n =>
    let (commitment, n) := n.commit sha512 recalculate
    (commitment, .leaf n)
  | .branch n children =>
    if n.commitment = [] ∨ recalculate then
      let committed := fun i => Node.commit recalculate (children i)
      let data := (List.finRange 64).flatMap fun i => vectorEntry sha512 (children i) (committed i).1
      let commitment := prover.commitRaw data 64
      (commitment, .branch { n with commitment } fun i => (committed i).2)
    else (n.commitment, .branch n children)

def BranchNode.commit (recalculate : Bool) (n : BranchNode) (children : Fin 64 → Node) :
    Bytes × BranchNode × (Fin 64 → Node) :=
  if n.commitment = [] ∨ recalculate then
    let committed := fun i => Node.commit sha512 prover recalculate (children i)
    let data := (List.finRange 64).flatMap fun i => vectorEntry sha512 (children i) (committed i).1
    let commitment := prover.commitRaw data 64
    (commitment, { n with commitment }, fun i => (committed i).2)
  else (n.commitment, n, children)

def Node.commitment : Node → Bytes
  | .nil => []
  | .leaf n => n.commitment
  | .branch n _ => n.commitment

/-- `GetPolynomial`: the vector a branch commits to, from the commitments its children hold. -/
def getPolynomial (children : Fin 64 → Node) : Bytes :=
  (List.finRange 64).flatMap fun i => vectorEntry sha512 (children i) (Node.commitment (children i))

end Commit

/-! ### Insertion -/

def longestAfterInsert (n : BranchNode) (inserted : Node) : Int :=
  match inserted with
  | .branch i _ => if n.longestBranch ≤ i.longestBranch then i.longestBranch + 1 else n.longestBranch
  | .leaf _ => 1
  | .nil => n.longestBranch

/-- Writes a child; the index is the nibble just read from a key. -/
def setChild {β α : Type} (children : Fin 64 → Trie 64 β α) (nibble : Option Nibble) (child : Trie 64 β α) :
    Except Fault (Fin 64 → Trie 64 β α) :=
  match nibble with
  | none => .error .indexOutOfRange
  | some i => .ok (Function.update children i child)

/-- The recursion of `Insert`: how many leaves were added, and the new node. -/
def Node.insert (new : Item) : Node → Nat → Except Fault (Int × Node)
  | .nil, _ => .ok (1, .leaf { new with commitment := [] })
  | .leaf n, depth =>
    if n.key = new.key then .ok (0, .leaf { new with key := n.key, commitment := [] })
    else do
      let (sharedNibbles, divergeDepth) ← getNibblesUntilDiverge n.key new.key depth
      let children ← setChild (fun _ => .nil) (getNextNibble n.key divergeDepth) (.leaf n)
      let children ← setChild children (getNextNibble new.key divergeDepth) (.leaf { new with commitment := [] })
      let branch : BranchNode := {
        pfx := sharedNibbles
        commitment := []
        size := n.size + new.size
        leafCount := 2
        longestBranch := 1 }
      .ok (1, .branch branch children)
  | .branch n children, depth =>
    match prefixMismatch new.key depth n.pfx 0 with
    | some (i, expectedNibble, actualNibble) => do
      let newBranch : BranchNode := {
        pfx := n.pfx.take i
        commitment := []
        size := n.size + new.size
        leafCount := n.leafCount + 1
        longestBranch := n.longestBranch + 1 }
      let slots ← setChild (fun _ => .nil) (some expectedNibble) (.branch { n with pfx := n.pfx.drop (i + 1) } children)
      let slots ← setChild slots actualNibble (.leaf { new with commitment := [] })
      .ok (1, .branch newBranch slots)
    | none =>
      match getNextNibble new.key (depth + n.pfx.length * branchBits) with
      | none => .error .indexOutOfRange
      | some finalNibble => do
        let (delta, inserted) ← Node.insert new (children finalNibble)
          (depth + n.pfx.length * branchBits + branchBits)
        let n := { n with
          commitment := []
          size := if delta ≠ 0 then n.size + new.size else n.size
          leafCount := n.leafCount + delta
          longestBranch := longestAfterInsert n inserted }
        .ok (delta, .branch n (Function.update children finalNibble inserted))

/-! ### Lookup and removal -/

def Node.get (key : Bytes) : Node → Nat → Except Fault (Option Bytes)
  | .nil, _ => .ok none
  | .leaf n, _ => .ok (if n.key = key then some n.value else none)
  | .branch n children, depth =>
    match prefixMismatch key depth n.pfx 0 with
    | some _ => .ok none
    | none =>
      match getNextNibble key (depth + n.pfx.length * branchBits) with
      | none => .error .indexOutOfRange
      | some finalNibble => Node.get key (children finalNibble) (depth + n.pfx.length * branchBits + branchBits)

/-- The number of leaves and the longest branch that `Delete` recomputes from the children. -/
def countLeaves (children : Fin 64 → Node) : Int :=
  (List.finRange 64).foldl (fun leaves i =>
    match children i with
    | .nil => leaves
    | .leaf _ => leaves + 1
    | .branch c _ => leaves + c.leafCount) 0

def countLongest (children : Fin 64 → Node) : Int :=
  (List.finRange 64).foldl (fun longestBranch i =>
    match children i with
    | .branch c _ => if longestBranch < c.longestBranch + 1 then c.longestBranch + 1 else longestBranch
    | _ => longestBranch) 1

/-- What `Delete` returns for a branch whose children are now `children`, `size` having been removed: a
    branch with one child left is merged with it. -/
def Node.afterRemove (n : BranchNode) (size : Int) (children : Fin 64 → Node) : Node :=
  match Trie.occupied children with
  | [] => .nil
  | [lastChildIndex] =>
    match children lastChildIndex with
    | .branch childBranch grandchildren =>
      let mergedPrefix := n.pfx ++ lastChildIndex :: childBranch.pfx
      .branch { childBranch with pfx := mergedPrefix, commitment := [] } grandchildren
    | lastChild => lastChild
  | _ => .branch { n with
      commitment := []
      size := n.size - size
      leafCount := countLeaves children
      longestBranch := countLongest children } children

/-- The recursion of `Delete`: the size that was removed, and the new node. -/
def Node.remove (key : Bytes) : Node → Nat → Except Fault (Int × Node)
  | .nil, _ => .ok (0, .nil)
  | .leaf n, _ => if n.key = key then .ok (n.size, .nil) else .ok (0, .leaf n)
  | .branch n children, depth =>
    match prefixMismatch key depth n.pfx 0 with
    | some _ => .ok (0, .branch n children)
    | none =>
      match getNextNibble key (depth + n.pfx.length * branchBits) with
      | none => .error .indexOutOfRange
      | some finalNibble => do
        let (size, child) ← Node.remove key (children finalNibble)
          (depth + n.pfx.length * branchBits + branchBits)
        .ok (size, Node.afterRemove n size (Function.update children finalNibble child))

/-! ### The tree -/

structure VectorCommitmentTree where
  root : Node

namespace VectorCommitmentTree

def empty : VectorCommitmentTree := ⟨.nil⟩

/-- A byte string as `%x` prints it. -/
def hex (b : Bytes) : String :=
  String.join (b.map fun x => String.ofList [Nat.digitChar (x.toNat / 16), Nat.digitChar (x.toNat % 16)])

/-- `Insert`: the tree and the returned error. -/
def insert (t : VectorCommitmentTree) (new : Item) : Except Fault (VectorCommitmentTree × Option String) :=
  if new.key = [] then .ok (t, some "empty key not allowed")
  else do
    let (_, root) ← Node.insert new t.root 0
    .ok (⟨root⟩, none)

/-- `Delete`: the tree and the returned error. -/
def delete (t : VectorCommitmentTree) (key : Bytes) : Except Fault (VectorCommitmentTree × Option String) :=
  if key = [] then .ok (t, some "empty key not allowed")
  else do
    let (_, root) ← Node.remove key t.root 0
    .ok (⟨root⟩, none)

def get (t : VectorCommitmentTree) (key : Bytes) : Except Fault (Except String Bytes) :=
  if key = [] then .ok (.error "empty key not allowed")
  else do
    match ← Node.get key t.root 0 with
    | none => .ok (.error ("key not found: 0x" ++ hex key))
    | some value => .ok (.ok value)

/-- `GetMetadata`: the leaf count and the longest branch. -/
def getMetadata (t : VectorCommitmentTree) : Int × Int :=
  match t.root with
  | .nil => (0, 0)
  | .leaf _ => (1, 0)
  | .branch root _ => (root.leafCount, root.longestBranch)

def getAllPreloadedLeaves (t : VectorCommitmentTree) : List LeafNode := t.root.leaves

def commit (sha512 : Digest 64) (prover : InclusionProver) (t : VectorCommitmentTree) (recalculate : Bool) :
    Bytes × VectorCommitmentTree :=
  match t.root with
  | .nil => (List.replicate 64 0, t)
  | root =>
    let (commitment, root) := Node.commit sha512 prover recalculate root
    (commitment, ⟨root⟩)

end VectorCommitmentTree

end Quilibrium
