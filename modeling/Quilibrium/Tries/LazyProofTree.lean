import Quilibrium.Store.Hypergraph
import Quilibrium.Tries.TraversalProof

/-! # The store-backed vector commitment tree

`LazyVectorCommitmentTree` of `types/tries/lazy_proof_tree.go`. The store may supply nodes, so the recursion takes fuel.
In `Insert` and `Delete` all reads of the store come before the first write, so they return their writes. -/

namespace Quilibrium
open Radix

/-- `generateKeyFromPath`: the store key of the branch with this full prefix. -/
def generateKeyFromPath (sha3 : Digest 32) (path : List Nibble) : Bytes :=
  sha3.sum (path.map fun p => UInt8.ofNat p.val)

structure LazyVectorCommitmentTree where
  root : LazyNode
  tree : TreeId
  coveredPrefix : List Nibble

/-! ### Insertion -/

def lazyLongestAfterInsert (n : LazyBranchNode) (inserted : LazyNode) : Int :=
  match inserted with
  | .branch i _ => if n.longestBranch ≤ i.longestBranch then i.longestBranch + 1 else n.longestBranch
  | .leaf _ => 1
  | .nil => n.longestBranch

section Insert
variable (sha3 : Digest 32) (db : Db) (tree : TreeId) (new : Item) (sizeDelta : Int)

/-- The recursion of `Insert`: how many leaves were added, the new node and the writes. -/
def LazyNode.insert : Nat → LazyNode → Nat → List Nibble → Except Fault (Int × LazyNode × List Write)
  | 0, _, _, _ => .error .diverges
  | fuel + 1, node, depth, path => do
    let newLeaf : LeafNode := { new with commitment := [] }
    let node ← loadSlot db tree path node
    match node with
    | .nil => .ok (1, .leaf newLeaf, insertNode tree new.key (getFullPath new.key) (.leaf newLeaf))
    | .leaf n =>
      if n.key = new.key then
        let n : LeafNode := { new with key := n.key, commitment := [] }
        .ok (0, .leaf n, insertNode tree new.key (getFullPath new.key) (.leaf n))
      else do
        let (sharedNibbles, divergeDepth) ← getNibblesUntilDiverge n.key new.key depth
        let branch : LazyBranchNode := {
          pfx := sharedNibbles
          commitment := []
          size := n.size + sizeDelta
          leafCount := 2
          longestBranch := 1
          fullPrefix := path ++ sharedNibbles
          fullyLoaded := true }
        let children ← setChild (fun _ => .nil) (getNextNibble n.key divergeDepth) (.leaf n)
        let children ← setChild children (getNextNibble new.key divergeDepth) (.leaf newLeaf)
        .ok (1, .branch branch children,
          insertNode tree new.key (getFullPath new.key) (.leaf newLeaf) ++
            insertNode tree (generateKeyFromPath sha3 branch.fullPrefix) branch.fullPrefix (.branch branch children))
    | .branch n children => do
      let children ← loadSlots db tree n.fullPrefix n.fullyLoaded children
      let n := { n with fullyLoaded := true }
      match prefixMismatch new.key depth n.pfx 0 with
      | some (i, expectedNibble, actualNibble) => do
        let newBranch : LazyBranchNode := {
          pfx := n.pfx.take i
          commitment := []
          size := n.size + sizeDelta
          leafCount := n.leafCount + 1
          longestBranch := n.longestBranch + 1
          fullPrefix := path ++ n.pfx.take i
          fullyLoaded := true }
        let deletes := deleteNode tree (generateKeyFromPath sha3 n.fullPrefix) n.fullPrefix
        match actualNibble with
        | none => .error .indexOutOfRange
        | some actualNibble =>
          let rest := n.pfx.drop (i + 1)
          let n := { n with pfx := rest, fullPrefix := path ++ newBranch.pfx ++ [expectedNibble] ++ rest }
          let slots := Function.update (Function.update (fun _ => .nil) expectedNibble (.branch n children))
            actualNibble (.leaf newLeaf)
          .ok (1, .branch newBranch slots,
            deletes ++ insertNode tree new.key (path ++ newBranch.pfx ++ [actualNibble]) (.leaf newLeaf) ++
              insertNode tree (generateKeyFromPath sha3 n.fullPrefix) n.fullPrefix (.branch n children) ++
              insertNode tree (generateKeyFromPath sha3 newBranch.fullPrefix) newBranch.fullPrefix
                (.branch newBranch slots))
      | none =>
        match getNextNibble new.key (depth + n.pfx.length * branchBits) with
        | none => .error .indexOutOfRange
        | some finalNibble => do
          let (delta, inserted, writes) ← LazyNode.insert fuel (children finalNibble)
            (depth + n.pfx.length * branchBits + branchBits) (n.fullPrefix ++ [finalNibble])
          let n := { n with
            commitment := []
            size := n.size + sizeDelta
            leafCount := n.leafCount + delta
            longestBranch := lazyLongestAfterInsert n inserted }
          let children := Function.update children finalNibble inserted
          .ok (delta, .branch n children,
            writes ++ insertNode tree (generateKeyFromPath sha3 n.fullPrefix) n.fullPrefix (.branch n children))

end Insert

namespace LazyVectorCommitmentTree

def isPathWithinCoveredPrefix (t : LazyVectorCommitmentTree) (path : List Nibble) : Bool :=
  t.coveredPrefix.isPrefixOf path

/-- `Insert` with a transaction or none: the tree, the database, the transaction and the returned error.
    The root is saved in the database in either case. -/
def insert (sha3 : Digest 32) (t : LazyVectorCommitmentTree) (db : Db) (txn : Option (List Write)) (new : Item) :
    Except Fault (LazyVectorCommitmentTree × Db × Option (List Write) × Option String) :=
  if new.key = [] then .ok (t, db, txn, some "empty key not allowed")
  else match getNodeByKey db t.tree new.key with
    | .ok (.branch _ _) => .ok (t, db, txn, some "value is branch")
    | found =>
      let sizeDelta : Int := match found with
        | .ok (.leaf leaf) => new.size - leaf.size
        | _ => new.size
      if !t.isPathWithinCoveredPrefix (getFullPath new.key) then
        .ok (t, db, txn, some "key is outside covered prefix range")
      else do
        let (_, root, writes) ← LazyNode.insert sha3 db t.tree new sizeDelta (keyFuel new.key) t.root 0 []
        let (db, txn) := db.applyIn txn writes
        .ok ({ t with root }, db.apply (saveRoot t.tree root), txn, none)

end LazyVectorCommitmentTree

/-! ### Commitments -/

def lazyVectorEntry (sha512 : Digest 64) (child : LazyNode) (out : Bytes) : Bytes :=
  match child with
  | .nil => List.replicate 64 0
  | .leaf _ => out
  | .branch c _ => hashBranch sha512 (c.pfx.map Fin.val) out

section Commit
variable (sha3 : Digest 32) (sha512 : Digest 64) (prover : InclusionProver) (tree : TreeId) (recalculate : Bool)

/-- `Commit` of a leaf, which is filed under `path` when its commitment is computed. -/
def lazyLeafCommit (path : List Nibble) (n : LeafNode) (db : Db) : Bytes × LeafNode × Db :=
  if n.commitment = [] ∨ recalculate then
    let n := { n with commitment := n.toItem.hash sha512 }
    (n.commitment, n, db.apply (insertNode tree n.key path (.leaf n)))
  else (n.commitment, n, db)

/-- The work of `commitNode` for one slot, whose entry is appended to the vector. A child that is read from
    the store is committed there and stays unloaded. -/
def commitSlot (fullPrefix : List Nibble) (commitNode : LazyNode → Db → Except Fault (Bytes × LazyNode × Db)) :
    Bytes × (Fin 64 → LazyNode) × Db → Nibble → Except Fault (Bytes × (Fin 64 → LazyNode) × Db)
  | (data, children, db), i => do
    let child ← loadSlot db tree (fullPrefix ++ [i]) (children i)
    if child.isNil then .ok (data ++ lazyVectorEntry sha512 child [], children, db)
    else do
      let (out, committed, db) ← commitNode child db
      let children := if (children i).isNil then children else Function.update children i committed
      .ok (data ++ lazyVectorEntry sha512 child out, children, db)

/-- `commitNode`, without a transaction. The slots are committed one after another. -/
def LazyNode.commitNode : Nat → LazyNode → Db → Except Fault (Bytes × LazyNode × Db)
  | 0, _, _ => .error .diverges
  | _ + 1, .nil, db => .ok ([], .nil, db)
  | _ + 1, .leaf n, db =>
    let (commitment, n, db) := lazyLeafCommit sha512 tree recalculate (getFullPath n.key) n db
    .ok (commitment, .leaf n, db)
  | fuel + 1, .branch n children, db =>
    if n.commitment ≠ [] ∧ !recalculate then .ok (n.commitment, .branch n children, db)
    else do
      let (data, children, db) ← (List.finRange 64).foldlM
        (commitSlot sha512 tree n.fullPrefix (LazyNode.commitNode fuel)) (([] : Bytes), children, db)
      let n := { n with commitment := prover.commitRaw data 64 }
      let node := Trie.branch n children
      .ok (n.commitment, node, db.apply (insertNode tree (generateKeyFromPath sha3 n.fullPrefix) n.fullPrefix node))

def LazyNode.commit (fuel : Nat) (node : LazyNode) (db : Db) : Except Fault (Bytes × LazyNode × Db) :=
  match node with
  | .nil => .error .nilDereference
  | .leaf n =>
    let (commitment, n, db) := lazyLeafCommit sha512 tree recalculate [] n db
    .ok (commitment, .leaf n, db)
  | node => LazyNode.commitNode sha3 sha512 prover tree recalculate fuel node db

end Commit

/-- `Commit`: the root commitment, and the tree and database with what was computed. -/
def LazyVectorCommitmentTree.commit (sha3 : Digest 32) (sha512 : Digest 64) (prover : InclusionProver) (fuel : Nat)
    (t : LazyVectorCommitmentTree) (db : Db) (recalculate : Bool) :
    Except Fault (Bytes × LazyVectorCommitmentTree × Db) :=
  if t.root.isNil then .ok (List.replicate 64 0, t, db)
  else do
    let (commitment, root, db) ← LazyNode.commit sha3 sha512 prover t.tree recalculate fuel t.root db
    .ok (commitment, { t with root }, db.apply (saveRoot t.tree root))

def getAllLeaves (db : Db) (tree : TreeId) : Nat → LazyNode → Except Fault (List LeafNode)
  | 0, _ => .error .diverges
  | _ + 1, .nil => .ok []
  | _ + 1, .leaf n => .ok [n]
  | fuel + 1, .branch n children =>
    (List.finRange 64).foldlM (fun leaves i => do
      let child ← loadSlot db tree (n.fullPrefix ++ [i]) (children i)
      let childLeaves ← getAllLeaves db tree fuel child
      .ok (leaves ++ childLeaves)) []

/-! ### Deletion -/

def lazyCountLeaves (children : Fin 64 → LazyNode) : Int :=
  (List.finRange 64).foldl (fun leaves i =>
    match children i with
    | .nil => leaves
    | .leaf _ => leaves + 1
    | .branch c _ => leaves + c.leafCount) 0

def lazyCountLongest (children : Fin 64 → LazyNode) : Int :=
  (List.finRange 64).foldl (fun longestBranch i =>
    match children i with
    | .branch c _ => if longestBranch < c.longestBranch + 1 then c.longestBranch + 1 else longestBranch
    | _ => longestBranch) 1

section Delete
variable (sha3 : Digest 32) (db : Db) (tree : TreeId) (key : Bytes)

/-- What `Delete` returns and writes for a branch whose children are now `children`, `size` having been
    removed: a branch with one child left is merged with it. -/
def LazyNode.afterRemove (n : LazyBranchNode) (size : Int) (children : Fin 64 → LazyNode) : LazyNode × List Write :=
  match Trie.occupied children with
  | [] => (.nil, deleteNode tree (generateKeyFromPath sha3 n.fullPrefix) n.fullPrefix)
  | [lastChildIndex] =>
    match children lastChildIndex with
    | .branch childBranch grandchildren =>
      let mergedPrefix := n.pfx ++ lastChildIndex :: childBranch.pfx
      let childBranch := { childBranch with pfx := mergedPrefix, commitment := [] }
      (.branch childBranch grandchildren,
        deleteNode tree (generateKeyFromPath sha3 n.fullPrefix) n.fullPrefix ++
          insertNode tree (generateKeyFromPath sha3 childBranch.fullPrefix) childBranch.fullPrefix
            (.branch childBranch grandchildren))
    | lastChild => (lastChild, deleteNode tree (generateKeyFromPath sha3 n.fullPrefix) n.fullPrefix)
  | _ =>
    let n := { n with
      commitment := []
      size := n.size - size
      leafCount := lazyCountLeaves children
      longestBranch := lazyCountLongest children }
    (.branch n children, insertNode tree (generateKeyFromPath sha3 n.fullPrefix) n.fullPrefix (.branch n children))

/-- The recursion of `Delete`: the size that was removed, the new node and the writes. The slots of a
    branch that is not fully loaded are read at `path`, not at its full prefix. -/
def LazyNode.remove : Nat → LazyNode → Nat → List Nibble → Except Fault (Int × LazyNode × List Write)
  | 0, _, _, _ => .error .diverges
  | fuel + 1, node, depth, path => do
    let node ← loadSlot db tree path node
    match node with
    | .nil => .ok (0, .nil, [])
    | .leaf n =>
      if n.key = key then .ok (n.size, .nil, deleteNode tree key (getFullPath key))
      else .ok (0, .leaf n, [])
    | .branch n children => do
      let children ← loadSlots db tree path n.fullyLoaded children
      let n := { n with fullyLoaded := true }
      match prefixMismatch key depth n.pfx 0 with
      | some _ => .ok (0, .branch n children, [])
      | none =>
        match getNextNibble key (depth + n.pfx.length * branchBits) with
        | none => .error .indexOutOfRange
        | some finalNibble => do
          let (size, child, writes) ← LazyNode.remove fuel (children finalNibble)
            (depth + n.pfx.length * branchBits + branchBits) (path ++ n.pfx ++ [finalNibble])
          let (node, writes') := LazyNode.afterRemove sha3 tree n size (Function.update children finalNibble child)
          .ok (size, node, writes ++ writes')

end Delete

/-- `Delete` with a transaction or none: the tree, the database, the transaction and the returned error. -/
def LazyVectorCommitmentTree.delete (sha3 : Digest 32) (t : LazyVectorCommitmentTree) (db : Db)
    (txn : Option (List Write)) (key : Bytes) :
    Except Fault (LazyVectorCommitmentTree × Db × Option (List Write) × Option String) :=
  if key = [] then .ok (t, db, txn, some "empty key not allowed")
  else do
    let (_, root, writes) ← LazyNode.remove sha3 db t.tree key (keyFuel key) t.root 0 []
    let (db, txn) := db.applyIn txn writes
    .ok ({ t with root }, db.apply (saveRoot t.tree root), txn, none)

/-! ### Proofs -/

def LazyNode.commitment : LazyNode → Bytes
  | .nil => []
  | .leaf n => n.commitment
  | .branch n _ => n.commitment

/-- `GetPolynomial`: the vector a branch commits to, with the slots that are not loaded read from the
    store. -/
def lazyGetPolynomial (sha512 : Digest 64) (db : Db) (tree : TreeId) (n : LazyBranchNode)
    (children : Fin 64 → LazyNode) : Except Fault Bytes :=
  (List.finRange 64).foldlM (fun data i => do
    let child ← loadSlot db tree (n.fullPrefix ++ [i]) (children i)
    .ok (data ++ lazyVectorEntry sha512 child (LazyNode.commitment child))) []

section Prove
variable (sha3 : Digest 32) (sha512 : Digest 64) (prover : InclusionProver) (tree : TreeId) (commitFuel : Nat)

/-- The recursion of `Prove`. It continues in the slot of the final nibble as that is in memory. -/
def LazyNode.prove (key : Bytes) : Nat → LazyNode → Nat → Db → Except Fault (Walk × LazyNode × Db)
  | 0, _, _, _ => .error .diverges
  | _ + 1, .nil, _, db => .ok (.empty, .nil, db)
  | _ + 1, .leaf n, _, db =>
    let (commitment, n, db) := lazyLeafCommit sha512 tree false (getFullPath n.key) n db
    .ok (if n.key = key then .leaf commitment n.target else .empty, .leaf n, db)
  | fuel + 1, .branch n children, depth, db =>
    match prefixMismatch key depth n.pfx 0 with
    | some _ => .ok (.empty, .branch n children, db)
    | none => do
      let finalNibble := getNextNibble key (depth + n.pfx.length * branchBits)
      match ← LazyNode.commitNode sha3 sha512 prover tree false commitFuel (.branch n children) db with
      | (commitment, .branch n children, db) => do
        let poly ← lazyGetPolynomial sha512 db tree n children
        match finalNibble with
        | none => .error .indexOutOfRange
        | some finalNibble => do
          let y ← evaluation poly finalNibble
          let (rest, child, db) ← LazyNode.prove key fuel (children finalNibble)
            (depth + n.pfx.length * branchBits + branchBits) db
          .ok (.branch poly commitment y (n.pfx ++ [finalNibble]) rest,
            .branch n (Function.update children finalNibble child), db)
      | (_, node, db) => .ok (.empty, node, db)

namespace LazyVectorCommitmentTree

/-- `Prove`: a key of which nothing is found has no proof. -/
def prove (t : LazyVectorCommitmentTree) (db : Db) (key : Bytes) :
    Except Fault (Option TraversalProof × LazyVectorCommitmentTree × Db) :=
  if key = [] then .ok (none, t, db)
  else do
    let (walk, root, db) ← LazyNode.prove sha3 sha512 prover t.tree commitFuel key (keyFuel key) t.root 0 db
    let indices ← walk.subProof.paths.mapM lastIndex
    if walk.commits = [] then .ok (none, { t with root }, db)
    else
      let multiproof := prover.proveMultiple walk.commits.dropLast walk.polynomials indices 64
      .ok (some { multiproof, subProofs := [walk.subProof] }, { t with root }, db)

def gather (tree : TreeId) : List Bytes → Gathered → LazyNode → Db → Except Fault (Gathered × LazyNode × Db)
  | [], gathered, root, db => .ok (gathered, root, db)
  | key :: keys, gathered, root, db => do
    let (walk, root, db) ← LazyNode.prove sha3 sha512 prover tree commitFuel key (keyFuel key) root 0 db
    let gathered ← gathered.add walk
    gather tree keys gathered root db

def proveMultiple (t : LazyVectorCommitmentTree) (db : Db) (keys : List Bytes) :
    Except Fault (Option TraversalProof × LazyVectorCommitmentTree × Db) :=
  if keys.isEmpty || keys.any (·.isEmpty) then .ok (none, t, db)
  else do
    let r ← gather sha3 sha512 prover commitFuel t.tree keys .empty t.root db
    .ok (some (r.1.proof prover), { t with root := r.2.1 }, r.2.2)

def verify (t : LazyVectorCommitmentTree) (db : Db) (proof : TraversalProof) :
    Except Fault (Verdict × LazyVectorCommitmentTree × Db) :=
  if !proof.wellSized then .ok (.rejected, t, db)
  else do
    let (rootCommit, root, db) ← LazyNode.commit sha3 sha512 prover t.tree false commitFuel t.root db
    let verdict ← verifyAgainst sha512 prover rootCommit proof
    .ok (verdict, { t with root }, db)

end LazyVectorCommitmentTree

end Prove

end Quilibrium
