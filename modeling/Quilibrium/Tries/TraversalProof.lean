import Quilibrium.Tries.ProofTree

/-! # Traversal proofs

`TraversalProof` of `types/tries`. `VerifyTreeTraversalProof` and `LazyVectorCommitmentTree.Verify` share their body. -/

namespace Quilibrium
open Radix

structure TraversalSubProof where
  commits : List Bytes
  ys : List Bytes
  paths : List (List UInt64)
  deriving DecidableEq, Repr

structure TraversalProof where
  multiproof : Multiproof
  subProofs : List TraversalSubProof
  deriving DecidableEq, Repr

/-! ### Wire format -/

/-- What reads from a `bytes.Buffer`: the unread bytes go in and out. The errors are those of
    `errors.Wrap(err, "from bytes")`. -/
abbrev Reader := StateT Bytes (Except String)

/-- `io.ReadFull` of `n` bytes, as `binary.Read` uses it. -/
def readFull (n : Nat) : Reader Bytes := fun buf =>
  if n ≤ buf.length then .ok (buf.take n, buf.drop n)
  else if buf = [] then .error "from bytes: EOF"
  else .error "from bytes: unexpected EOF"

/-- The number with big-endian digits `b`. -/
def natOfBE (b : Bytes) : Nat := b.foldl (fun m x => m * 256 + x.toNat) 0

def readUint32 : Reader Nat := do
  let b ← readFull 4
  return natOfBE b

def readUint64 : Reader UInt64 := do
  let b ← readFull 8
  return UInt64.ofNat (natOfBE b)

/-- `buf.Read` into a new slice of `n` bytes. It fills what the buffer holds and leaves zeros behind it; it
    fails only on an empty buffer. -/
def bufRead (n : Nat) : Reader Bytes := fun buf =>
  if buf = [] then
    if n = 0 then .ok ([], []) else .error "from bytes: EOF"
  else .ok (buf.take n ++ List.replicate (n - buf.length) 0, buf.drop n)

def readN {α : Type} (read : Reader α) : Nat → Reader (List α)
  | 0 => return []
  | count + 1 => do
    let a ← read
    let as ← readN read count
    return a :: as

def readList {α : Type} (read : Reader α) : Reader (List α) := do
  let count ← readUint32
  readN read count

def readBytes : Reader Bytes := do
  let len ← readUint32
  bufRead len

def readSubProof : Reader TraversalSubProof := do
  let commits ← readList readBytes
  let ys ← readList readBytes
  let paths ← readList (readList readUint64)
  return { commits, ys, paths }

def TraversalProof.fromBytes (prover : InclusionProver) (proofBytes : Bytes) : Except String TraversalProof := do
  let (multiproofBytes, buf) ← readBytes proofBytes
  let multiproof ← match prover.multiproofFromBytes multiproofBytes with
    | .ok multiproof => .ok multiproof
    | .error err => .error ("from bytes: " ++ err)
  let (subProofs, _) ← readList readSubProof buf
  if subProofs = [] then .error "from bytes: no subproofs found"
  else if subProofs.all (·.ys = []) then .error "from bytes: invalid payload: no ys data in any subproof"
  else .ok { multiproof, subProofs }

def writeBytes (b : Bytes) : Bytes := uint32BE b.length ++ b

def writeList {α : Type} (write : α → Bytes) (as : List α) : Bytes := uint32BE as.length ++ as.flatMap write

def TraversalSubProof.toBytes (p : TraversalSubProof) : Bytes :=
  writeList writeBytes p.commits ++ writeList writeBytes p.ys ++
    writeList (writeList fun i : UInt64 => uint64BE i.toNat) p.paths

def TraversalProof.toBytes (prover : InclusionProver) (proof : TraversalProof) : Except String Bytes :=
  match prover.multiproofToBytes proof.multiproof with
  | .error err => .error ("to bytes: " ++ err)
  | .ok multiproofBytes => .ok (writeBytes multiproofBytes ++ writeList TraversalSubProof.toBytes proof.subProofs)

/-! ### Proving -/

structure Walk where
  polynomials : List Bytes
  commits : List Bytes
  ys : List Bytes
  paths : List (List Nibble)
  deriving DecidableEq, Repr

namespace Walk

def empty : Walk := ⟨[], [], [], []⟩

def leaf (commitment target : Bytes) : Walk := ⟨[], [commitment], [target], []⟩

def branch (polynomial commitment y : Bytes) (path : List Nibble) (rest : Walk) : Walk where
  polynomials := polynomial :: rest.polynomials
  commits := commitment :: rest.commits
  ys := y :: rest.ys
  paths := path :: rest.paths

def subProof (w : Walk) : TraversalSubProof where
  commits := w.commits
  ys := w.ys
  paths := w.paths.map (·.map fun i => UInt64.ofNat i.val)

end Walk

/-- `p[len(p)-1]`. -/
def lastIndex (p : List UInt64) : Except Fault UInt64 :=
  match p.getLast? with
  | none => .error .indexOutOfRange
  | some i => .ok i

/-- `s[:len(s)-1]`. -/
def dropLast {α : Type} (s : List α) : Except Fault (List α) :=
  if s = [] then .error .indexOutOfRange else .ok s.dropLast

/-- `poly[i*64 : (i+1)*64]`. -/
def evaluation (poly : Bytes) (i : Nat) : Except Fault Bytes :=
  if poly.length < (i + 1) * 64 then .error .indexOutOfRange else .ok ((poly.drop (i * 64)).take 64)

structure Gathered where
  polynomials : List Bytes
  commitments : List Bytes
  indices : List UInt64
  subProofs : List TraversalSubProof

def Gathered.empty : Gathered := ⟨[], [], [], []⟩

def Gathered.add (g : Gathered) (w : Walk) : Except Fault Gathered := do
  let indices ← w.subProof.paths.mapM lastIndex
  let commitments ← dropLast w.commits
  .ok {
    polynomials := g.polynomials ++ w.polynomials
    commitments := g.commitments ++ commitments
    indices := g.indices ++ indices
    subProofs := g.subProofs ++ [w.subProof] }

def Gathered.proof (prover : InclusionProver) (g : Gathered) : TraversalProof where
  multiproof := prover.proveMultiple g.commitments g.polynomials g.indices 64
  subProofs := g.subProofs

section Prove
variable (sha512 : Digest 64) (prover : InclusionProver)

/-- The recursion of `Prove`, which also commits the nodes it visits. Every level reads a nibble of the key,
    so `fuel` above the number of nibbles is never used up. -/
def Node.prove (key : Bytes) : Nat → Node → Nat → Except Fault (Walk × Node)
  | 0, _, _ => .error .diverges
  | _ + 1, .nil, _ => .ok (.empty, .nil)
  | _ + 1, .leaf n, _ =>
    let (commitment, n) := n.commit sha512 false
    .ok (if n.key = key then .leaf commitment n.target else .empty, .leaf n)
  | fuel + 1, .branch n children, depth =>
    match prefixMismatch key depth n.pfx 0 with
    | some _ => .ok (.empty, .branch n children)
    | none => do
      let finalNibble := getNextNibble key (depth + n.pfx.length * branchBits)
      let (commitment, n, children) := n.commit sha512 prover false children
      let poly := getPolynomial sha512 children
      match finalNibble with
      | none => .error .indexOutOfRange
      | some finalNibble =>
        let y ← evaluation poly finalNibble
        let (rest, child) ← Node.prove key fuel (children finalNibble)
          (depth + n.pfx.length * branchBits + branchBits)
        .ok (.branch poly commitment y (n.pfx ++ [finalNibble]) rest,
          .branch n (Function.update children finalNibble child))

def keyFuel (key : Bytes) : Nat := (getFullPath key).length + 1

namespace VectorCommitmentTree

/-- `Prove`. A key that is not in the tree below a branch makes it panic. -/
def prove (t : VectorCommitmentTree) (key : Bytes) : Except Fault (Option TraversalProof × VectorCommitmentTree) :=
  if key = [] then .ok (none, t)
  else do
    let (walk, root) ← Node.prove sha512 prover key (keyFuel key) t.root 0
    let gathered ← Gathered.empty.add walk
    .ok (some (gathered.proof prover), ⟨root⟩)

def gather : List Bytes → Gathered → Node → Except Fault (Gathered × Node)
  | [], gathered, root => .ok (gathered, root)
  | key :: keys, gathered, root => do
    let (walk, root) ← Node.prove sha512 prover key (keyFuel key) root 0
    let gathered ← gathered.add walk
    gather keys gathered root

def proveMultiple (t : VectorCommitmentTree) (keys : List Bytes) :
    Except Fault (Option TraversalProof × VectorCommitmentTree) :=
  if keys.isEmpty || keys.any (·.isEmpty) then .ok (none, t)
  else do
    let (gathered, root) ← gather sha512 prover keys .empty t.root
    .ok (some (gathered.proof prover), ⟨root⟩)

end VectorCommitmentTree

end Prove

/-! ### Verification -/

/-- A call of `VerifyMultiple` and its answer. -/
structure MultipleCheck where
  commits : List Bytes
  ys : List Bytes
  indices : List UInt64
  valid : Bool
  deriving DecidableEq, Repr

/-- The answer of a verifier, with the calls of `VerifyMultiple` it made. -/
structure Verdict where
  accepted : Bool
  checks : List MultipleCheck
  deriving DecidableEq, Repr

def Verdict.rejected : Verdict := ⟨false, []⟩

def TraversalSubProof.wellSized (p : TraversalSubProof) : Bool :=
  p.commits.length ≠ 0 ∧ p.paths.length = p.commits.length - 1 ∧ p.ys.length = p.commits.length

/-- The checks that a verifier makes before it takes the root commitment. -/
def TraversalProof.wellSized (proof : TraversalProof) : Bool :=
  proof.multiproof.multicommitment.length ≠ 0 ∧ proof.multiproof.proof.length ≠ 0 ∧
    proof.subProofs.all (·.wellSized)

section Verify
variable (sha512 : Digest 64) (prover : InclusionProver)

/-- The value `out` that the evaluation of a branch is compared with: `commits[1]`, hashed with its prefix if
    it is the commitment of a branch. -/
def linkOut (commit : Bytes) (commits : List Bytes) (indices : List (List UInt64)) : Except Fault Bytes :=
  if commits = [] then .ok commit
  else match indices[1]? with
    | none => .error .indexOutOfRange
    | some index => do
      let pfx ← dropLast index
      .ok (hashBranch sha512 (pfx.map UInt64.toNat) commit)

/-- The recursion `verify(commits, indices, ys)`: each commitment after the first is the evaluation of the
    branch before it. -/
def verifyLinks : List Bytes → List (List UInt64) → List Bytes → Except Fault Bool
  | _ :: commit :: commits, indices, ys => do
    let out ← linkOut sha512 commit commits indices
    match ys, indices with
    | [], _ => .error .indexOutOfRange
    | y :: ys, indices =>
      if out ≠ y then .ok false
      else match indices with
        | [] => .error .indexOutOfRange
        | _ :: indices => verifyLinks (commit :: commits) indices ys
  | _, _, _ => .ok true

/-- The loop over the subproofs: `none` if one of them fails, else the commitments, evaluations and
    indices to check. -/
def collectOpenings : List TraversalSubProof → Except Fault (Option (List Bytes × List Bytes × List UInt64))
  | [] => .ok (some ([], [], []))
  | subProof :: subProofs =>
    if subProof.commits.length ≤ 1 then collectOpenings subProofs
    else do
      let indices ← subProof.paths.mapM lastIndex
      let commits ← dropLast subProof.commits
      let ys ← dropLast subProof.ys
      if !(← verifyLinks sha512 subProof.commits subProof.paths subProof.ys) then .ok none
      else match ← collectOpenings subProofs with
        | none => .ok none
        | some (commits', ys', indices') => .ok (some (commits ++ commits', ys ++ ys', indices ++ indices'))

/-- The rest of a verifier, for a proof of the right sizes. -/
def verifyAgainst (rootCommit : Bytes) (proof : TraversalProof) : Except Fault Verdict := do
  if !proof.subProofs.all (fun subProof => subProof.commits.head? = some rootCommit) then .ok .rejected
  else match ← collectOpenings sha512 proof.subProofs with
    | none => .ok .rejected
    | some (commits, ys, indices) =>
      if commits.length > 1 then
        let valid := prover.verifyMultiple commits ys indices 64 proof.multiproof.multicommitment proof.multiproof.proof
        .ok ⟨valid, [⟨commits, ys, indices, valid⟩]⟩
      else .ok ⟨true, []⟩

def verifyTreeTraversalProof (rootCommit : Bytes) (proof : TraversalProof) : Except Fault Verdict :=
  if !proof.wellSized then .ok .rejected
  else verifyAgainst sha512 prover rootCommit proof

end Verify

end Quilibrium
