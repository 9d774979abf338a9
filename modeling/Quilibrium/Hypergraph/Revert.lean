import Quilibrium.Hypergraph.Crdt

/-! # Change tracking and reverting

`TrackChange` and `RevertChanges` of `hypergraph/hypergraph.go`, and the vertex data of
`hypergraph/vertex_data.go`. -/

namespace Quilibrium
open Radix

namespace HypergraphCRDT

def write (hg : HypergraphCRDT) (txn : Txn) (writes : List Write) : HypergraphCRDT × Txn :=
  let (store, txn) := hg.store.applyIn txn writes
  ({ hg with store }, txn)

/-- A part of a call: the hypergraph, the transaction and the returned error. -/
abbrev Step := HypergraphCRDT → Txn → Except Fault (HypergraphCRDT × Txn × Option String)

def Step.andThen (first second : Step) : Step := fun hg txn => do
  match ← first hg txn with
  | (hg, txn, none) => second hg txn
  | (hg, txn, some err) => .ok (hg, txn, some err)

def Step.forEach {α : Type} (step : α → Step) : List α → Step
  | [] => fun hg txn => .ok (hg, txn, none)
  | a :: as => (step a).andThen (Step.forEach step as)

def trackChange (tree : TreeId) (key : Bytes) (oldValue : Option VectorCommitmentTree) (frameNumber : Nat) : Step :=
  fun hg txn =>
    let (hg, txn) := hg.write txn (Quilibrium.trackChange tree key oldValue frameNumber)
    .ok (hg, txn, none)

def untrackChange (tree : TreeId) (key : Bytes) (frameNumber : Nat) : Step := fun hg txn =>
  let (hg, txn) := hg.write txn (Quilibrium.untrackChange tree key frameNumber)
  .ok (hg, txn, none)

def setVertexData (id : Bytes) (data : VectorCommitmentTree) : Step := fun hg txn =>
  match txn with
  | none => .ok (hg, none, some "save vertex tree: requires transaction")
  | some batch => .ok (hg, some (batch ++ saveVertexTree id data), none)

/-- `Delete` from the tree of a set of the shard. A shard that was never used has no set. -/
def deleteInTree (sha3 : Digest 32) (tree : TreeId) (key : Bytes) : Step := fun hg txn =>
  match hg.sets tree.setType tree.phaseType tree.shardKey with
  | none => .error .nilDereference
  | some set => do
    let (t, store, txn, err) ← set.tree.delete sha3 hg.store txn key
    .ok ({ hg.putSet tree.setType tree.phaseType tree.shardKey { set with tree := t } with store }, txn, err)

def toAddress (b : Bytes) : Except Fault Address :=
  if h : 32 ≤ b.length then .ok ⟨b.take 32, by rw [List.length_take, Nat.min_eq_left h]⟩ else .error .indexOutOfRange

/-- `NewVertex` for the old value of a change; `FillBytes` panics later if its size does not fit. -/
def oldVertex (c : Crypto) (key : Bytes) (oldValue : VectorCommitmentTree) : Except Fault Vertex := do
  let appAddress ← toAddress (key.take 32)
  let dataAddress ← toAddress (key.drop 32)
  if h : oldValue.getSize.natAbs < 2 ^ 256 then
    .ok ⟨appAddress, dataAddress, (oldValue.commit c.sha512 c.prover false).1, oldValue.getSize, h⟩
  else .error .logPanic

def oldHyperedge (key : Bytes) (oldValue : VectorCommitmentTree) : Except Fault Hyperedge := do
  let appAddress ← toAddress (key.take 32)
  let dataAddress ← toAddress (key.drop 32)
  .ok ⟨appAddress, dataAddress, oldValue⟩

section
variable (c : Crypto)

/-- Puts the old value of a change into the adds set. -/
def restore (m : AtomType) (key : Bytes) (oldValue : VectorCommitmentTree) : Step := fun hg txn =>
  match m with
  | .vertex => do
    let v ← oldVertex c key oldValue
    hg.addVertex c txn v
  | .hyperedge => do
    let h ← oldHyperedge key oldValue
    let (hg, _, txn, err) ← hg.addHyperedge c txn h
    .ok (hg, txn, err)

/-- Reverts one change of the set and drops its record. -/
def revertChange (tree : TreeId) (change : ChangeRecord) : Step :=
  Step.andThen
    (match tree.phaseType, change.oldValue with
      | .adds, some oldValue => restore c tree.setType change.key oldValue
      | _, _ => deleteInTree c.sha3 tree change.key)
    (untrackChange tree change.key change.frame)

def revertOrder (shardKey : ShardKey) : List TreeId :=
  [⟨.hyperedge, .removes, shardKey⟩, ⟨.vertex, .removes, shardKey⟩, ⟨.hyperedge, .adds, shardKey⟩,
    ⟨.vertex, .adds, shardKey⟩]

/-- The changes of a frame, in the order in which they are reverted. -/
def changesOf (shardKey : ShardKey) (changes : TreeId → List ChangeRecord) (frame : Nat) : List (TreeId × ChangeRecord) :=
  (revertOrder shardKey).flatMap fun tree => ((changes tree).filter (·.frame = frame)).map (tree, ·)

def framesDown (frameStart frameEnd : Nat) : List Nat :=
  ((List.range (frameEnd + 1 - frameStart)).map (frameStart + ·)).reverse

/-- The loop of `RevertChanges` over the frames and the changes of each. -/
def revertLoop (shardKey : ShardKey) (changes : TreeId → List ChangeRecord) (frames : List Nat) : Step :=
  Step.forEach (fun x : TreeId × ChangeRecord => revertChange c x.1 x.2) (frames.flatMap (changesOf shardKey changes))

def shardChanges (db : Db) (shardKey : ShardKey) (frameStart frameEnd : Nat) :
    Except Fault (Except String (TreeId → List ChangeRecord)) := do
  match ← getChanges db ⟨.vertex, .adds, shardKey⟩ frameStart frameEnd with
  | .error err => .ok (.error err)
  | .ok vertexAdds =>
    match ← getChanges db ⟨.vertex, .removes, shardKey⟩ frameStart frameEnd with
    | .error err => .ok (.error err)
    | .ok vertexRemoves =>
      match ← getChanges db ⟨.hyperedge, .adds, shardKey⟩ frameStart frameEnd with
      | .error err => .ok (.error err)
      | .ok hyperedgeAdds =>
        match ← getChanges db ⟨.hyperedge, .removes, shardKey⟩ frameStart frameEnd with
        | .error err => .ok (.error err)
        | .ok hyperedgeRemoves =>
          .ok (.ok fun tree =>
            match tree.setType, tree.phaseType with
            | .vertex, .adds => vertexAdds
            | .vertex, .removes => vertexRemoves
            | .hyperedge, .adds => hyperedgeAdds
            | .hyperedge, .removes => hyperedgeRemoves)

/-- `RevertChanges`. The genesis frame is not reverted. -/
def revertChanges (frameStart frameEnd : Nat) (shardKey : ShardKey) : Step := fun hg txn => do
  let frameStart := if frameStart = 0 then 1 else frameStart
  match ← shardChanges hg.store shardKey frameStart frameEnd with
  | .error err => .ok (hg, txn, wrap "revert changes" (some err))
  | .ok changes =>
    let (hg, txn, err) ← revertLoop c shardKey changes (framesDown frameStart frameEnd) hg txn
    .ok (hg, txn, wrap "revert changes" err)

end

/-- `GetVertexData`. Data of a removed vertex may still be in the store, so the removes set is asked first. -/
def getVertexData (c : Crypto) (hg : HypergraphCRDT) (appAddress dataAddress : Address) :
    HypergraphCRDT × Except String VectorCommitmentTree :=
  let (hg, _, removeSet) := hg.getOrCreateIdSet .vertex (shardKeyOf c.shake appAddress) .vertex hg.coveredPrefix
  if removeSet.has hg.store (atomId appAddress dataAddress) then (hg, .error ("get vertex data: " ++ ErrRemoved))
  else (hg, loadVertexTree hg.store (atomId appAddress dataAddress))

end HypergraphCRDT

end Quilibrium
