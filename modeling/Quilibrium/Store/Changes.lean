import Quilibrium.Store.Hypergraph
import Quilibrium.Tries.Serialize

/-! # Change records and vertex data

`TrackChange`, `GetChanges`, `UntrackChange`, `SaveVertexTree`, `LoadVertexTree` and `GetVertexDataIterator` of
`node/store/hypergraph.go`. -/

namespace Quilibrium

def VERTEX_DATA : UInt8 := 0xF0
def VERTEX_ADDS_CHANGE_RECORD : UInt8 := 0x42
def VERTEX_REMOVES_CHANGE_RECORD : UInt8 := 0x52
def HYPEREDGE_ADDS_CHANGE_RECORD : UInt8 := 0x43
def HYPEREDGE_REMOVES_CHANGE_RECORD : UInt8 := 0x53

def hypergraphVertexDataKey (id : Bytes) : Bytes := HYPERGRAPH_SHARD :: VERTEX_DATA :: id

def TreeId.changeType (tree : TreeId) : UInt8 :=
  match tree.setType, tree.phaseType with
  | .vertex, .adds => VERTEX_ADDS_CHANGE_RECORD
  | .vertex, .removes => VERTEX_REMOVES_CHANGE_RECORD
  | .hyperedge, .adds => HYPEREDGE_ADDS_CHANGE_RECORD
  | .hyperedge, .removes => HYPEREDGE_REMOVES_CHANGE_RECORD

def hypergraphChangeRecordKey (tree : TreeId) (frameNumber : Nat) (key : Bytes) : Bytes :=
  shardRecordKey tree.changeType tree.shardKey (uint64BE frameNumber ++ key)

/-- The writes of `TrackChange`. No old value is stored as no bytes. -/
def trackChange (tree : TreeId) (key : Bytes) (oldValue : Option VectorCommitmentTree) (frameNumber : Nat) :
    List Write :=
  [.set (hypergraphChangeRecordKey tree frameNumber key) (.data ((oldValue.map serializeNonLazyTree).getD []))]

def untrackChange (tree : TreeId) (key : Bytes) (frameNumber : Nat) : List Write :=
  [.delete (hypergraphChangeRecordKey tree frameNumber key)]

structure ChangeRecord where
  key : Bytes
  oldValue : Option VectorCommitmentTree
  frame : Nat

def changeRecord (entry : Bytes × Value) : Except Fault (Except String ChangeRecord) :=
  let offset := 2 + 3 + 32
  if entry.1.length < offset + 8 then .error .indexOutOfRange
  else
    let frame := natOfBE ((entry.1.drop offset).take 8)
    let key := entry.1.drop (offset + 8)
    match entry.2 with
    | .data [] => .ok (.ok { key, oldValue := none, frame })
    | .data value =>
      match deserializeNonLazyTree value with
      | .ok tree => .ok (.ok { key, oldValue := some tree, frame })
      | .error err => .ok (.error ("get changes: " ++ err))
    | _ => .error .logPanic

def changeRecords : List (Bytes × Value) → Except Fault (Except String (List ChangeRecord))
  | [] => .ok (.ok [])
  | entry :: entries => do
    match ← changeRecord entry with
    | .error err => .ok (.error err)
    | .ok change =>
      match ← changeRecords entries with
      | .error err => .ok (.error err)
      | .ok changes => .ok (.ok (change :: changes))

/-- `GetChanges`: the records of the frames, the last one first. -/
def getChanges (db : Db) (tree : TreeId) (frameStart frameEnd : Nat) :
    Except Fault (Except String (List ChangeRecord)) := do
  let startKey := hypergraphChangeRecordKey tree frameStart []
  let endKey := hypergraphChangeRecordKey tree ((frameEnd + 1) % 2 ^ 64) []
  match ← changeRecords (OrdMap.range db startKey endKey) with
  | .error err => .ok (.error err)
  | .ok changes => .ok (.ok changes.reverse)

/-- The writes of `SaveVertexTree`, which needs a transaction. -/
def saveVertexTree (id : Bytes) (vertTree : VectorCommitmentTree) : List Write :=
  [.set (hypergraphVertexDataKey id) (.data (serializeNonLazyTree vertTree))]

def loadVertexTree (db : Db) (id : Bytes) : Except String VectorCommitmentTree :=
  match db.get (hypergraphVertexDataKey id) with
  | none => .error "load vertex data: pebble: not found"
  | some (.data vertexData) =>
    match deserializeNonLazyTree vertexData with
    | .ok tree => .ok tree
    | .error err => .error ("load vertex data: " ++ err)
  | some _ => .error "load vertex data: failed to deserialize tree"

/-- The end of the iteration: the next number, in as many bytes. -/
def vertexDataEnd (keyPrefix : Bytes) : Bytes :=
  let next := bigIntBytes (natOfBE keyPrefix + 1)
  List.replicate (keyPrefix.length - next.length) 0 ++ next

/-- `PebbleVertexDataIterator.Value` at an entry. The vertex is looked up among the removed ones by the key of the entry. -/
def vertexDataValue (db : Db) (shardKey : ShardKey) (key : Bytes) : Value → Option VectorCommitmentTree
  | .data value =>
    if value.isEmpty || (db.get (hypergraphVertexRemovesTreeNodeKey shardKey key)).isSome then none
    else (deserializeNonLazyTree value).toOption
  | _ => none

/-- The entries of `GetVertexDataIterator`, each as its `Key` and `Value`. -/
def vertexDataIterator (db : Db) (shardKey : ShardKey) : List (Bytes × Option VectorCommitmentTree) :=
  let keyPrefix := hypergraphVertexDataKey shardKey.l2
  (OrdMap.range db keyPrefix (vertexDataEnd keyPrefix)).map fun e => (e.1.drop 2, vertexDataValue db shardKey e.1 e.2)

end Quilibrium
