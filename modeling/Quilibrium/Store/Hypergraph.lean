import Quilibrium.Lib.ByteOrder
import Quilibrium.Lib.OrdMap
import Quilibrium.Tries.LazyNode

/-! # The node store

`PebbleHypergraphStore` of `node/store/hypergraph.go`, over an ordered map from byte strings to decoded values. A write goes
to the database or to the batch of a transaction; reads see the database alone. -/

namespace Quilibrium
open Radix

/-! ### Keys -/

def HYPERGRAPH_SHARD : UInt8 := 0x09
def VERTEX_ADDS_TREE_NODE : UInt8 := 0x02
def VERTEX_REMOVES_TREE_NODE : UInt8 := 0x12
def HYPEREDGE_ADDS_TREE_NODE : UInt8 := 0x03
def HYPEREDGE_REMOVES_TREE_NODE : UInt8 := 0x13
def VERTEX_ADDS_TREE_NODE_BY_PATH : UInt8 := 0x22
def VERTEX_REMOVES_TREE_NODE_BY_PATH : UInt8 := 0x32
def HYPEREDGE_ADDS_TREE_NODE_BY_PATH : UInt8 := 0x23
def HYPEREDGE_REMOVES_TREE_NODE_BY_PATH : UInt8 := 0x33
def VERTEX_ADDS_TREE_ROOT : UInt8 := 0xFC
def VERTEX_REMOVES_TREE_ROOT : UInt8 := 0xFD
def HYPEREDGE_ADDS_TREE_ROOT : UInt8 := 0xFE
def HYPEREDGE_REMOVES_TREE_ROOT : UInt8 := 0xFF

/-- A key of a shard: the tag, both parts of the shard key, and the rest. -/
def shardRecordKey (tag : UInt8) (shardKey : ShardKey) (rest : Bytes) : Bytes :=
  HYPERGRAPH_SHARD :: tag :: (shardKey.l1 ++ shardKey.l2 ++ rest)

/-- A path in a key: eight bytes for each nibble. -/
def pathBytes (path : List Nibble) : Bytes := path.flatMap fun p => uint64BE p.val

def hypergraphVertexAddsTreeNodeKey (shardKey : ShardKey) (nodeKey : Bytes) : Bytes :=
  shardRecordKey VERTEX_ADDS_TREE_NODE shardKey nodeKey
def hypergraphVertexRemovesTreeNodeKey (shardKey : ShardKey) (nodeKey : Bytes) : Bytes :=
  shardRecordKey VERTEX_REMOVES_TREE_NODE shardKey nodeKey
def hypergraphHyperedgeAddsTreeNodeKey (shardKey : ShardKey) (nodeKey : Bytes) : Bytes :=
  shardRecordKey HYPEREDGE_ADDS_TREE_NODE shardKey nodeKey
def hypergraphHyperedgeRemovesTreeNodeKey (shardKey : ShardKey) (nodeKey : Bytes) : Bytes :=
  shardRecordKey HYPEREDGE_REMOVES_TREE_NODE shardKey nodeKey

def hypergraphVertexAddsTreeNodeByPathKey (shardKey : ShardKey) (path : List Nibble) : Bytes :=
  shardRecordKey VERTEX_ADDS_TREE_NODE_BY_PATH shardKey (pathBytes path)
def hypergraphVertexRemovesTreeNodeByPathKey (shardKey : ShardKey) (path : List Nibble) : Bytes :=
  shardRecordKey VERTEX_REMOVES_TREE_NODE_BY_PATH shardKey (pathBytes path)
def hypergraphHyperedgeAddsTreeNodeByPathKey (shardKey : ShardKey) (path : List Nibble) : Bytes :=
  shardRecordKey HYPEREDGE_ADDS_TREE_NODE_BY_PATH shardKey (pathBytes path)
def hypergraphHyperedgeRemovesTreeNodeByPathKey (shardKey : ShardKey) (path : List Nibble) : Bytes :=
  shardRecordKey HYPEREDGE_REMOVES_TREE_NODE_BY_PATH shardKey (pathBytes path)

def hypergraphVertexAddsTreeRootKey (shardKey : ShardKey) : Bytes :=
  shardRecordKey VERTEX_ADDS_TREE_ROOT shardKey []
def hypergraphVertexRemovesTreeRootKey (shardKey : ShardKey) : Bytes :=
  shardRecordKey VERTEX_REMOVES_TREE_ROOT shardKey []
def hypergraphHyperedgeAddsTreeRootKey (shardKey : ShardKey) : Bytes :=
  shardRecordKey HYPEREDGE_ADDS_TREE_ROOT shardKey []
def hypergraphHyperedgeRemovesTreeRootKey (shardKey : ShardKey) : Bytes :=
  shardRecordKey HYPEREDGE_REMOVES_TREE_ROOT shardKey []

/-- The `keyFn` of a tree. -/
def TreeId.nodeKey (tree : TreeId) : Bytes → Bytes :=
  match tree.setType, tree.phaseType with
  | .vertex, .adds => hypergraphVertexAddsTreeNodeKey tree.shardKey
  | .vertex, .removes => hypergraphVertexRemovesTreeNodeKey tree.shardKey
  | .hyperedge, .adds => hypergraphHyperedgeAddsTreeNodeKey tree.shardKey
  | .hyperedge, .removes => hypergraphHyperedgeRemovesTreeNodeKey tree.shardKey

/-- The `pathFn` of a tree. -/
def TreeId.pathKey (tree : TreeId) : List Nibble → Bytes :=
  match tree.setType, tree.phaseType with
  | .vertex, .adds => hypergraphVertexAddsTreeNodeByPathKey tree.shardKey
  | .vertex, .removes => hypergraphVertexRemovesTreeNodeByPathKey tree.shardKey
  | .hyperedge, .adds => hypergraphHyperedgeAddsTreeNodeByPathKey tree.shardKey
  | .hyperedge, .removes => hypergraphHyperedgeRemovesTreeNodeByPathKey tree.shardKey

def TreeId.rootKey (tree : TreeId) : Bytes :=
  match tree.setType, tree.phaseType with
  | .vertex, .adds => hypergraphVertexAddsTreeRootKey tree.shardKey
  | .vertex, .removes => hypergraphVertexRemovesTreeRootKey tree.shardKey
  | .hyperedge, .adds => hypergraphHyperedgeAddsTreeRootKey tree.shardKey
  | .hyperedge, .removes => hypergraphHyperedgeRemovesTreeRootKey tree.shardKey

/-! ### The database -/

/-- A value of the database: a node, the database key of a node, or other data, which is kept as bytes. -/
inductive Value where
  | node (r : NodeRecord)
  | key (k : Bytes)
  | data (b : Bytes)
  deriving DecidableEq, Repr

abbrev Db := OrdMap Bytes Value

inductive Write where
  | set (key : Bytes) (value : Value)
  | delete (key : Bytes)
  deriving DecidableEq, Repr

def Db.write (db : Db) : Write → Db
  | .set key value => OrdMap.set db key value
  | .delete key => OrdMap.delete db key

def Db.apply (db : Db) (writes : List Write) : Db := writes.foldl Db.write db

/-- Writes made with a transaction, or with none. -/
def Db.applyIn (db : Db) (txn : Option (List Write)) (writes : List Write) : Db × Option (List Write) :=
  match txn with
  | none => (db.apply writes, none)
  | some batch => (db, some (batch ++ writes))

inductive StoreError where
  | notFound
  | invalidData
  deriving DecidableEq, Repr

/-! ### Nodes -/

def getNodeByKey (db : Db) (tree : TreeId) (key : Bytes) : Except StoreError LazyNode :=
  match db.get (tree.nodeKey key) with
  | none => .error .notFound
  | some (.node r) => .ok r.toNode
  | some _ => .error .invalidData

/-- Whether the path of a branch and the requested path agree as far as both go. -/
def pathCompatible (path fullPrefix : List Nibble) : Bool :=
  if fullPrefix.length < path.length then fullPrefix.isPrefixOf path else path.isPrefixOf fullPrefix

/-- `GetNodeByPath`: the node of the first entry at or after the requested path, up to a bound that is
    above every extension of it. -/
def getNodeByPath (db : Db) (tree : TreeId) (path : List Nibble) : Except StoreError LazyNode :=
  let requestedPathKey := tree.pathKey path
  let basePathKey := tree.pathKey []
  let upper := requestedPathKey ++ (List.replicate 86 [0, 0, 0, 63]).flatten
  match db.seekGE basePathKey upper requestedPathKey with
  | some (_, .key found) =>
    match db.get found with
    | none => .error .notFound
    | some (.node (.leaf n)) => .ok (.leaf n)
    | some (.node (.branch n fullPrefix)) =>
      if pathCompatible path fullPrefix then .ok (NodeRecord.branch n fullPrefix).toNode else .error .notFound
    | some _ => .error .invalidData
  | _ => .error .notFound

/-- The writes of `InsertNode`. A leaf is filed under the given path, a branch under its full prefix. -/
def insertNode (tree : TreeId) (key : Bytes) (path : List Nibble) : LazyNode → List Write
  | .nil => []
  | .leaf n => [.set (tree.nodeKey key) (.node (.leaf n)), .set (tree.pathKey path) (.key (tree.nodeKey key))]
  | .branch n _ =>
    [.set (tree.nodeKey key) (.node n.record), .set (tree.pathKey n.fullPrefix) (.key (tree.nodeKey key))]

/-- The writes of `SaveRoot`. An empty root writes nothing. -/
def saveRoot (tree : TreeId) : LazyNode → List Write
  | .nil => []
  | .leaf n => [.set tree.rootKey (.node (.leaf n))]
  | .branch n _ => [.set tree.rootKey (.node n.record)]

def deleteNode (tree : TreeId) (key : Bytes) (path : List Nibble) : List Write :=
  [.delete (tree.pathKey path), .delete (tree.nodeKey key)]

/-- The root that `LoadHypergraph` reads for a tree, if one is stored. -/
def loadRoot (db : Db) (tree : TreeId) : LazyNode :=
  match db.get tree.rootKey with
  | some (.node r) => r.toNode
  | _ => .nil

/-- The read of a node that treats `ErrNotFound` as no node and panics on any other error. -/
def loadNode (db : Db) (tree : TreeId) (path : List Nibble) : Except Fault LazyNode :=
  match getNodeByPath db tree path with
  | .ok node => .ok node
  | .error .notFound => .ok .nil
  | .error .invalidData => .error .logPanic

def loadSlot (db : Db) (tree : TreeId) (path : List Nibble) (node : LazyNode) : Except Fault LazyNode :=
  if node.isNil then loadNode db tree path else .ok node

def loadChildren (db : Db) (tree : TreeId) (path : List Nibble) : Except Fault (Fin 64 → LazyNode) :=
  let failure := (List.finRange 64).findSome? fun i =>
    match loadNode db tree (path ++ [i]) with
    | .ok _ => none
    | .error err => some err
  match failure with
  | some err => .error err
  | none => .ok fun i =>
    match loadNode db tree (path ++ [i]) with
    | .ok node => node
    | .error _ => .nil

def loadSlots (db : Db) (tree : TreeId) (path : List Nibble) (fullyLoaded : Bool) (children : Fin 64 → LazyNode) :
    Except Fault (Fin 64 → LazyNode) :=
  if fullyLoaded then .ok children else loadChildren db tree path

end Quilibrium
