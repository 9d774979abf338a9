import Quilibrium.Lib.ByteOrder
import Quilibrium.Lib.Lineage
import Quilibrium.Lib.OrdMap
import Quilibrium.Store.Clock

/-! # Time reels

The tree of frames that `GlobalTimeReel` and `AppTimeReel` keep; a `Reel` holds what one of the two does in its own way.
A pointer to a node is its frame ID: `Insert` never adds a second node under one ID. -/

namespace Quilibrium

structure FrameNode (F : Type) where
  frame : F
  parent : Option Bytes
  children : List Bytes
  depth : Nat

/-- `GlobalEvent` and `AppEvent`; the message is determined by the rest. -/
inductive TimeReelEvent (F : Type) where
  | newHead (frame : F) (oldHead : Option F)
  | forkDetected (frame : F) (oldHead : Option F)
  | equivocationDetected (frame : F)

/-- What was done with a frame in a transaction that was committed. -/
inductive Effect (F : Type) where
  | materialized (frame : F)
  | reverted (frame : F)

instance Effect.instDecidableEq {F : Type} [DecidableEq F] : DecidableEq (Effect F)
  | .materialized f, .materialized g => decidable_of_iff (f = g) (Effect.materialized.injEq f g ▸ Iff.rfl)
  | .reverted f, .reverted g => decidable_of_iff (f = g) (Effect.reverted.injEq f g ▸ Iff.rfl)
  | .materialized _, .reverted _ => isFalse nofun
  | .reverted _, .materialized _ => isFalse nofun

/-- The parts of a time reel that do not change, and what only one of the two reels does. -/
structure Reel (F S : Type) where
  frameNumber : F → Nat
  timestamp : F → Int
  output : F → Bytes
  parentSelector : F → Bytes
  bitmask : F → Option Bytes
  isEqual : F → F → Bool
  idText : F → Bytes
  poseidon : Digest 32
  forkChoiceParams : ForkChoice.Params
  toBranchFrame : Equivocators → F → ForkChoice.Frame
  /-- The writes of `persistCanonicalFrames`, given the frame of the head. -/
  persist : Option F → List F → S → S
  /-- Frames that `rewindFrames` passes over. -/
  skipsRewind : F → Bool
  /-- The frame that is persisted when the only deepest leaf becomes the head: of the new node and this leaf. -/
  advanceFrame : F → F → F
  /-- `processPendingFrames` leaves the list it works off in the table. -/
  keepsPending : Bool

/-- What the code of the reels does not decide: the order in which maps are visited, by the number of the visit, and
    whether the hooks succeed. -/
structure World (F : Type) where
  order : Nat → List Bytes → List Bytes
  perm_order : ∀ tick ids, (order tick ids).Perm ids
  materialize : F → Bool
  revert : F → Bool

/-- The frames that a reel knows, connected or waiting for their parents, and the signers it caught. -/
structure FrameTree (F : Type) where
  root : Option Bytes
  nodes : OrdMap Bytes (FrameNode F)
  framesByNumber : Nat → List Bytes
  pendingFrames : OrdMap Bytes (List F)
  equivocators : Equivocators

/-- Maps visited in the order of their keys and hooks that succeed, for evaluating the model. -/
def World.plain {F : Type} : World F where
  order _ ids := ids
  perm_order _ ids := .refl ids
  materialize _ := true
  revert _ := true

structure TimeReel (F S : Type) extends FrameTree F where
  head : Option Bytes
  store : S
  events : List (TimeReelEvent F)
  effects : List (Effect F)
  ticks : Nat

def maxTreeDepth : Nat := 360

variable {F S : Type}

namespace Reel

/-- `ComputeFrameID`, before it is written in hexadecimal. -/
def frameId (R : Reel F S) (f : F) : Bytes := R.poseidon.sum (R.idText f)

/-- The selector that children of the frame carry. -/
def selector (R : Reel F S) (f : F) : Bytes := R.poseidon.sum (R.output f)

end Reel

namespace FrameTree

def empty : FrameTree F where
  root := none
  nodes := .empty
  framesByNumber _ := []
  pendingFrames := .empty
  equivocators _ _ := false

/-! ### Reading the tree -/

def frameOf (t : FrameTree F) (id : Bytes) : Option F := (t.nodes.get id).map FrameNode.frame

def parentOf (t : FrameTree F) (id : Bytes) : Option Bytes := (t.nodes.get id).bind FrameNode.parent

def childrenOf (t : FrameTree F) (id : Bytes) : List Bytes := (t.nodes.get id).elim [] FrameNode.children

def depthOf (t : FrameTree F) (id : Bytes) : Nat := (t.nodes.get id).elim 0 FrameNode.depth

/-- The walk from a node along `Parent`, newest first. -/
def lineage (t : FrameTree F) (id : Bytes) : List Bytes := Lineage.lineage t.parentOf t.depthOf id

def frames (t : FrameTree F) (ids : List Bytes) : List F := ids.filterMap t.frameOf

def pending (t : FrameTree F) (selector : Bytes) : List F := (t.pendingFrames.get selector).getD []

/-- The last `maxTreeDepth` frames of a lineage, oldest first. -/
def nodeToBranch (R : Reel F S) (t : FrameTree F) (id : Bytes) : ForkChoice.Branch :=
  (t.frames ((t.lineage id).take maxTreeDepth).reverse).map (R.toBranchFrame t.equivocators)

def isAncestorNode (t : FrameTree F) (ancestor descendant : Bytes) : Bool := (t.lineage descendant).contains ancestor

/-- The first node of the second lineage that is on the first, and the nodes from `node1` up to it. -/
def findCommonAncestor (t : FrameTree F) (node1 node2 : Bytes) : Option Bytes × List Bytes :=
  let path1 := t.lineage node1
  match (t.lineage node2).find? fun id => path1.contains id with
  | none => (none, [])
  | some current => (some current, Lineage.through current path1)

/-! ### Changing the tree -/

def attach (R : Reel F S) (t : FrameTree F) (f : F) (parent : Bytes) : FrameTree F :=
  let id := R.frameId f
  let node : FrameNode F := { frame := f, parent := some parent, children := [], depth := t.depthOf parent + 1 }
  { t with
    nodes := (t.nodes.set id node).modify parent fun n => { n with children := n.children ++ [id] }
    framesByNumber := Function.update t.framesByNumber (R.frameNumber f) (t.framesByNumber (R.frameNumber f) ++ [id]) }

def plantRoot (R : Reel F S) (t : FrameTree F) (f : F) : FrameTree F :=
  let id := R.frameId f
  { t with
    root := some id
    nodes := t.nodes.set id { frame := f, parent := none, children := [], depth := 0 }
    framesByNumber := Function.update t.framesByNumber (R.frameNumber f) [id] }

def addPendingFrame (R : Reel F S) (t : FrameTree F) (f : F) : FrameTree F :=
  let selector := R.parentSelector f
  { t with pendingFrames := t.pendingFrames.set selector (t.pending selector ++ [f]) }

/-- The list of a selector is worked off: taken out of the table, unless the reel keeps it. -/
def takePending (R : Reel F S) (t : FrameTree F) (selector : Bytes) : FrameTree F :=
  if R.keepsPending then t else { t with pendingFrames := t.pendingFrames.delete selector }

def pendingCount (t : FrameTree F) : Nat := (t.pendingFrames.entries.map fun e => e.2.length).sum

/-- Pending frames of more than five minutes ago are dropped. -/
def pruneOldPendingFrames (R : Reel F S) (now : Int) (t : FrameTree F) : FrameTree F :=
  { t with
    pendingFrames := t.pendingFrames.mapValues fun list => list.filter fun f => now - R.timestamp f ≤ 5 * 60 * 1000 }

/-- The kept children of a node that is pruned lose their parent. -/
def orphanChildren (minDepth : Nat) (t : FrameTree F) (id : Bytes) : FrameTree F :=
  (t.childrenOf id).foldl (fun t child =>
    if minDepth ≤ t.depthOf child then { t with nodes := t.nodes.modify child fun n => { n with parent := none } }
    else t) t

def removeNode (R : Reel F S) (t : FrameTree F) (id : Bytes) : FrameTree F :=
  match t.nodes.get id with
  | none => t
  | some node =>
    let number := R.frameNumber node.frame
    let nodes := t.nodes.delete id
    { t with
      nodes := node.parent.elim nodes fun p => nodes.modify p fun n => { n with children := n.children.filter (· ≠ id) }
      framesByNumber := Function.update t.framesByNumber number ((t.framesByNumber number).filter (· ≠ id)) }

/-- The node of the least frame number at the least depth becomes the root; of several, the first one visited. -/
def chooseRoot (R : Reel F S) (minDepth : Nat) (t : FrameTree F) (visited : List Bytes) : FrameTree F :=
  let root := visited.foldl (fun root id =>
    match t.frameOf id, root.bind t.frameOf with
    | some f, some best => if t.depthOf id = minDepth ∧ R.frameNumber f < R.frameNumber best then some id else root
    | some _, none => if t.depthOf id = minDepth then some id else root
    | none, _ => root) none
  { t with root, nodes := root.elim t.nodes fun id => t.nodes.modify id fun n => { n with parent := none } }

end FrameTree

namespace TimeReel

def new (store : S) : TimeReel F S where
  toFrameTree := .empty
  head := none
  store := store
  events := []
  effects := []
  ticks := 0

def withTree (st : TimeReel F S) (t : FrameTree F) : TimeReel F S := { st with toFrameTree := t }

def visit (W : World F) (st : TimeReel F S) : List Bytes × TimeReel F S :=
  (W.order st.ticks (st.nodes.entries.map Prod.fst), { st with ticks := st.ticks + 1 })

def findNodeBySelector (R : Reel F S) (W : World F) (st : TimeReel F S) (selector : Bytes) :
    Option Bytes × TimeReel F S :=
  let (ids, st) := st.visit W
  (ids.find? fun id => (st.frameOf id).any fun f => R.selector f = selector, st)

def findLeafNodes (W : World F) (st : TimeReel F S) : List Bytes × TimeReel F S :=
  let (ids, st) := st.visit W
  (ids.filter fun id => (st.childrenOf id).isEmpty, st)

/-! ### Effects -/

def sendEvent (st : TimeReel F S) (event : TimeReelEvent F) : TimeReel F S := { st with events := st.events ++ [event] }

/-- One transaction: a hook that fails leaves nothing behind. -/
def persistCanonicalFrames (R : Reel F S) (W : World F) (st : TimeReel F S) (frames : List F) : Bool × TimeReel F S :=
  if frames.isEmpty then (true, st)
  else if frames.all W.materialize then
    (true,
      { st with
        effects := st.effects ++ frames.map .materialized
        store := R.persist (st.head.bind st.frameOf) frames st.store })
  else (false, st)

/-- One transaction over the nodes that are not passed over. -/
def rewindFrames (R : Reel F S) (W : World F) (st : TimeReel F S) (revertNodes : List Bytes) : TimeReel F S :=
  let frames := (st.frames revertNodes).filter fun f => !R.skipsRewind f
  if frames.all W.revert then { st with effects := st.effects ++ frames.map .reverted } else st

/-- The path from below the common ancestor down to the new head is persisted, and its heads are announced. -/
def emitReplayEvents (R : Reel F S) (W : World F) (st : TimeReel F S) (commonAncestor newHead : Bytes) : TimeReel F S :=
  let reversePath := (st.lineage newHead).takeWhile (· ≠ commonAncestor)
  let replayPath := st.frames reversePath.reverse
  let (_, st) := persistCanonicalFrames R W st replayPath
  replayPath.foldl (fun st f => st.sendEvent (.newHead f none)) st

def sendHeadEvent (st : TimeReel F S) (newHead : Bytes) (oldHead : Option Bytes) : TimeReel F S :=
  match st.frameOf newHead with
  | none => st
  | some f =>
    if oldHead.any fun old => !st.isAncestorNode old newHead then st.sendEvent (.forkDetected f (oldHead.bind st.frameOf))
    else st.sendEvent (.newHead f (oldHead.bind st.frameOf))

/-! ### Fork choice -/

/-- The head moves to another branch: its frames are reverted, those of the new branch are replayed. -/
def reorganize (R : Reel F S) (W : World F) (st : TimeReel F S) (oldHead chosen : Bytes) : TimeReel F S :=
  let st := { st with head := some chosen }
  let st := (st.frameOf chosen).elim st fun f => st.sendEvent (.forkDetected f (st.frameOf oldHead))
  let (commonAncestor, reverts) := st.findCommonAncestor oldHead chosen
  let st := rewindFrames R W st reverts
  match commonAncestor with
  | none => st
  | some ancestor => emitReplayEvents R W st ancestor chosen

/-- The head moves on along its branch. `persisted` is what the caller writes. -/
def advance (R : Reel F S) (W : World F) (st : TimeReel F S) (oldHead chosen : Bytes) (persisted : List F) :
    TimeReel F S :=
  let st := { st with head := some chosen }
  let (_, st) := persistCanonicalFrames R W st persisted
  (st.frameOf chosen).elim st fun f => st.sendEvent (.newHead f (st.frameOf oldHead))

def updateHead (R : Reel F S) (W : World F) (st : TimeReel F S) (oldHead chosen : Bytes) (persisted : List F) :
    TimeReel F S :=
  if chosen = oldHead then st
  else if st.isAncestorNode oldHead chosen then advance R W st oldHead chosen persisted
  else reorganize R W st oldHead chosen

def advanceFrames (R : Reel F S) (st : TimeReel F S) (newNode chosen : Bytes) : List F :=
  match st.frameOf newNode, st.frameOf chosen with
  | some new, some f => [R.advanceFrame new f]
  | _, _ => []

/-- Leaves of which none is deeper than another one. -/
def competingLeaves (st : TimeReel F S) (leafNodes : List Bytes) : List Bytes :=
  let maxDepth := leafNodes.foldl (fun d leaf => max d (st.depthOf leaf)) 0
  leafNodes.filter fun leaf => st.depthOf leaf = maxDepth

def chooseLeaf (R : Reel F S) (st : TimeReel F S) (head : Bytes) (leaves : List Bytes) : Option Bytes :=
  let prevChoice := if leaves.contains head then leaves.idxOf head else 0
  leaves[ForkChoice.forkChoice (leaves.map (st.nodeToBranch R)) R.forkChoiceParams prevChoice]?

def evaluateForkChoice (R : Reel F S) (W : World F) (st : TimeReel F S) (newNode : Bytes) : TimeReel F S :=
  match st.head with
  | none => { st with head := some newNode }.sendHeadEvent newNode none
  | some head =>
    let (leafNodes, st) := st.findLeafNodes W
    if leafNodes.length ≤ 1 then
      if st.depthOf head < st.depthOf newNode then
        let st := { st with head := some newNode }
        let (_, st) := persistCanonicalFrames R W st (st.frames [newNode])
        st.sendHeadEvent newNode (some head)
      else st
    else
      match st.competingLeaves leafNodes with
      | [chosen] => updateHead R W st head chosen (st.advanceFrames R newNode chosen)
      | leaves =>
        match st.chooseLeaf R head leaves with
        | none => st
        | some chosen => updateHead R W st head chosen []

/-! ### Insertion -/

/-- Frames that waited for the node are attached, those that waited for them before the fork choice. Each level of
    the recursion attaches a frame that was pending, which bounds it. -/
def processPendingFrames (R : Reel F S) (W : World F) : Nat → TimeReel F S → Bytes → TimeReel F S
  | 0, st, _ => st
  | fuel + 1, st, parent =>
    match st.frameOf parent with
    | none => st
    | some parentFrame =>
      let selector := R.selector parentFrame
      let pendingList := st.pending selector
      if pendingList.isEmpty then st
      else
        pendingList.foldl (fun st f =>
          if (st.nodes.get (R.frameId f)).isSome then st
          else
            let st := st.withTree (st.attach R f parent)
            let st := processPendingFrames R W fuel st (R.frameId f)
            evaluateForkChoice R W st (R.frameId f)) (st.withTree (st.takePending R selector))

def releasePending (R : Reel F S) (W : World F) (st : TimeReel F S) (parent : Bytes) : TimeReel F S :=
  processPendingFrames R W (st.pendingCount + 1) st parent

def noteEquivocation (R : Reel F S) (f : F) (st : TimeReel F S) (node : Bytes) : TimeReel F S :=
  match st.frameOf node with
  | none => st
  | some existing =>
    if !R.isEqual existing f && hasOverlappingBits (R.bitmask existing) (R.bitmask f) then
      let bits :=
        match R.bitmask existing, R.bitmask f with
        | some existingMask, some newMask => overlappingBits existingMask newMask
        | _, _ => []
      { st with equivocators := st.equivocators.mark (R.frameNumber f) bits }.sendEvent (.equivocationDetected f)
    else st

/-- The check for equivocation with the nodes at the height of the frame. -/
def noteEquivocations (R : Reel F S) (st : TimeReel F S) (f : F) : TimeReel F S :=
  (st.framesByNumber (R.frameNumber f)).foldl (noteEquivocation R f) st

def plantHead (R : Reel F S) (st : TimeReel F S) (f : F) : TimeReel F S :=
  { st with toFrameTree := st.plantRoot R f, head := some (R.frameId f) }

/-! ### Pruning -/

def pruneNode (R : Reel F S) (W : World F) (minDepth : Nat) (st : TimeReel F S) (id : Bytes) : TimeReel F S :=
  let st := st.withTree (st.removeNode R id)
  if st.root = some id then
    let (ids, st) := st.visit W
    st.withTree (st.chooseRoot R minDepth ids)
  else st

def pruneOldFrames (R : Reel F S) (W : World F) (st : TimeReel F S) : TimeReel F S :=
  match st.head with
  | none => st
  | some head =>
    if st.depthOf head < maxTreeDepth then st
    else
      let minDepthToKeep := st.depthOf head - maxTreeDepth + 1
      let (ids, st) := st.visit W
      let nodesToPrune := ids.filter fun id => st.depthOf id < minDepthToKeep
      let st := st.withTree (nodesToPrune.foldl (FrameTree.orphanChildren minDepthToKeep) st.toFrameTree)
      nodesToPrune.foldl (pruneNode R W minDepthToKeep) st

/-! ### `Insert` below a known parent -/

/-- The end of `Insert`, where the parent of the frame was found. -/
def insertBelow (R : Reel F S) (W : World F) (now : Int) (st : TimeReel F S) (f : F) (parent : Bytes) :
    Option String × TimeReel F S :=
  if (st.frameOf parent).any fun p => R.selector p = R.parentSelector f then
    let st := st.withTree (st.attach R f parent)
    let st := releasePending R W st (R.frameId f)
    let st := evaluateForkChoice R W st (R.frameId f)
    let st := pruneOldFrames R W st
    (none, st.withTree (st.pruneOldPendingFrames R now))
  else (some "parent selector mismatch", st)

end TimeReel

end Quilibrium
