import Quilibrium.Hypergraph.State

/-! # The prover registry

`ProverRegistry` of `node/consensus/provers/prover_registry.go`, with the reads of `RDFMultiprover` and the iterator
over vertex data. A pointer to the info of a prover is its address with the number of infos created for it before. A
critbit trie is the map of its leaves. -/

namespace Quilibrium
namespace Provers

/-! ### Fields of a vertex -/

/-- The classes of `GLOBAL_RDF_SCHEMA`. -/
inductive RdfClass
  | prover | allocation | reward
  deriving DecidableEq

def RdfClass.all : List RdfClass := [.prover, .allocation, .reward]

def RdfClass.fields : RdfClass → List (String × Nat)
  | .prover => [("PublicKey", 0), ("Status", 1), ("AvailableStorage", 2), ("Seniority", 3), ("KickFrameNumber", 4)]
  | .allocation => [("Prover", 0), ("Status", 1), ("ConfirmationFilter", 2), ("RejectionFilter", 3),
      ("JoinFrameNumber", 4), ("LeaveFrameNumber", 5), ("PauseFrameNumber", 6), ("ResumeFrameNumber", 7),
      ("KickFrameNumber", 8), ("JoinConfirmFrameNumber", 9), ("JoinRejectFrameNumber", 10),
      ("LeaveConfirmFrameNumber", 11), ("LeaveRejectFrameNumber", 12), ("LastActiveFrameNumber", 13)]
  | .reward => [("DelegateAddress", 0), ("Balance", 1)]

/-- `GetMaxOrderForDocument`. -/
def maxOrder : Nat := (RdfClass.all.flatMap RdfClass.fields).foldl (fun m field => max m field.2) 0

def MaxOrderSingleByte : Nat := 63
def MaxOrderTwoByte : Nat := 4093
def MaxOrderThreeByte : Nat := 262142

def orderToKey (order maxOrder : Nat) : Except String Bytes :=
  if maxOrder ≤ MaxOrderSingleByte then .ok [UInt8.ofNat (order <<< 2)]
  else if maxOrder ≤ MaxOrderTwoByte then
    let shifted := order <<< 4
    .ok [UInt8.ofNat (shifted >>> 8), UInt8.ofNat (shifted &&& 0xFF)]
  else if maxOrder ≤ MaxOrderThreeByte then
    let shifted := order <<< 6
    .ok [UInt8.ofNat (shifted >>> 16), UInt8.ofNat ((shifted >>> 8) &&& 0xFF), UInt8.ofNat (shifted &&& 0xFF)]
  else
    .error ("order to key: order value " ++ toString maxOrder ++ " exceeds maximum allowed value of " ++
      toString MaxOrderThreeByte)

def typeKey : Bytes := List.replicate 32 0xff

def schemaKeys : List Bytes :=
  typeKey :: (List.range (maxOrder + 1)).filterMap fun order => (orderToKey order maxOrder).toOption

/-- A data tree in which the reads of the registry do not panic. -/
structure VertexTree where
  tree : VectorCommitmentTree
  readable : ∀ key ∈ schemaKeys, (tree.get key).isOk

namespace VertexTree

def get (t : VertexTree) (key : Bytes) : Except String Bytes :=
  match t.tree.get key with
  | .ok value => value
  | .error _ => .error ""

/-- `RDFMultiprover.Get`; an error is `none`. -/
def rdfGet (t : VertexTree) (rdfClass : RdfClass) (field : String) : Option Bytes := do
  let order ← rdfClass.fields.lookup field
  let key ← (orderToKey order maxOrder).toOption
  (t.get key).toOption

/-- `RDFMultiprover.GetType`. `typeHash` is the hash of the global address and the name of a class. -/
def getType (typeHash : RdfClass → Bytes) (t : VertexTree) : Except String RdfClass :=
  match t.get typeKey with
  | .error err => .error ("get type: " ++ err)
  | .ok hash =>
    match RdfClass.all.find? fun k => hash = typeHash k with
    | some k => .ok k
    | none => .error "get type: type not found"

def uint64Field (t : VertexTree) (rdfClass : RdfClass) (field : String) : Nat :=
  match t.rdfGet rdfClass field with
  | some bytes => if 8 ≤ bytes.length then natOfBE (bytes.take 8) else 0
  | none => 0

def bytesField (t : VertexTree) (rdfClass : RdfClass) (field : String) : Bytes := (t.rdfGet rdfClass field).getD []

end VertexTree

/-! ### Infos -/

inductive ProverStatus
  | unknown | joining | active | paused | leaving | rejected | kicked
  deriving DecidableEq

structure ProverAllocationInfo where
  status : ProverStatus
  confirmationFilter : Bytes
  rejectionFilter : Bytes
  joinFrameNumber : Nat
  leaveFrameNumber : Nat
  pauseFrameNumber : Nat
  resumeFrameNumber : Nat
  kickFrameNumber : Nat
  joinConfirmFrameNumber : Nat
  joinRejectFrameNumber : Nat
  leaveConfirmFrameNumber : Nat
  leaveRejectFrameNumber : Nat
  lastActiveFrameNumber : Nat
  deriving DecidableEq

structure ProverInfo where
  publicKey : Bytes
  address : Bytes
  status : ProverStatus
  kickFrameNumber : Nat
  allocations : List ProverAllocationInfo
  availableStorage : Nat
  seniority : Nat
  delegateAddress : Bytes
  deriving DecidableEq

/-- The status of a prover; 4 is for one that has left. -/
def proverStatus : UInt8 → Option ProverStatus
  | 0 => some .joining
  | 1 => some .active
  | 2 => some .paused
  | 3 => some .leaving
  | 4 => none
  | _ => some .unknown

def allocationStatus : UInt8 → ProverStatus
  | 0 => .joining
  | 1 => .active
  | 2 => .paused
  | 3 => .leaving
  | 4 => .rejected
  | 5 => .kicked
  | _ => .unknown

def VertexTree.firstByte (t : VertexTree) (rdfClass : RdfClass) (field : String) : Option UInt8 :=
  (t.rdfGet rdfClass field).bind List.head?

/-- What both paths read of a prover beside its public key and its status. -/
structure ProverFields where
  status : ProverStatus
  availableStorage : Nat
  seniority : Nat
  delegateAddress : Bytes
  kickFrameNumber : Nat

def VertexTree.proverFields (t : VertexTree) (status : ProverStatus) : ProverFields where
  status
  availableStorage := t.uint64Field .prover "AvailableStorage"
  seniority := t.uint64Field .prover "Seniority"
  delegateAddress := t.bytesField .prover "DelegateAddress"
  kickFrameNumber := t.uint64Field .prover "KickFrameNumber"

def VertexTree.allocationInfo (t : VertexTree) (status : ProverStatus) : ProverAllocationInfo where
  status
  confirmationFilter := t.bytesField .allocation "ConfirmationFilter"
  rejectionFilter := t.bytesField .allocation "RejectionFilter"
  joinFrameNumber := t.uint64Field .allocation "JoinFrameNumber"
  leaveFrameNumber := t.uint64Field .allocation "LeaveFrameNumber"
  pauseFrameNumber := t.uint64Field .allocation "PauseFrameNumber"
  resumeFrameNumber := t.uint64Field .allocation "ResumeFrameNumber"
  kickFrameNumber := t.uint64Field .allocation "KickFrameNumber"
  joinConfirmFrameNumber := t.uint64Field .allocation "JoinConfirmFrameNumber"
  joinRejectFrameNumber := t.uint64Field .allocation "JoinRejectFrameNumber"
  leaveConfirmFrameNumber := t.uint64Field .allocation "LeaveConfirmFrameNumber"
  leaveRejectFrameNumber := t.uint64Field .allocation "LeaveRejectFrameNumber"
  lastActiveFrameNumber := t.uint64Field .allocation "LastActiveFrameNumber"

def ProverFields.newInfo (fields : ProverFields) (publicKey address : Bytes) : ProverInfo where
  publicKey
  address
  status := fields.status
  kickFrameNumber := fields.kickFrameNumber
  allocations := []
  availableStorage := fields.availableStorage
  seniority := fields.seniority
  delegateAddress := fields.delegateAddress

def ProverInfo.blank (address : Bytes) : ProverInfo := ⟨[], address, .unknown, 0, [], 0, 0, []⟩

/-- The fields of an info that is there, the public key apart. -/
def ProverFields.update (fields : ProverFields) (info : ProverInfo) : ProverInfo :=
  { info with
    status := fields.status
    availableStorage := fields.availableStorage
    seniority := fields.seniority
    delegateAddress := fields.delegateAddress
    kickFrameNumber := fields.kickFrameNumber }

def ProverInfo.withAllocation (info : ProverInfo) (allocation : ProverAllocationInfo) : ProverInfo :=
  { info with allocations := info.allocations ++ [allocation] }

/-! ### Tries -/

/-- `Value` of a `RollingFrecencyCritbitTrie`. -/
structure FrecencyValue where
  key : Bytes
  earliestFrame : Nat
  latestFrame : Nat
  count : Nat
  deriving DecidableEq

abbrev FrecencyTrie := Bytes → Option FrecencyValue

namespace FrecencyTrie

def empty : FrecencyTrie := fun _ => none

def add (t : FrecencyTrie) (address : Bytes) (latestFrame : Nat) : FrecencyTrie :=
  let v := (t address).getD ⟨address, latestFrame, latestFrame, 0⟩
  Function.update t address (some { v with latestFrame })

def remove (t : FrecencyTrie) (address : Bytes) : FrecencyTrie := Function.update t address none

end FrecencyTrie

/-! ### The registry -/

structure Pointer where
  address : Bytes
  serial : Nat
  deriving DecidableEq

structure Registry where
  globalTrie : FrecencyTrie
  shardTries : Bytes → Option FrecencyTrie
  proverCache : Bytes → Option Pointer
  filterCache : Bytes → Option (List Pointer)
  addressToFilters : Bytes → Option (List Bytes)
  currentFrame : Nat
  infos : Pointer → ProverInfo
  /-- How many infos were created for an address. -/
  created : Bytes → Nat

namespace Registry

def empty (currentFrame : Nat) : Registry where
  globalTrie := .empty
  shardTries _ := none
  proverCache _ := none
  filterCache _ := none
  addressToFilters _ := none
  currentFrame
  infos pointer := .blank pointer.address
  created _ := 0

def newInfo (r : Registry) (address : Bytes) (info : ProverInfo) : Registry :=
  let pointer := ⟨address, r.created address⟩
  { r with
    proverCache := Function.update r.proverCache address (some pointer)
    infos := Function.update r.infos pointer info
    created := Function.update r.created address (r.created address + 1) }

def modifyInfo (r : Registry) (pointer : Pointer) (f : ProverInfo → ProverInfo) : Registry :=
  { r with infos := Function.update r.infos pointer (f (r.infos pointer)) }

def trackFilter (filters : Option (List Bytes)) (filter : Bytes) : List Bytes :=
  match filters with
  | none => [filter]
  | some filters => if filter ∈ filters then filters else filters ++ [filter]

def addProverToTrie (r : Registry) (address filter : Bytes) (frameNumber : Nat) : Registry :=
  let r :=
    if filter = [] then { r with globalTrie := r.globalTrie.add address frameNumber }
    else
      let trie := (r.shardTries filter).getD .empty
      { r with shardTries := Function.update r.shardTries filter (some (trie.add address frameNumber)) }
  { r with
    addressToFilters :=
      Function.update r.addressToFilters address (some (trackFilter (r.addressToFilters address) filter)) }

def untrackFilter (r : Registry) (address filter : Bytes) : Registry :=
  match r.addressToFilters address with
  | none => r
  | some filters =>
    let newFilters := filters.filter fun f => f ≠ filter
    { r with
      addressToFilters :=
        Function.update r.addressToFilters address (if newFilters = [] then none else some newFilters) }

def removeProverFromTrie (r : Registry) (address filter : Bytes) : Registry :=
  if filter = [] then { r with globalTrie := r.globalTrie.remove address }.untrackFilter address filter
  else
    match r.shardTries filter with
    | none => r
    | some trie =>
      { r with shardTries := Function.update r.shardTries filter (some (trie.remove address)) }.untrackFilter address filter

/-- Where `sort.Search` and `slices.Insert` put a pointer in a list that is sorted by address. -/
def insertSorted (r : Registry) (pointer : Pointer) (address : Bytes) : Option (List Pointer) → List Pointer
  | none => [pointer]
  | some info =>
    info.takeWhile (fun p => (r.infos p).address < address) ++
      pointer :: info.dropWhile (fun p => (r.infos p).address < address)

def insertFiltered (r : Registry) (filter : Bytes) (pointer : Pointer) (address : Bytes) : Registry :=
  let list := r.insertSorted pointer address (r.filterCache filter)
  { r with filterCache := Function.update r.filterCache filter (some list) }

/-! ### Extraction -/

/-- The loop over the allocations of a prover that was known before its vertex. -/
def extractKnownAllocation (address : Bytes) (pointer : Pointer) (r : Registry) (allocation : ProverAllocationInfo) :
    Registry :=
  let r :=
    if allocation.status = .active then
      r.addProverToTrie address allocation.confirmationFilter allocation.lastActiveFrameNumber
    else r
  r.insertFiltered allocation.confirmationFilter pointer address

def extractKnown (r : Registry) (address : Bytes) (pointer : Pointer) : Registry :=
  (r.infos pointer).allocations.foldl (extractKnownAllocation address pointer) r

/-- The prover case of `extractGlobalState`. -/
def extractProver (r : Registry) (address publicKey : Bytes) (fields : ProverFields) : Registry :=
  match r.proverCache address with
  | none => r.newInfo address (fields.newInfo publicKey address)
  | some pointer =>
    (r.modifyInfo pointer fun info => fields.update { info with publicKey }).extractKnown address pointer

def ensureProver (r : Registry) (proverRef : Bytes) : Registry :=
  if (r.proverCache proverRef).isSome then r else r.newInfo proverRef (.blank proverRef)

def addAllocation (r : Registry) (pointer : Pointer) (proverRef : Bytes) (allocationInfo : ProverAllocationInfo) :
    Registry :=
  let r := r.modifyInfo pointer fun info => info.withAllocation allocationInfo
  let r := r.insertFiltered allocationInfo.confirmationFilter pointer proverRef
  if allocationInfo.status = .active ∧ (r.infos pointer).publicKey ≠ [] then
    r.addProverToTrie proverRef allocationInfo.confirmationFilter allocationInfo.lastActiveFrameNumber
  else r

/-- The allocation case of `extractGlobalState`. -/
def extractAllocation (r : Registry) (proverRef : Bytes) (allocationInfo : ProverAllocationInfo) : Registry :=
  match (r.ensureProver proverRef).proverCache proverRef with
  | none => r.ensureProver proverRef
  | some pointer => (r.ensureProver proverRef).addAllocation pointer proverRef allocationInfo

inductive Reading
  | skipped
  | prover (publicKey : Bytes) (fields : ProverFields)
  | allocation (proverRef : Bytes) (info : ProverAllocationInfo)

def readProver (t : VertexTree) : Reading :=
  match t.rdfGet .prover "PublicKey", t.firstByte .prover "Status" with
  | some publicKey, some status =>
    match proverStatus status with
    | none => .skipped
    | some status => .prover publicKey (t.proverFields status)
  | _, _ => .skipped

def readAllocation (t : VertexTree) : Reading :=
  match t.rdfGet .allocation "Prover", t.firstByte .allocation "Status" with
  | some proverRef, some status =>
    if proverRef = [] then .skipped else .allocation proverRef (t.allocationInfo (allocationStatus status))
  | _, _ => .skipped

/-- Which class a vertex is of, and what is found in it. -/
def readVertex (typeHash : RdfClass → Bytes) (t : VertexTree) : Except String Reading :=
  match t.getType typeHash with
  | .error err => .error ("extract global state: " ++ err)
  | .ok .prover => .ok (readProver t)
  | .ok .allocation => .ok (readAllocation t)
  | .ok .reward => .error "extract global state: invalid type"

def absorb (r : Registry) (address : Bytes) : Reading → Registry
  | .skipped => r
  | .prover publicKey fields => r.extractProver address publicKey fields
  | .allocation proverRef info => r.extractAllocation proverRef info

/-- `extractGlobalState` over the entries of the iterator: the registry and the returned error. -/
def extractGlobalState (typeHash : RdfClass → Bytes) (r : Registry) :
    List (Bytes × Option VertexTree) → Registry × Option String
  | [] => (r, none)
  | (_, none) :: entries => extractGlobalState typeHash r entries
  | (key, some data) :: entries =>
    match readVertex typeHash data with
    | .error err => (r, some err)
    | .ok reading => extractGlobalState typeHash (r.absorb (key.drop 32) reading) entries

/-! ### Changes -/

def removeProver (r : Registry) (proverAddress : Bytes) : Registry :=
  let r :=
    match r.proverCache proverAddress with
    | none => r
    | some pointer =>
      (r.infos pointer).allocations.foldl
        (fun (r : Registry) (allocation : ProverAllocationInfo) =>
          if allocation.confirmationFilter = [] then r
          else r.removeProverFromTrie proverAddress allocation.confirmationFilter)
        (r.removeProverFromTrie proverAddress [])
  { r with
    proverCache := Function.update r.proverCache proverAddress none
    addressToFilters := Function.update r.addressToFilters proverAddress none }

def upsertProver (r : Registry) (proverAddress publicKey : Bytes) (fields : ProverFields) : Registry :=
  match r.proverCache proverAddress with
  | none => r.newInfo proverAddress (fields.newInfo publicKey proverAddress)
  | some pointer => r.modifyInfo pointer fields.update

/-- A prover vertex of `processProverChange` that has not left. -/
def updateProver (r : Registry) (proverAddress publicKey : Bytes) (fields : ProverFields) (frameNumber : Nat) : Registry :=
  let r := r.upsertProver proverAddress publicKey fields
  if fields.status = .active then r.addProverToTrie proverAddress [] frameNumber
  else r.removeProverFromTrie proverAddress []

/-- An allocation vertex of `processProverChange`. -/
def updateAllocation (r : Registry) (data : VertexTree) (frameNumber : Nat) : Registry :=
  match data.rdfGet .allocation "prover:Prover", data.firstByte .allocation "Status" with
  | some proverRef, some status =>
    if proverRef = [] ∨ (r.proverCache proverRef).isNone then r
    else
      let confirmationFilter := data.bytesField .allocation "ConfirmationFilter"
      if allocationStatus status = .active ∧ confirmationFilter ≠ [] then
        r.addProverToTrie proverRef confirmationFilter frameNumber
      else r.removeProverFromTrie proverRef confirmationFilter
  | _, _ => r

/-- The fields of a `StateChange` that the registry reads; `data` is `DataValue` of its value. -/
structure Change where
  domain : Bytes
  address : Bytes
  stateChange : StateChangeEvent
  data : Option VertexTree

def processVertex (r : Registry) (proverAddress : Bytes) (data : VertexTree) (frameNumber : Nat) : Registry :=
  match data.rdfGet .prover "PublicKey" with
  | some (b :: bs) =>
    match data.firstByte .prover "Status" with
    | none => r
    | some status =>
      match proverStatus status with
      | none => r.removeProver proverAddress
      | some status => r.updateProver proverAddress (b :: bs) (data.proverFields status) frameNumber
  | _ => r.updateAllocation data frameNumber

def processProverChange (r : Registry) (change : Change) (frameNumber : Nat) : Registry :=
  match change.stateChange, change.data with
  | .delete, _ => r.removeProver change.address
  | _, none => r
  | _, some data => r.processVertex change.address data frameNumber

def GLOBAL_INTRINSIC_ADDRESS : Bytes := List.replicate 32 0xff

/-- The body of the loop of `ProcessStateTransition`. -/
def processChange (frameNumber : Nat) (r : Registry) (change : Change) : Registry :=
  if change.domain.length = 32 ∧ change.domain = GLOBAL_INTRINSIC_ADDRESS then r.processProverChange change frameNumber
  else r

def processStateTransition (r : Registry) (changes : List Change) (frameNumber : Nat) : Registry :=
  changes.foldl (processChange frameNumber) { r with currentFrame := frameNumber }

end Registry

/-! ### The committed vertices -/

/-- The data of the vertices under the global address, and which of them were removed, by data address. -/
structure Vertices where
  data : OrdMap Bytes VertexTree
  removed : List Bytes

namespace Vertices
open Registry

/-- `GetVertexDataIterator`: the keys and values. A removed vertex keeps its data, and `Value` looks for its removal under
    the key of the data record instead of the key of the vertex. -/
def iterator (v : Vertices) : List (Bytes × Option VertexTree) :=
  v.data.entries.map fun entry =>
    let key := GLOBAL_INTRINSIC_ADDRESS ++ entry.1
    (key, if hypergraphVertexDataKey key ∈ v.removed.map (GLOBAL_INTRINSIC_ADDRESS ++ ·) then none else some entry.2)

def commit (v : Vertices) (change : Change) : Vertices :=
  if change.domain = GLOBAL_INTRINSIC_ADDRESS then
    match change.stateChange, change.data with
    | .delete, _ => { v with removed := change.address :: v.removed }
    | _, none => v
    | _, some data => { v with data := v.data.set change.address data }
  else v

end Vertices

/-- `Refresh`: the registry and the returned error. -/
def Registry.refresh (typeHash : RdfClass → Bytes) (r : Registry) (v : Vertices) : Registry × Option String :=
  (empty r.currentFrame).extractGlobalState typeHash v.iterator

end Provers
end Quilibrium
