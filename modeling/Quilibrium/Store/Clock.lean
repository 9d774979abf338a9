import Quilibrium.Time.Frame

/-! # The clock store

The frames of `node/store/clock.go`: global frames by their number, and frames of an app shard, which are staged under
number and parent and then pointed to by their number. -/

namespace Quilibrium

/-! ### Global frames -/

/-- `headers` holds the frames without their requests. -/
structure GlobalClock where
  headers : Nat → Option GlobalFrame
  requests : Nat → Nat → Option Bytes

namespace GlobalClock

def empty : GlobalClock := ⟨fun _ => none, fun _ _ => none⟩

/-- The request keys of one frame number after a frame is put: an index is a `uint16`. -/
def putRequests (stored : Nat → Option Bytes) (requests : List Bytes) : Nat → Option Bytes :=
  requests.zipIdx.foldl (fun stored (request, i) => Function.update stored (i % 2 ^ 16) (some request)) stored

/-- `PutGlobalClockFrame`. -/
def put (c : GlobalClock) (f : GlobalFrame) : GlobalClock where
  headers := Function.update c.headers f.frameNumber (some { f with requests := [] })
  requests := Function.update c.requests f.frameNumber (putRequests (c.requests f.frameNumber) f.requests)

/-- The requests from index `i` on, up to the first key that is missing. The index is a `uint16`: with all keys in
    place the loop does not end. -/
def readRequests (stored : Nat → Option Bytes) : Nat → Nat → Except Fault (List Bytes)
  | 0, _ => .error .diverges
  | fuel + 1, i =>
    match stored (i % 2 ^ 16) with
    | none => .ok []
    | some request => do return request :: (← readRequests stored fuel (i + 1))

/-- `GetGlobalClockFrame`. -/
def get (c : GlobalClock) (frameNumber : Nat) : Except Fault (Option GlobalFrame) :=
  match c.headers frameNumber with
  | none => .ok none
  | some header => do
    let requests ← readRequests (c.requests frameNumber) (2 ^ 16 + 1) 0
    return some { header with requests }

/-- `DeleteGlobalClockFrameRange`: the requests stay. -/
def deleteRange (c : GlobalClock) (minFrameNumber maxFrameNumber : Nat) : GlobalClock :=
  { c with headers := fun n => if minFrameNumber ≤ n ∧ n < maxFrameNumber then none else c.headers n }

end GlobalClock

/-! ### Frames of an app shard -/

/-- `rightAlign` to 32 bytes. -/
def rightAlign32 (b : Bytes) : Bytes := List.replicate (32 - b.length) 0 ++ b.drop (b.length - 32)

/-- The frames of one address: `frames` holds the selector part of the key that a number points to. -/
structure ShardClock where
  staged : Nat → Bytes → Option AppShardFrame
  frames : Nat → Option Bytes

namespace ShardClock

def empty : ShardClock := ⟨fun _ _ => none, fun _ => none⟩

/-- `StageShardClockFrame` under the parent selector of the frame. -/
def stage (c : ShardClock) (f : AppShardFrame) : ShardClock :=
  { c with
    staged := Function.update c.staged f.frameNumber
      (Function.update (c.staged f.frameNumber) (rightAlign32 f.parentSelector) (some f)) }

/-- `CommitShardClockFrame` of a frame number and a parent selector. -/
def commit (c : ShardClock) (frameNumber : Nat) (selector : Bytes) : ShardClock :=
  { c with frames := Function.update c.frames frameNumber (some (rightAlign32 selector)) }

/-- `GetShardClockFrame`. -/
def get (c : ShardClock) (frameNumber : Nat) : Option AppShardFrame :=
  (c.frames frameNumber).bind (c.staged frameNumber)

end ShardClock

end Quilibrium
