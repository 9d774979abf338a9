import Quilibrium.Time.Reel

/-! # `Insert` of the two time reels -/

namespace Quilibrium

/-! ### The global reel -/

/-- What `NewGlobalTimeReel` and `SetForkChoiceParams` set, and the hash function. -/
structure GlobalConfig where
  network : Nat
  archiveMode : Bool
  forkChoiceParams : ForkChoice.Params
  poseidon : Digest 32

namespace GlobalTimeReel

def genesisFrameNumber (cfg : GlobalConfig) : Nat := if cfg.network = 0 then 244200 else 0

/-- `persistCanonicalFrames`: without archive mode, frames too far below the head are dropped. -/
def persist (archiveMode : Bool) (head : Option GlobalFrame) (frames : List GlobalFrame) (clock : GlobalClock) :
    GlobalClock :=
  let clock := frames.foldl GlobalClock.put clock
  match head with
  | none => clock
  | some h =>
    if !archiveMode && decide (maxTreeDepth < h.frameNumber) then
      clock.deleteRange 0 (h.frameNumber - maxTreeDepth + 1)
    else clock

def reel (cfg : GlobalConfig) : Reel GlobalFrame GlobalClock where
  frameNumber := GlobalFrame.frameNumber
  timestamp := GlobalFrame.timestamp
  output := GlobalFrame.output
  parentSelector := GlobalFrame.parentSelector
  bitmask := GlobalFrame.bitmask
  isEqual := isEqualGlobalFrame
  idText := GlobalFrame.idText
  poseidon := cfg.poseidon
  forkChoiceParams := cfg.forkChoiceParams
  toBranchFrame := GlobalFrame.toBranchFrame
  persist := persist cfg.archiveMode
  skipsRewind f := decide (f.frameNumber = 244200)
  advanceFrame new _ := new
  keepsPending := false

/-- `insertGenesisFrame`: the genesis frame, or a pseudo-root without archive mode. -/
def insertGenesisFrame (cfg : GlobalConfig) (W : World GlobalFrame) (st : TimeReel GlobalFrame GlobalClock)
    (f : GlobalFrame) : Option String × TimeReel GlobalFrame GlobalClock :=
  let R := reel cfg
  if st.root.isSome && cfg.archiveMode then (some "genesis frame already exists", st)
  else if (st.root.bind st.frameOf).any fun root => root.frameNumber ≤ f.frameNumber then
    (some "frame is not older than current root", st)
  else
    match TimeReel.persistCanonicalFrames R W (TimeReel.plantHead R st f) [f] with
    | (false, st) => (some "insert genesis frame: persist canonical frames", st)
    | (true, st) =>
      let st := st.sendEvent (.newHead f none)
      let st := TimeReel.releasePending R W st (R.frameId f)
      (none, TimeReel.pruneOldFrames R W st)

/-- Without archive mode a frame with no parent is dropped if it is too far below the head. -/
def isTooOld (cfg : GlobalConfig) (st : TimeReel GlobalFrame GlobalClock) (f : GlobalFrame) : Bool :=
  !cfg.archiveMode && (st.head.bind st.frameOf).any fun head =>
    f.frameNumber < head.frameNumber && maxTreeDepth < head.frameNumber - f.frameNumber

def insert (cfg : GlobalConfig) (W : World GlobalFrame) (now : Int) (st : TimeReel GlobalFrame GlobalClock)
    (f : GlobalFrame) : Option String × TimeReel GlobalFrame GlobalClock :=
  let R := reel cfg
  if (st.nodes.get (R.frameId f)).isSome then (none, st)
  else
    let st := TimeReel.noteEquivocations R st f
    if f.frameNumber = genesisFrameNumber cfg then insertGenesisFrame cfg W st f
    else if !cfg.archiveMode && st.root.isNone && st.nodes.entries.isEmpty then insertGenesisFrame cfg W st f
    else
      match st.findNodeBySelector R W f.parentSelector with
      | (none, st) => if isTooOld cfg st f then (none, st) else (none, st.withTree (st.addPendingFrame R f))
      | (some parent, st) => TimeReel.insertBelow R W now st f parent

def run (cfg : GlobalConfig) (W : World GlobalFrame) (calls : List (Int × GlobalFrame)) :
    TimeReel GlobalFrame GlobalClock :=
  calls.foldl (fun st call => (insert cfg W call.1 st call.2).2) (.new .empty)

/-- A reel in archive mode, for evaluating the model. -/
def plainConfig (network : Nat) : GlobalConfig where
  network := network
  archiveMode := true
  forkChoiceParams := ForkChoice.defaultForkChoiceParams
  poseidon := .padded

end GlobalTimeReel

def GlobalFrame.plain (frameNumber : Nat) (output : UInt8) (parent : Bytes) (bitmask : Option Bytes) : GlobalFrame where
  frameNumber := frameNumber
  timestamp := 0
  difficulty := 0
  output := [output]
  parentSelector := Digest.padded.sum parent
  bitmask := bitmask
  requests := []

/-! ### The reel of an app shard -/

/-- What `NewAppTimeReel` and `SetForkChoiceParams` set, the hash function, and the order of the field. -/
structure AppConfig where
  address : Bytes
  proverRegistry : ProverRegistry
  forkChoiceParams : ForkChoice.Params
  poseidon : Digest 32
  modulus : Int
  modulus_ne : modulus ≠ 0

namespace AppTimeReel

/-- `persistCanonicalFrames`: the numbers point to the frames that are staged under number and parent. -/
def persist (frames : List AppShardFrame) (clock : ShardClock) : ShardClock :=
  frames.foldl (fun clock f => clock.commit f.frameNumber f.parentSelector) clock

def reel (cfg : AppConfig) : Reel AppShardFrame ShardClock where
  frameNumber := AppShardFrame.frameNumber
  timestamp := AppShardFrame.timestamp
  output := AppShardFrame.output
  parentSelector := AppShardFrame.parentSelector
  bitmask := AppShardFrame.bitmask
  isEqual := isEqualAppFrame
  idText := AppShardFrame.idText
  poseidon := cfg.poseidon
  forkChoiceParams := cfg.forkChoiceParams
  toBranchFrame := AppShardFrame.toBranchFrame cfg.proverRegistry cfg.modulus cfg.address cfg.forkChoiceParams
  persist _ := persist
  skipsRewind _ := false
  advanceFrame _ chosen := chosen
  keepsPending := true

def stageFrame (st : TimeReel AppShardFrame ShardClock) (f : AppShardFrame) : TimeReel AppShardFrame ShardClock :=
  { st with store := st.store.stage f }

/-- `insertGenesisFrame`: the frame itself is persisted last, and a failure is not reported. -/
def insertGenesisFrame (cfg : AppConfig) (W : World AppShardFrame) (st : TimeReel AppShardFrame ShardClock)
    (f : AppShardFrame) : Option String × TimeReel AppShardFrame ShardClock :=
  let R := reel cfg
  if st.root.isSome then (some "genesis frame already exists", st)
  else
    let st := (TimeReel.plantHead R st f).sendEvent (.newHead f none)
    let st := TimeReel.releasePending R W st (R.frameId f)
    let st := TimeReel.pruneOldFrames R W st
    (none, (TimeReel.persistCanonicalFrames R W st [f]).2)

def insert (cfg : AppConfig) (W : World AppShardFrame) (now : Int) (st : TimeReel AppShardFrame ShardClock)
    (f : AppShardFrame) : Option String × TimeReel AppShardFrame ShardClock :=
  let R := reel cfg
  if f.address ≠ cfg.address then (some "frame address does not match reel address", st)
  else if (st.nodes.get (R.frameId f)).isSome then (none, st)
  else
    let st := TimeReel.noteEquivocations R st f
    let st := stageFrame st f
    if f.frameNumber = 0 then insertGenesisFrame cfg W st f
    else
      match st.findNodeBySelector R W f.parentSelector with
      | (none, st) => (none, st.withTree (st.addPendingFrame R f))
      | (some parent, st) => TimeReel.insertBelow R W now st f parent

def run (cfg : AppConfig) (W : World AppShardFrame) (calls : List (Int × AppShardFrame)) :
    TimeReel AppShardFrame ShardClock :=
  calls.foldl (fun st call => (insert cfg W call.1 st call.2).2) (.new .empty)

/-- A reel whose registry knows no prover, for evaluating the model. -/
def plainConfig : AppConfig where
  address := []
  proverRegistry := ⟨fun _ _ => none, fun _ _ => none⟩
  forkChoiceParams := ForkChoice.defaultForkChoiceParams
  poseidon := .padded
  modulus := 1
  modulus_ne := Int.one_ne_zero

end AppTimeReel

def AppShardFrame.plain (frameNumber : Nat) (output : UInt8) (parent : Bytes) (bitmask : Option Bytes) :
    AppShardFrame where
  address := []
  frameNumber := frameNumber
  timestamp := 0
  difficulty := 0
  output := [output]
  parentSelector := Digest.padded.sum parent
  prover := []
  bitmask := bitmask

end Quilibrium
