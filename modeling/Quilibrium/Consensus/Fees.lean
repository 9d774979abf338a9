import Mathlib.Algebra.Group.Int.Defs
import Mathlib.Algebra.Group.Nat.Defs
import Quilibrium.Crypto

/-! # Fee votes

`adjustFeeForTraffic` of `node/consensus/app/app_consensus_engine.go`, the check of the voters in `DecideAndSendVote`,
and the averages of `node/consensus/fees/dynamic_fee_manager.go`. -/

namespace Quilibrium

/-- The value of an `int64` computation, which wraps around. -/
def wrapInt64 (x : Int) : Int := x.bmod (2 ^ 64)

def toUint64 (x : Int) : Nat := (x % 2 ^ 64).toNat

/-- What the adjustment reads: whether the reward strategy is "reward-greedy", number and timestamp of the head, and the
    timestamp of the frame before it, as far as they are there. -/
structure FeeSource where
  rewardGreedy : Bool
  head : Option (Nat × Int)
  previous : Option Int

/-- The milliseconds between frames that are aimed at. -/
def targetTime : Int := 10000

def percentOff (deviation : Int) : Int := min 10 ((wrapInt64 (wrapInt64 deviation * 100)).tdiv targetTime)

/-- The share of the fee, with the product in 64 bits. -/
def feeAdjustment (baseFee : Nat) (percent : Int) : Nat := baseFee * toUint64 percent % 2 ^ 64 / 100

def feeAfter (baseFee : Nat) (timeDiff : Int) : Nat :=
  if timeDiff < targetTime then
    max 1 ((baseFee + (2 ^ 64 - feeAdjustment baseFee (percentOff (targetTime - timeDiff)))) % 2 ^ 64)
  else if targetTime < timeDiff then
    (baseFee + feeAdjustment baseFee (percentOff (timeDiff - targetTime))) % 2 ^ 64
  else baseFee

/-- The time between the last two frames, if the fee is adjusted. -/
def FeeSource.timeDiff (source : FeeSource) : Option Int :=
  match source.rewardGreedy, source.head, source.previous with
  | true, some (number, current), some previous => if number ≤ 1 then none else some (wrapInt64 (current - previous))
  | _, _, _ => none

def FeeSource.adjustFeeForTraffic (source : FeeSource) (baseFee : Nat) : Nat :=
  match source.timeDiff with
  | none => baseFee
  | some timeDiff => feeAfter baseFee timeDiff

def feeAcceptable (baseFee proposedFee : Nat) : Bool :=
  let maxIncrease := (baseFee + baseFee / 10) % 2 ^ 64
  let minDecrease := max 1 (baseFee - baseFee / 10)
  !(maxIncrease < proposedFee || proposedFee < minDecrease)

/-! ### The fee manager -/

def maxWindowSize : Nat := 360

def defaultFeeMultiplier : UInt64 := 100

structure FeeVote where
  frameNumber : Nat
  feeMultiplierVote : UInt64
  deriving DecidableEq, Repr

/-- The sliding window of votes, newest at the end, and their running sum. -/
structure FilterFeeData where
  votes : List FeeVote
  sumVotes : UInt64

/-- The data of each filter. The times of the updates, which only pruning reads, are left out. -/
abbrev DynamicFeeManager := Bytes → Option FilterFeeData

namespace DynamicFeeManager

def new : DynamicFeeManager := fun _ => none

/-- A window that has become too long loses its oldest vote. -/
def slide : FilterFeeData → FilterFeeData
  | ⟨old :: votes, sumVotes⟩ =>
    if maxWindowSize < (old :: votes).length then ⟨votes, sumVotes - old.feeMultiplierVote⟩ else ⟨old :: votes, sumVotes⟩
  | data => data

def addFrameFeeVote (d : DynamicFeeManager) (filter : Bytes) (vote : FeeVote) : DynamicFeeManager × Option String :=
  let data := (d filter).getD ⟨[], 0⟩
  match data.votes.getLast?.filter fun last => vote.frameNumber ≤ last.frameNumber with
  | some last => (d, some ("frame " ++ toString vote.frameNumber ++ " is not newer than last frame " ++
      toString last.frameNumber))
  | none =>
    (Function.update d filter (some (slide ⟨data.votes ++ [vote], data.sumVotes + vote.feeMultiplierVote⟩)), none)

def getNextFeeMultiplier (d : DynamicFeeManager) (filter : Bytes) : UInt64 :=
  let data := (d filter).getD ⟨[], 0⟩
  if data.votes.isEmpty then defaultFeeMultiplier else data.sumVotes / UInt64.ofNat data.votes.length

/-- The votes that stay: the loop stops at the first newer vote, at index 0 also if there is none. -/
def keepIndex (votes : List FeeVote) (frameNumber : Nat) : Nat :=
  let first := (votes.findIdx? fun vote => frameNumber < vote.frameNumber).getD 0
  if first = 0 && votes.getLast?.any (·.frameNumber ≤ frameNumber) then votes.length else first

/-- `RewindToFrame`, with the number of removed votes. -/
def rewindToFrame (d : DynamicFeeManager) (filter : Bytes) (frameNumber : Nat) : DynamicFeeManager × Nat :=
  let data := (d filter).getD ⟨[], 0⟩
  let keep := keepIndex data.votes frameNumber
  if data.votes.isEmpty || keep = data.votes.length then (d, 0)
  else
    let sumVotes := (data.votes.drop keep).foldl (fun sum vote => sum - vote.feeMultiplierVote) data.sumVotes
    (Function.update d filter (some ⟨data.votes.take keep, sumVotes⟩), data.votes.length - keep)

def addVotes (d : DynamicFeeManager) (filter : Bytes) (votes : List FeeVote) : DynamicFeeManager :=
  votes.foldl (fun d vote => (d.addFrameFeeVote filter vote).1) d

end DynamicFeeManager

end Quilibrium
