import Mathlib.Data.Rat.Floor
import Quilibrium.Consensus.Fees
import Quilibrium.Tries.Nibble

/-! # Reward issuance

The three implementations of `Calculate` in `node/consensus/reward`. Decimals are rational numbers, and a map is the list
of its values in the order of a loop over it. -/

namespace Quilibrium

/-- The decimal library: how a quotient is rounded, `PowWithPrecision`, which may fail, and its square roots. -/
structure DecimalMath where
  round : ℚ → ℚ
  pow : ℚ → ℚ → Option ℚ
  sqrt : Nat → ℚ
  round_mono : Monotone round
  round_zero : round 0 = 0
  pow_nonneg : ∀ {x y result}, 0 ≤ x → pow x y = some result → 0 ≤ result
  sqrt_nonneg : ∀ n, 0 ≤ sqrt n

structure ProverAllocation where
  ring : UInt8
  shards : Nat
  stateSize : Nat

/-- `BigInt` of a decimal. -/
def truncate (q : ℚ) : Int := if 0 ≤ q then ⌊q⌋ else ⌈q⌉

def generation (difflog : Nat) : Nat := if 10000 ≤ difflog then generation (difflog / 10000) + 1 else 0
decreasing_by omega

/-- The divisor of a ring. The counter of the loop is a `uint8`, and so is its bound. -/
def ringDivisor (ring : UInt8) : Int := (List.range (ring + 1).toNat).foldl (fun divisor _ => wrapInt64 (divisor * 2)) 1

/-- The table of divisors of the variant with fewer allocations. Its last entry is not set. -/
def ringDivisors (i : UInt8) : Int := if i = 255 then 0 else wrapInt64 (2 ^ i.toNat)

/-- The sum of the rewards of a prover, up to the first that fails. -/
def addRewards {β : Type} (add : β → ℚ → β) : β → List (Except Fault (Except String ℚ)) → Except Fault (Except String β)
  | output, [] => .ok (.ok output)
  | output, reward :: rewards => do
    match ← reward with
    | .error err => .ok (.error err)
    | .ok result => addRewards add (add output result) rewards

def addTruncated : Int → List (Except Fault (Except String ℚ)) → Except Fault (Except String Int) :=
  addRewards fun output result => output + truncate result

namespace DecimalMath

variable (m : DecimalMath)

def pomwBasis (difficulty worldStateBytes units : Nat) : Except Fault Int :=
  if worldStateBytes = 0 then .error .divideByZero
  else
    match m.pow (m.round (1125899906842624 / worldStateBytes)) (m.round (1 / 2 ^ generation difficulty)) with
    | none => .ok 0
    | some result => .ok (truncate (result * units))

/-- What an allocation earns, for the divisor of its ring and the root of its number of shards. -/
def share (basis : Int) (worldStateBytes : Nat) (divisor : Int) (shardFactor : ℚ) (stateSize : Nat) : ℚ :=
  m.round (m.round (m.round (stateSize / worldStateBytes) * basis / divisor) / shardFactor)

def reward (basis : Int) (worldStateBytes : Nat) (divisor : Int) (shardFactor : ℚ) (stateSize : Nat) :
    Except Fault (Except String ℚ) :=
  if divisor = 0 then .error .divideByZero
  else if shardFactor = 0 then .ok (.error "divisor is zero")
  else .ok (.ok (m.share basis worldStateBytes divisor shardFactor stateSize))

/-- The frame of all three: every prover is dealt with, and then the first error is returned. -/
def issue {α : Type} (difficulty worldStateBytes units : Nat) (rewardOf : Int → α → Except Fault (Except String Int))
    (provers : List α) : Except Fault (Except String (List Int)) := do
  let basis ← m.pomwBasis difficulty worldStateBytes units
  let output ← provers.mapM (rewardOf basis)
  .ok ((output.mapM id).mapError ("calculate: " ++ ·))

def rewards (worldStateBytes : Nat) (basis : Int) (prover : List ProverAllocation) : List (Except Fault (Except String ℚ)) :=
  prover.map fun alloc => m.reward basis worldStateBytes (ringDivisor alloc.ring) (m.sqrt alloc.shards) alloc.stateSize

/-- `ProofOfMeaningfulWorkRewardIssuance`. -/
def calculate (difficulty worldStateBytes units : Nat) : List (List ProverAllocation) → Except Fault (Except String (List Int)) :=
  m.issue difficulty worldStateBytes units fun basis prover => addTruncated 0 (m.rewards worldStateBytes basis prover)

/-- `sqrtCache`, which has nothing but roots. -/
structure SqrtCache where
  entries : Nat → Option ℚ
  sound : ∀ {shards root}, entries shards = some root → root = m.sqrt shards

def SqrtCache.getSqrt {m : DecimalMath} (cache : m.SqrtCache) (shards : Nat) : ℚ := (cache.entries shards).getD (m.sqrt shards)

/-- `OptimizedProofOfMeaningfulWorkRewardIssuance`. The provers share a cache, so that each allocation comes with what
    it finds there. -/
def optimizedCalculate (difficulty worldStateBytes units : Nat) : List (List (ProverAllocation × m.SqrtCache)) →
    Except Fault (Except String (List Int)) :=
  m.issue difficulty worldStateBytes units fun basis prover =>
    addTruncated 0 (prover.map fun (alloc, cache) =>
      m.reward basis worldStateBytes (ringDivisor alloc.ring) (cache.getSqrt alloc.shards) alloc.stateSize)

/-- `MinimalAllocationOptimizedProofOfMeaningfulWorkRewardIssuance`, which adds up decimals. -/
def minimalCalculate (cache : m.SqrtCache) (difficulty worldStateBytes units : Nat) :
    List (List ProverAllocation) → Except Fault (Except String (List Int)) :=
  m.issue difficulty worldStateBytes units fun basis prover => do
    let accumulator ← addRewards (· + ·) 0 (prover.map fun alloc =>
      m.reward basis worldStateBytes (ringDivisors (alloc.ring + 1)) (cache.getSqrt alloc.shards) alloc.stateSize)
    .ok (accumulator.map truncate)

end DecimalMath

end Quilibrium
