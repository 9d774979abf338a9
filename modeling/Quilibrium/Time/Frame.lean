import Mathlib.Data.Nat.Bitwise
import Quilibrium.Time.ForkChoice
import Quilibrium.Tries.Serialize

/-! # Frames of the time reels

The frames of `consensus/time`, their IDs, the signer bitmasks (`consensus/time/utils.go`), and what a frame weighs in
the fork choice. -/

namespace Quilibrium

/-! ### Bitmasks -/

/-- Byte `i` of a mask: masks of different lengths are filled up with zeros. -/
def maskByte (mask : Bytes) (i : Nat) : UInt8 := mask.getD i 0

/-- `b & (1 << bit) != 0`. -/
def hasBit (b : UInt8) (bit : Nat) : Bool := b.toNat.testBit bit

/-- The positions `i*8+bit` of the bits that are set in the first `n` bytes. -/
def bitPositions (n : Nat) (byte : Nat → UInt8) : List Nat :=
  (List.range n).flatMap fun i => ((List.range 8).filter fun bit => hasBit (byte i) bit).map fun bit => i * 8 + bit

def overlappingBits (a b : Bytes) : List Nat :=
  bitPositions (max a.length b.length) fun i => maskByte a i &&& maskByte b i

/-- `hasOverlappingBits` and `hasOverlappingAppBits` of two signatures' bitmasks. -/
def hasOverlappingBits : Option Bytes → Option Bytes → Bool
  | some a, some b => (List.range (max a.length b.length)).any fun i => maskByte a i &&& maskByte b i ≠ 0
  | _, _ => false

/-- Frame number and bit position of the signers that equivocated. -/
abbrev Equivocators := Nat → Nat → Bool

def Equivocators.mark (e : Equivocators) (frameNumber : Nat) (bits : List Nat) : Equivocators := fun n pos =>
  e n pos || (decide (n = frameNumber) && bits.contains pos)

/-- The signers of a frame that count: those that did not equivocate at its height. -/
def countedBits (e : Equivocators) (frameNumber : Nat) (mask : Bytes) : List Nat :=
  (bitPositions mask.length (maskByte mask)).filter fun pos => !e frameNumber pos

/-- `computeFrameSeniority`: proportional to the number of signers, in 64 bits. -/
def computeFrameSeniority (e : Equivocators) (frameNumber : Nat) : Option Bytes → Nat
  | none => ForkChoice.scale / 64
  | some mask =>
    let bitCount := (countedBits e frameNumber mask).length
    if bitCount = 0 then 0 else ForkChoice.scale / 64 * bitCount % 2 ^ 64

/-! ### Texts -/

def decimal (n : Nat) : Bytes := (Nat.toDigits 10 n).map fun c => UInt8.ofNat c.toNat

def decimalInt (z : Int) : Bytes := if z < 0 then 0x2d :: decimal z.natAbs else decimal z.natAbs

/-- `%x`. -/
def hexadecimal (b : Bytes) : Bytes :=
  b.flatMap fun x => [x.toNat / 16, x.toNat % 16].map fun d => UInt8.ofNat (Nat.digitChar d).toNat

def colonSeparated : List Bytes → Bytes := [0x3a].intercalate

/-! ### Global frames -/

/-- A `GlobalFrame`: what the reel reads of its header, with the bitmask of its signature if it has one, and its
    requests. -/
structure GlobalFrame where
  frameNumber : Nat
  timestamp : Int
  difficulty : Nat
  output : Bytes
  parentSelector : Bytes
  bitmask : Option Bytes
  requests : List Bytes
  deriving Repr

instance GlobalFrame.instDecidableEq : DecidableEq GlobalFrame := fun a b =>
  decidable_of_iff (a.frameNumber = b.frameNumber ∧ a.timestamp = b.timestamp ∧ a.difficulty = b.difficulty ∧
      a.output = b.output ∧ a.parentSelector = b.parentSelector ∧ a.bitmask = b.bitmask ∧ a.requests = b.requests) (by
    cases a
    cases b
    simp)

def isEqualGlobalFrame (a b : GlobalFrame) : Bool :=
  decide (a.frameNumber = b.frameNumber) && decide (a.timestamp = b.timestamp) && decide (a.difficulty = b.difficulty) &&
    decide (a.output = b.output) && decide (a.parentSelector = b.parentSelector)

namespace GlobalFrame

def idText (f : GlobalFrame) : Bytes :=
  colonSeparated [decimal f.frameNumber, decimalInt f.timestamp, hexadecimal f.output, hexadecimal f.parentSelector]

/-- The frame in a branch: the output stands for the prover, and no frame is distant. -/
def toBranchFrame (e : Equivocators) (f : GlobalFrame) : ForkChoice.Frame where
  distance := 0
  seniority := computeFrameSeniority e f.frameNumber f.bitmask
  proverAddress := f.output.take 32

end GlobalFrame

/-! ### Frames of an app shard -/

structure AppShardFrame where
  address : Bytes
  frameNumber : Nat
  timestamp : Int
  difficulty : Nat
  output : Bytes
  parentSelector : Bytes
  prover : Bytes
  bitmask : Option Bytes
  deriving Repr

instance AppShardFrame.instDecidableEq : DecidableEq AppShardFrame := fun a b =>
  decidable_of_iff (a.address = b.address ∧ a.frameNumber = b.frameNumber ∧ a.timestamp = b.timestamp ∧
      a.difficulty = b.difficulty ∧ a.output = b.output ∧ a.parentSelector = b.parentSelector ∧ a.prover = b.prover ∧
      a.bitmask = b.bitmask) (by
    cases a
    cases b
    simp)

def isEqualAppFrame (a b : AppShardFrame) : Bool :=
  decide (a.address = b.address) && decide (a.frameNumber = b.frameNumber) && decide (a.timestamp = b.timestamp) &&
    decide (a.difficulty = b.difficulty) && decide (a.output = b.output) && decide (a.parentSelector = b.parentSelector) &&
    decide (a.prover = b.prover)

/-- The calls of the `ProverRegistry` that the reel makes; they may fail. -/
structure ProverRegistry where
  getNextProver : Bytes → Bytes → Option Bytes
  getOrderedProvers : Bytes → Bytes → Option (List Bytes)

/-- `AbsoluteModularMinimumDistance` of `utils/math.go`. -/
def absoluteModularMinimumDistance (target key modulus : Int) : Int :=
  let diff : Int := (target - key).natAbs
  let modComplement := modulus - diff
  if modComplement < diff then modComplement else diff

def copy32 (b : Bytes) : Bytes := (b ++ List.replicate 32 0).take 32

namespace AppShardFrame

def idText (f : AppShardFrame) : Bytes :=
  colonSeparated [hexadecimal f.address, decimal f.frameNumber, decimalInt f.timestamp, hexadecimal f.output,
    hexadecimal f.parentSelector]

def isExpectedProver (registry : ProverRegistry) (address : Bytes) (f : AppShardFrame) : Bool :=
  match registry.getNextProver (copy32 f.parentSelector) address with
  | none => false
  | some expected =>
    decide (expected = f.prover) ||
      match registry.getOrderedProvers (copy32 f.parentSelector) address with
      | some (first :: _) => decide (first = f.prover)
      | _ => false

/-- `computeFrameDistance`. `modulus` is the order of the field (`RMaxDenom`). -/
def computeFrameDistance (registry : ProverRegistry) (modulus : Int) (address : Bytes) (params : ForkChoice.Params)
    (f : AppShardFrame) : Int :=
  if f.frameNumber = 0 then 0
  else if f.isExpectedProver registry address then 0
  else
    let rawDist := absoluteModularMinimumDistance (natOfBE f.prover) (natOfBE (copy32 f.parentSelector)) modulus
    (rawDist * params.rMax).tdiv modulus

def toBranchFrame (registry : ProverRegistry) (modulus : Int) (address : Bytes) (params : ForkChoice.Params)
    (e : Equivocators) (f : AppShardFrame) : ForkChoice.Frame where
  distance := f.computeFrameDistance registry modulus address params
  seniority := computeFrameSeniority e f.frameNumber f.bitmask
  proverAddress := f.prover

end AppShardFrame

end Quilibrium
