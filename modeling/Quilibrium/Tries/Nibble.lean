import Quilibrium.Lib.Radix

/-! # Keys as nibble paths

The helpers of `types/tries/proof_tree.go` that read a key as 6-bit nibbles. A position past the end of the key is
`none`. -/

namespace Quilibrium

abbrev Bytes := List UInt8

def branchNodes : Nat := 64
def branchBits : Nat := 6
def branchMask : Nat := branchNodes - 1

abbrev Nibble := Fin 64

/-- How a call of the Go code can fail to return. -/
inductive Fault where
  | indexOutOfRange
  | nilDereference
  | divideByZero
  | typeAssertion
  | diverges
  /-- A `log.Panic` of the code itself. -/
  | logPanic
  deriving DecidableEq, Repr

def toNibble (m : Nat) : Nibble :=
  ⟨m &&& branchMask, Nat.lt_succ_of_le Nat.and_le_right⟩

/-- The next `branchBits` bits of the key from bit `pos` on. A last nibble that the key does not fill
    is padded with zeros. -/
def getNextNibble (key : Bytes) (pos : Nat) : Option Nibble :=
  let startByte := pos / 8
  match key[startByte]? with
  | none => none
  | some current =>
    let startBit := pos % 8
    let bitsFromCurrentByte := 8 - startBit
    let result := current.toNat &&& ((1 <<< bitsFromCurrentByte) - 1)
    if branchBits ≤ bitsFromCurrentByte then
      some (toNibble (result >>> (bitsFromCurrentByte - branchBits)))
    else
      let result := result <<< (branchBits - bitsFromCurrentByte)
      match key[startByte + 1]? with
      | none => some (toNibble result)
      | some next =>
        let remainingBits := branchBits - bitsFromCurrentByte
        some (toNibble (result ||| (next.toNat >>> (8 - remainingBits))))

def getFullPathFrom (key : Bytes) : Nat → Nat → List Nibble
  | 0, _ => []
  | fuel + 1, depth =>
    match getNextNibble key depth with
    | none => []
    | some n1 => n1 :: getFullPathFrom key fuel (depth + branchBits)

/-- All nibbles of the key. A byte starts at most two nibbles, so the loop ends within the fuel. -/
def getFullPath (key : Bytes) : List Nibble := getFullPathFrom key (2 * key.length) 0

def getNibblesUntilDivergeFrom (key1 key2 : Bytes) : Nat → Nat → Except Fault (List Nibble × Nat)
  | 0, _ => .error .diverges
  | fuel + 1, depth =>
    let n1 := getNextNibble key1 depth
    let n2 := getNextNibble key2 depth
    if n1 ≠ n2 then .ok ([], depth)
    else
      match n1 with
      -- Past the end of both keys the two nibbles stay `-1`.
      | none => .error .diverges
      | some n1 => do
        let (nibbles, depth) ← getNibblesUntilDivergeFrom key1 key2 fuel (depth + branchBits)
        .ok (n1 :: nibbles, depth)

/-- The nibbles that both keys share from `startDepth` on, and the depth at which they part. -/
def getNibblesUntilDiverge (key1 key2 : Bytes) (startDepth : Nat) : Except Fault (List Nibble × Nat) :=
  getNibblesUntilDivergeFrom key1 key2 (2 * key1.length + 1) startDepth

/-- The loops over a branch's prefix: the first position at which the key leaves it, with the nibble
    expected there and the actual one. -/
def prefixMismatch (key : Bytes) (depth : Nat) : List Nibble → Nat → Option (Nat × Nibble × Option Nibble)
  | [], _ => none
  | expectedNibble :: rest, i =>
    let actualNibble := getNextNibble key (depth + i * branchBits)
    if actualNibble ≠ some expectedNibble then some (i, expectedNibble, actualNibble)
    else prefixMismatch key depth rest (i + 1)

end Quilibrium
