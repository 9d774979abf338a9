import Quilibrium.Lib.Layout
import Quilibrium.Theorems.Requests

/-! What the signature payload of a header determines: the fields are concatenated without their lengths. -/

namespace Quilibrium
open Except List

/-! ### Numbers -/

theorem int64BE_inj {m n : Int} (h : int64BE m = int64BE n) (hm : -2 ^ 63 ≤ m ∧ m < 2 ^ 63)
    (hn : -2 ^ 63 ≤ n ∧ n < 2 ^ 63) : m = n := by
  have heq := uint64BE_inj h (by omega) (by omega)
  omega

theorem uint32BE_inj_of_lt {m n : Nat} (h : uint32BE m = uint32BE n) (hm : m < 2 ^ 32) (hn : n < 2 ^ 32) : m = n := by
  have hmod := uint32BE_inj h
  rwa [Nat.mod_eq_of_lt hm, Nat.mod_eq_of_lt hn] at hmod

def onesNumber : Nat := 0x0101010101010101

def onesLike (segment : Bytes) : Bytes := replicate segment.length 1

theorem isRootLength_onesLike (root : Bytes) : isRootLength (onesLike root) = isRootLength root := by
  rw [isRootLength, onesLike, length_replicate, isRootLength]

theorem all_isRootLength_onesLike {roots : List Bytes} (h : roots.all isRootLength = true) :
    (roots.map onesLike).all isRootLength = true := by
  rw [all_map, ← h]
  exact congrArg roots.all (funext isRootLength_onesLike)

theorem onesLike_ne_nil {segment : Bytes} (h : segment ≠ []) : onesLike segment ≠ [] := by
  rw [onesLike, Ne, replicate_eq_nil_iff, length_eq_zero_iff]
  exact h

/-! ### Headers of app shards -/

namespace FrameHeader

def segments (h : FrameHeader) : List Bytes :=
  [h.address, uint64BE h.frameNumber, int64BE h.timestamp, uint32BE h.difficulty, uint64BE h.feeMultiplierVote,
    h.parentSelector, h.requestsRoot] ++ h.stateRoots ++ [h.prover]

def covered (h : FrameHeader) : FrameHeader := { h with publicKeySignature := none }

/-- The ranges of the Go types, and the length checks of `VerifyFrameHeader` with those of the payload. -/
structure Checked (h : FrameHeader) : Prop where
  frameNumber : h.frameNumber < 2 ^ 64
  timestamp : -2 ^ 63 ≤ h.timestamp ∧ h.timestamp < 2 ^ 63
  difficulty : h.difficulty < 2 ^ 32
  feeMultiplierVote : h.feeMultiplierVote < 2 ^ 64
  address : h.address ≠ []
  requestsRoot : isRootLength h.requestsRoot = true
  stateRootsCount : h.stateRoots.length = 4
  stateRoots : h.stateRoots.all isRootLength = true
  prover : h.prover ≠ []
  parentSelector : h.parentSelector.length = 32
  output : h.output.length = 516

theorem Checked.covered_eq {h h' : FrameHeader} (hc : h.Checked) (hc' : h'.Checked) (hs : h.segments = h'.segments)
    (ho : h.output = h'.output) : h.covered = h'.covered := by
  simp only [segments, cons_append, nil_append, cons.injEq] at hs
  obtain ⟨hadr, hnum, hts, hdf, hvt, hsel, hrq, hrs⟩ := hs
  obtain ⟨hrt, hprv⟩ := append_inj hrs (hc.stateRootsCount.trans hc'.stateRootsCount.symm)
  simp [covered, hadr, uint64BE_inj hnum hc.frameNumber hc'.frameNumber, int64BE_inj hts hc.timestamp hc'.timestamp,
    uint32BE_inj_of_lt hdf hc.difficulty hc'.difficulty, uint64BE_inj hvt hc.feeMultiplierVote hc'.feeMultiplierVote, ho,
    hsel, hrq, hrt, singleton_inj.mp hprv]

/-- A header whose fields are bytes one, of the lengths of another header. -/
def ones (h : FrameHeader) : FrameHeader where
  address := onesLike h.address
  frameNumber := onesNumber
  timestamp := onesNumber
  difficulty := 0x01010101
  output := replicate 516 1
  parentSelector := onesLike h.parentSelector
  requestsRoot := onesLike h.requestsRoot
  stateRoots := h.stateRoots.map onesLike
  prover := onesLike h.prover
  feeMultiplierVote := onesNumber
  publicKeySignature := none

theorem Checked.ones {h : FrameHeader} (hc : h.Checked) : h.ones.Checked where
  frameNumber := show onesNumber < 2 ^ 64 by decide
  timestamp := show -2 ^ 63 ≤ (onesNumber : Int) ∧ (onesNumber : Int) < 2 ^ 63 by decide
  difficulty := show 0x01010101 < 2 ^ 32 by decide
  feeMultiplierVote := show onesNumber < 2 ^ 64 by decide
  address := onesLike_ne_nil hc.address
  requestsRoot := (isRootLength_onesLike _).trans hc.requestsRoot
  stateRootsCount := (length_map _).trans hc.stateRootsCount
  stateRoots := all_isRootLength_onesLike hc.stateRoots
  prover := onesLike_ne_nil hc.prover
  parentSelector := length_replicate.trans hc.parentSelector
  output := length_replicate

def layout : Layout UInt8 FrameHeader where
  segments := segments
  beside := output
  covered := covered
  Checked := Checked
  covered_eq := Checked.covered_eq
  segments_covered _ := rfl
  symbol := 1
  constant := ones
  segments_constant h := by
    simp only [segments, ones, map_append, map_cons, map_nil]
    rfl
  beside_constant _ _ := rfl
  checked_constant := Checked.ones

/-- Headers with the lengths of these two are told apart by their payloads. -/
def Unambiguous (g g' : FrameHeader) : Prop :=
  ∀ h h' : FrameHeader, h.Checked → h'.Checked → layout.lengths h = layout.lengths g →
    layout.lengths h' = layout.lengths g' → h.preimage = h'.preimage → h.output = h'.output → h.covered = h'.covered

theorem preimage_eq (h : FrameHeader) : layout.concatenation h = h.preimage := by
  simp [Layout.concatenation, layout, segments, preimage]

theorem unambiguous_iff {g g' : FrameHeader} (hg : g.Checked) (hg' : g'.Checked) :
    Unambiguous g g' ↔ layout.lengths g = layout.lengths g' ∨ g.preimage.length ≠ g'.preimage.length := by
  have hiff := layout.unambiguous_iff hg hg'
  simp only [Layout.Unambiguous, preimage_eq] at hiff
  exact hiff

end FrameHeader

/-! ### Headers of global frames -/

namespace GlobalFrameHeader

def segments (h : GlobalFrameHeader) : List Bytes :=
  [uint64BE h.frameNumber, int64BE h.timestamp, uint32BE h.difficulty, h.parentSelector] ++ h.globalCommitments ++
    [h.proverTreeCommitment]

def covered (h : GlobalFrameHeader) : GlobalFrameHeader := { h with publicKeySignature := none }

/-- The ranges of the Go types, and the length checks of `VerifyGlobalFrameHeader` with those of the payload. -/
structure Checked (h : GlobalFrameHeader) : Prop where
  frameNumber : h.frameNumber < 2 ^ 64
  timestamp : -2 ^ 63 ≤ h.timestamp ∧ h.timestamp < 2 ^ 63
  difficulty : h.difficulty < 2 ^ 32
  globalCommitmentsCount : h.globalCommitments.length = 256
  globalCommitments : h.globalCommitments.all isRootLength = true
  proverTreeCommitment : isRootLength h.proverTreeCommitment = true
  parentSelector : h.parentSelector.length = 32
  output : h.output.length = 516

theorem Checked.covered_eq {h h' : GlobalFrameHeader} (hc : h.Checked) (hc' : h'.Checked)
    (hs : h.segments = h'.segments) (ho : h.output = h'.output) : h.covered = h'.covered := by
  simp only [segments, cons_append, nil_append, cons.injEq] at hs
  obtain ⟨hnum, hts, hdf, hsel, hrs⟩ := hs
  obtain ⟨hcm, hprv⟩ := append_inj hrs (hc.globalCommitmentsCount.trans hc'.globalCommitmentsCount.symm)
  simp [covered, uint64BE_inj hnum hc.frameNumber hc'.frameNumber, int64BE_inj hts hc.timestamp hc'.timestamp,
    uint32BE_inj_of_lt hdf hc.difficulty hc'.difficulty, ho, hsel, hcm, singleton_inj.mp hprv]

def ones (h : GlobalFrameHeader) : GlobalFrameHeader where
  frameNumber := onesNumber
  timestamp := onesNumber
  difficulty := 0x01010101
  output := replicate 516 1
  parentSelector := onesLike h.parentSelector
  globalCommitments := h.globalCommitments.map onesLike
  proverTreeCommitment := onesLike h.proverTreeCommitment
  publicKeySignature := none

theorem Checked.ones {h : GlobalFrameHeader} (hc : h.Checked) : h.ones.Checked where
  frameNumber := show onesNumber < 2 ^ 64 by decide
  timestamp := show -2 ^ 63 ≤ (onesNumber : Int) ∧ (onesNumber : Int) < 2 ^ 63 by decide
  difficulty := show 0x01010101 < 2 ^ 32 by decide
  globalCommitmentsCount := (length_map _).trans hc.globalCommitmentsCount
  globalCommitments := all_isRootLength_onesLike hc.globalCommitments
  proverTreeCommitment := (isRootLength_onesLike _).trans hc.proverTreeCommitment
  parentSelector := length_replicate.trans hc.parentSelector
  output := length_replicate

def layout : Layout UInt8 GlobalFrameHeader where
  segments := segments
  beside := output
  covered := covered
  Checked := Checked
  covered_eq := Checked.covered_eq
  segments_covered _ := rfl
  symbol := 1
  constant := ones
  segments_constant h := by
    simp only [segments, ones, map_append, map_cons, map_nil]
    rfl
  beside_constant _ _ := rfl
  checked_constant := Checked.ones

def Unambiguous (g g' : GlobalFrameHeader) : Prop :=
  ∀ h h' : GlobalFrameHeader, h.Checked → h'.Checked → layout.lengths h = layout.lengths g →
    layout.lengths h' = layout.lengths g' → h.preimage = h'.preimage → h.output = h'.output → h.covered = h'.covered

theorem preimage_eq (h : GlobalFrameHeader) : layout.concatenation h = h.preimage := by
  simp [Layout.concatenation, layout, segments, preimage]

theorem unambiguous_iff {g g' : GlobalFrameHeader} (hg : g.Checked) (hg' : g'.Checked) :
    Unambiguous g g' ↔ layout.lengths g = layout.lengths g' ∨ g.preimage.length ≠ g'.preimage.length := by
  have hiff := layout.unambiguous_iff hg hg'
  simp only [Layout.Unambiguous, preimage_eq] at hiff
  exact hiff

end GlobalFrameHeader

/-! ### Accepted headers -/

section Accepted
variable {c : FrameCrypto} {mask : List UInt8} {payload : Bytes}

theorem FrameHeader.payload_lengths {h : FrameHeader} (hpay : h.getFrameSignaturePayload c = .ok payload) :
    h.parentSelector.length = 32 ∧ h.output.length = 516 := by
  rw [getFrameSignaturePayload] at hpay
  split_ifs at hpay with hs ho
  exact ⟨not_ne_iff.mp hs, not_ne_iff.mp ho⟩

theorem GlobalFrameHeader.payload_lengths {h : GlobalFrameHeader}
    (hpay : h.getGlobalFrameSignaturePayload c = .ok payload) :
    h.parentSelector.length = 32 ∧ h.output.length = 516 := by
  rw [getGlobalFrameSignaturePayload] at hpay
  split_ifs at hpay with hs ho
  exact ⟨not_ne_iff.mp hs, not_ne_iff.mp ho⟩

theorem FrameHeader.checked_of_verify {h : FrameHeader} (hnum : h.frameNumber < 2 ^ 64)
    (hts : -2 ^ 63 ≤ h.timestamp ∧ h.timestamp < 2 ^ 63) (hdf : h.difficulty < 2 ^ 32)
    (hvt : h.feeMultiplierVote < 2 ^ 64) (hgen : h.frameNumber ≠ 0)
    (hv : h.verifyFrameHeader c = .ok (.ok mask)) : h.Checked := by
  rw [verifyFrameHeader] at hv
  split at hv
  · cases ok.inj hv
  next hadr =>
  split at hv
  · cases ok.inj hv
  next hrq =>
  split at hv
  · cases ok.inj hv
  next hcn =>
  split at hv
  · cases ok.inj hv
  next hrt =>
  split at hv
  · cases ok.inj hv
  next hprv =>
  split at hv
  · cases ok.inj hv
  next payload hpay =>
  obtain ⟨hs, ho⟩ := payload_lengths hpay
  exact {
    frameNumber := hnum
    timestamp := hts
    difficulty := hdf
    feeMultiplierVote := hvt
    address := by simpa using hadr
    requestsRoot := by simpa using hrq
    stateRootsCount := not_ne_iff.mp hcn
    stateRoots := by simpa using hrt
    prover := by simpa using hprv
    parentSelector := hs
    output := ho }

theorem GlobalFrameHeader.checked_of_verify {h : GlobalFrameHeader} (hnum : h.frameNumber < 2 ^ 64)
    (hts : -2 ^ 63 ≤ h.timestamp ∧ h.timestamp < 2 ^ 63) (hdf : h.difficulty < 2 ^ 32)
    (hv : h.verifyGlobalFrameHeader c = .ok mask) : h.Checked := by
  rw [verifyGlobalFrameHeader] at hv
  split at hv
  · cases hv
  split at hv
  · cases hv
  split at hv
  · cases hv
  next hcn =>
  split at hv
  · cases hv
  next hfn =>
  split at hv
  · cases hv
  next hprv =>
  split at hv
  · cases hv
  next payload hpay =>
  obtain ⟨hs, ho⟩ := payload_lengths hpay
  exact {
    frameNumber := hnum
    timestamp := hts
    difficulty := hdf
    globalCommitmentsCount := not_ne_iff.mp hcn
    globalCommitments := by simpa using hfn
    proverTreeCommitment := by simpa using hprv
    parentSelector := hs
    output := ho }

end Accepted

/-! ### Payloads -/

/-- Among checked headers with two lists of field lengths, hashed bytes and output determine the covered fields
    exactly if the lists are equal or have different sums. -/
theorem payload_unambiguous_iff {g g' : FrameHeader} {k k' : GlobalFrameHeader} (hg : g.Checked) (hg' : g'.Checked)
    (hk : k.Checked) (hk' : k'.Checked) : (g.Unambiguous g' ↔
      FrameHeader.layout.lengths g = FrameHeader.layout.lengths g' ∨ g.preimage.length ≠ g'.preimage.length) ∧
    (k.Unambiguous k' ↔ GlobalFrameHeader.layout.lengths k = GlobalFrameHeader.layout.lengths k' ∨
        k.preimage.length ≠ k'.preimage.length) :=
  ⟨FrameHeader.unambiguous_iff hg hg', GlobalFrameHeader.unambiguous_iff hk hk'⟩

def FrameHeader.sample (rootLengths : List Nat) : FrameHeader where
  address := replicate 32 1
  frameNumber := onesNumber
  timestamp := onesNumber
  difficulty := 0x01010101
  output := replicate 516 1
  parentSelector := replicate 32 1
  requestsRoot := replicate 64 1
  stateRoots := rootLengths.map (replicate · 1)
  prover := replicate 32 1
  feeMultiplierVote := onesNumber
  publicKeySignature := none

def GlobalFrameHeader.sample (lengths : List Nat) : GlobalFrameHeader where
  frameNumber := onesNumber
  timestamp := onesNumber
  difficulty := 0x01010101
  output := replicate 516 1
  parentSelector := replicate 32 1
  globalCommitments := (lengths ++ replicate (256 - lengths.length) 64).map (replicate · 1)
  proverTreeCommitment := replicate 64 1
  publicKeySignature := some ⟨some (replicate 74 1), some (replicate 585 1), none⟩

/-- A verifier that accepts every proof and signature. -/
def lenientCrypto : FrameCrypto where
  sha3 := .zeros 32
  wesolowskiVerify _ _ _ := true
  bls := ⟨.ok [], fun _ _ => .ok [], fun _ _ _ _ => true⟩

instance instDecidableEqSigners : DecidableEq (Except String (List UInt8))
  | .ok a, .ok b => decidable_of_iff (a = b) (by simp)
  | .error a, .error b => decidable_of_iff (a = b) (by simp)
  | .ok _, .error _ => isFalse (by simp)
  | .error _, .ok _ => isFalse (by simp)

theorem FrameHeader.sample_checked : (sample [64, 64, 64, 64]).Checked := by
  have hv : (sample [64, 64, 64, 64]).verifyFrameHeader lenientCrypto = .ok (.ok []) := by decide +kernel
  exact checked_of_verify (by decide) (by decide) (by decide) (by decide) (by decide) hv

theorem GlobalFrameHeader.sample_checked : (sample []).Checked := by
  have hv : (sample []).verifyGlobalFrameHeader lenientCrypto = .ok [] := by decide +kernel
  exact checked_of_verify (by decide) (by decide) (by decide) hv

theorem payload_unambiguous_sample :
    (FrameHeader.sample [64, 64, 64, 64]).Unambiguous (FrameHeader.sample [64, 64, 64, 64]) ∧
      (GlobalFrameHeader.sample []).Unambiguous (GlobalFrameHeader.sample []) := by
  have hiff := payload_unambiguous_iff FrameHeader.sample_checked FrameHeader.sample_checked
    GlobalFrameHeader.sample_checked GlobalFrameHeader.sample_checked
  exact ⟨hiff.1.mpr (.inl rfl), hiff.2.mpr (.inl rfl)⟩

/-- A root of 74 bytes before one of 64 bytes reads like one of 64 bytes before one of 74 bytes. -/
theorem payload_ambiguous : (∃ h h' : FrameHeader, h.verifyFrameHeader lenientCrypto = .ok (.ok []) ∧
      h'.verifyFrameHeader lenientCrypto = .ok (.ok []) ∧
      h.getFrameSignaturePayload lenientCrypto = h'.getFrameSignaturePayload lenientCrypto ∧
      h.preimage = h'.preimage ∧ h.stateRoots ≠ h'.stateRoots) ∧
    ∃ h h' : GlobalFrameHeader, h.verifyGlobalFrameHeader lenientCrypto = .ok [] ∧
      h'.verifyGlobalFrameHeader lenientCrypto = .ok [] ∧
      h.getGlobalFrameSignaturePayload lenientCrypto = h'.getGlobalFrameSignaturePayload lenientCrypto ∧
      h.preimage = h'.preimage ∧ h.globalCommitments ≠ h'.globalCommitments := by
  have hsh : (FrameHeader.sample [74, 64, 64, 64]).preimage = (FrameHeader.sample [64, 74, 64, 64]).preimage := by
    rfl
  have hgl : (GlobalFrameHeader.sample [74, 64]).preimage = (GlobalFrameHeader.sample [64, 74]).preimage := by
    have hsw (l : Bytes) : replicate 74 1 ++ (replicate 64 1 ++ l) = replicate 64 1 ++ (replicate 74 1 ++ l) := by
      rw [← append_assoc, ← append_assoc, ← replicate_add, ← replicate_add]
    simp only [GlobalFrameHeader.preimage, GlobalFrameHeader.sample, cons_append, map_cons, flatten_cons, hsw, length_cons]
  constructor
  · refine ⟨.sample [74, 64, 64, 64], .sample [64, 74, 64, 64], by decide +kernel, by decide +kernel, ?_, hsh,
      by decide⟩
    rfl
  · refine ⟨.sample [74, 64], .sample [64, 74], by decide +kernel, by decide +kernel, ?_, hgl, by decide⟩
    rfl

end Quilibrium
