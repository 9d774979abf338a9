import Quilibrium.Lib.Except
import Quilibrium.Consensus.Validator
import Quilibrium.Theorems.Bits

/-! What a validator has checked when it accepts a frame. Both select keys by an index of eight bits, and neither reads
    the requests. -/

namespace Quilibrium
open Except List Option

variable {Bundle : Type} {env : ValidatorEnv}

/-! ### The selected keys -/

def signerKeys (mask : Bytes) (provers : List ProverKey) : List Bytes :=
  (provers.zipIdx.filter fun (_, i) => signs (some mask) i).map fun (prover, _) => prover.publicKey

/-- Among the first `n` indices none stands for another one when it is cut to eight bits. -/
def Unwrapped (mask : Bytes) (n : Nat) : Prop :=
  ∀ i < n, ∀ pos, signs (some mask) pos = true → pos % 256 = i % 256 → signs (some mask) i = true

variable {sig : AggregateSignature} {provers : List ProverKey} {mask : Bytes} {bits : List UInt8} {c : FrameCrypto}

theorem mem_getSetBitIndices {i : Nat} : UInt8.ofNat i ∈ getSetBitIndices mask ↔
    ∃ pos, signs (some mask) pos = true ∧ pos % 256 = i % 256 := by
  have hpos : ∀ pos, pos ∈ bitPositions mask.length (maskByte mask) ↔ signs (some mask) pos = true := by
    intro pos
    rw [mem_bitPositions]
    exact ⟨fun h => h.2, fun h => ⟨lt_length_of_hasBit h, h⟩⟩
  have hby : ∀ pos, UInt8.ofNat pos = UInt8.ofNat i ↔ pos % 256 = i % 256 := by
    intro pos
    rw [← UInt8.toNat_inj, UInt8.toNat_ofNat', UInt8.toNat_ofNat']
  simp [getSetBitIndices, List.mem_map, hpos, hby]

theorem selectedKeys_eq (h : Unwrapped mask provers.length) :
    selectedKeys (getSetBitIndices mask) provers = signerKeys mask provers := by
  rw [selectedKeys, signerKeys]
  congr 1
  refine filter_congr fun ⟨prover, i⟩ hm => ?_
  have hi : i < provers.length := (mem_zipIdx' hm).1
  rw [Bool.eq_iff_iff, contains_iff_mem, mem_getSetBitIndices]
  exact ⟨fun ⟨pos, hs, hmod⟩ => h i hi pos hs hmod, fun hs => ⟨i, hs, rfl⟩⟩

theorem unwrapped_of_le {n : Nat} (hms : mask.length ≤ 32) (hn : n ≤ 256) : Unwrapped mask n := by
  intro i hi pos hs hm
  have hpos : pos / 8 < mask.length := lt_length_of_hasBit hs
  obtain rfl : pos = i := by omega
  exact hs

/-! ### What is checked -/

theorem checkAggregate_true {bls : BlsConstructor} {tmp key : Bytes}
    (h : (checkAggregate bls tmp provers bits key).1 = true) :
    bls.aggregate (selectedKeys bits provers) ((selectedKeys bits provers).map fun _ => tmp) = .ok key := by
  rw [checkAggregate] at h
  split at h
  · cases h
  next aggregate heq =>
    split_ifs at h with hkey
    rw [heq, not_not.mp hkey]

theorem GlobalFrameHeader.verify_ok {h : GlobalFrameHeader} (hv : h.verifyGlobalFrameHeader c = .ok bits) :
    ∃ sig payload, h.publicKeySignature = some sig ∧ h.getGlobalFrameSignaturePayload c = .ok payload ∧
      bits = getSetBitIndices (sig.bitmask.getD []) := by
  rw [verifyGlobalFrameHeader] at hv
  split at hv
  · cases hv
  next key sig hs =>
    obtain ⟨sig', hs', hkey⟩ := bind_eq_some_iff.mp hs
    obtain ⟨_, -, hpr⟩ := map_eq_some_iff.mp hkey
    cases hpr
    split at hv
    · cases hv
    split at hv
    · cases hv
    split at hv
    · cases hv
    split at hv
    · cases hv
    split at hv
    · cases hv
    next payload hpay =>
      split at hv
      · cases hv
      · exact ⟨sig, payload, hs', hpay, (ok.inj hv).symm⟩

theorem FrameHeader.verifySignature_ok {h : FrameHeader}
    (hs : h.publicKeySignature = some sig) (hv : h.verifyFrameHeaderSignature c = .ok (.ok true)) :
    ∃ key payload, sig.publicKey = some key ∧ h.getFrameSignaturePayload c = .ok payload ∧
      c.bls.verifySignatureRaw key (sig.signature.getD []) payload h.domain = true := by
  rw [verifyFrameHeaderSignature, hs, bind_some] at hv
  split at hv
  · cases hv
  next payload hpay =>
    cases hkey : sig.publicKey with
    | none =>
      rw [hkey] at hv
      cases hv
    | some key =>
      rw [hkey, map_some] at hv
      dsimp only at hv
      split_ifs at hv with hr
      · exact ⟨key, payload, rfl, hpay, hr⟩
      · cases ok.inj hv

theorem FrameHeader.verify_ok {h : FrameHeader} (hnum : h.frameNumber ≠ 0) (hs : h.publicKeySignature = some sig)
    (hv : h.verifyFrameHeader c = .ok (.ok bits)) :
    h.verifyFrameHeaderSignature c = .ok (.ok true) ∧ bits = getSetBitIndices (sig.bitmask.getD []) := by
  rw [verifyFrameHeader, hs] at hv
  split at hv
  · cases ok.inj hv
  split at hv
  · cases ok.inj hv
  split at hv
  · cases ok.inj hv
  split at hv
  · cases ok.inj hv
  split at hv
  · cases ok.inj hv
  split at hv
  · cases ok.inj hv
  next payload hpay =>
    split at hv
    · cases ok.inj hv
    · obtain ⟨result, hr, hv⟩ := bind_eq_ok.mp hv
      split at hv
      · cases ok.inj hv
      · cases ok.inj hv
      · exact ⟨hr, (ok.inj (ok.inj hv)).symm⟩

theorem BLSGlobalFrameValidator.validate_true {frame : FrameMessage GlobalFrameHeader Bundle} {hdr : GlobalFrameHeader} (hh : frame.header = some hdr) (hnum : hdr.frameNumber ≠ 0)
    (hsig : hdr.publicKeySignature = some sig) (h : (validate env (some frame)).1 = true) :
    ∃ key payload provers tmp, sig.publicKey = some key ∧
      hdr.getGlobalFrameSignaturePayload env.toFrameCrypto = .ok payload ∧ env.getActiveProvers none = .ok provers ∧
      env.bls.aggregate (selectedKeys (getSetBitIndices (sig.bitmask.getD [])) provers)
        ((selectedKeys (getSetBitIndices (sig.bitmask.getD [])) provers).map fun _ => tmp) = .ok key := by
  rw [validate, bind_some, hh] at h
  dsimp only at h
  split_ifs at h
  rw [hsig] at h
  dsimp only at h
  split at h
  next signature key mask hs hk hm =>
    split at h
    · cases h
    next bits hv =>
      obtain ⟨sig', payload, hs', hpay, rfl⟩ := GlobalFrameHeader.verify_ok hv
      cases some.inj (hsig.symm.trans hs')
      split at h
      · cases h
      next tmp _ =>
        split at h
        · cases h
        next provers hpr => exact ⟨key, payload, provers, tmp, hk, hpay, hpr, checkAggregate_true h⟩
  · cases h

theorem BLSAppFrameValidator.validate_true {frame : FrameMessage FrameHeader Bundle} {hdr : FrameHeader} {err : Option String} (hh : frame.header = some hdr)
    (hnum : hdr.frameNumber ≠ 0) (hs : hdr.publicKeySignature = some sig)
    (h : validate env (some frame) = .ok (true, err)) : ∃ key payload provers tmp, sig.publicKey = some key ∧
      hdr.getFrameSignaturePayload env.toFrameCrypto = .ok payload ∧
      env.bls.verifySignatureRaw key (sig.signature.getD []) payload hdr.domain = true ∧
      env.getActiveProvers (some hdr.address) = .ok provers ∧
      env.bls.aggregate (selectedKeys (getSetBitIndices (sig.bitmask.getD [])) provers)
        ((selectedKeys (getSetBitIndices (sig.bitmask.getD [])) provers).map fun _ => tmp) = .ok key := by
  rw [validate, bind_some, hh] at h
  dsimp only at h
  split at h
  · cases ok.inj h
  split at h
  · cases ok.inj h
  split at h
  · cases ok.inj h
  obtain ⟨result, hres, h⟩ := bind_eq_ok.mp h
  split at h
  · cases ok.inj h
  next bits =>
    obtain ⟨hsgn, rfl⟩ := FrameHeader.verify_ok hnum hs hres
    obtain ⟨key, payload, hkey, hpay, hr⟩ := FrameHeader.verifySignature_ok hs hsgn
    rw [hs] at h
    dsimp only at h
    split at h
    · cases ok.inj h
    next provers hpr =>
      split at h
      · cases ok.inj h
      next tmp _ =>
        rw [hkey] at h
        have hacd := congrArg Prod.fst (ok.inj h)
        exact ⟨key, payload, provers, tmp, hkey, hpay, hr, hpr, checkAggregate_true hacd⟩

/-! ### Signed frames -/

/-- The signature of the frame is accepted under the aggregate of the keys that the mask names. -/
def SignedBy (env : ValidatorEnv) (aggregateKey : List Bytes → Bytes) (sig : AggregateSignature)
    (provers : List ProverKey) (payload : Except String Bytes) (domain : Bytes) : Prop :=
  ∃ message, payload = .ok message ∧ env.bls.verifySignatureRaw
    (aggregateKey (signerKeys (sig.bitmask.getD []) provers)) (sig.signature.getD []) message domain = true

/-- The keys that the validators select and the keys that the mask names have one aggregate. -/
def Selects (aggregateKey : List Bytes → Bytes) (sig : AggregateSignature) (provers : List ProverKey) : Prop :=
  aggregateKey (selectedKeys (getSetBitIndices (sig.bitmask.getD [])) provers) =
    aggregateKey (signerKeys (sig.bitmask.getD []) provers)

/-- A signature of a message is accepted under one key. -/
def BlsConstructor.Sound (bls : BlsConstructor) : Prop := ∀ key key' signature message domain,
  bls.verifySignatureRaw key signature message domain = true → bls.verifySignatureRaw key' signature message domain = true →
    key = key'

/-- Where the right keys are selected, an accepted global frame is signed if and only if its signature is verified apart
    from `Validate`. An accepted frame of an app shard is signed if and only if the right keys are selected. -/
theorem accepted_frames_signed (env : ValidatorEnv) (aggregateKey : List Bytes → Bytes)
    (haggregate : ∀ keys signatures out, env.bls.aggregate keys signatures = .ok out → out = aggregateKey keys) :
    (∀ (frame : FrameMessage GlobalFrameHeader Bundle) (header : GlobalFrameHeader) (sig : AggregateSignature)
      (provers : List ProverKey), frame.header = some header → header.frameNumber ≠ 0 →
      header.publicKeySignature = some sig → env.getActiveProvers none = .ok provers → Selects aggregateKey sig provers →
      (BLSGlobalFrameValidator.validate env (some frame)).1 = true →
      (SignedBy env aggregateKey sig provers (header.getGlobalFrameSignaturePayload env.toFrameCrypto) (textBytes "global") ↔
        header.verifyGlobalHeaderSignature env.toFrameCrypto = .ok (.ok true))) ∧
    (∀ (frame : FrameMessage FrameHeader Bundle) (header : FrameHeader) (sig : AggregateSignature)
      (provers : List ProverKey) (err : Option String), frame.header = some header → header.frameNumber ≠ 0 →
      header.publicKeySignature = some sig → env.getActiveProvers (some header.address) = .ok provers →
      BLSAppFrameValidator.validate env (some frame) = .ok (true, err) → (Selects aggregateKey sig provers →
        SignedBy env aggregateKey sig provers (header.getFrameSignaturePayload env.toFrameCrypto) header.domain) ∧
      (env.bls.Sound →
        SignedBy env aggregateKey sig provers (header.getFrameSignaturePayload env.toFrameCrypto) header.domain →
        Selects aggregateKey sig provers)) := by
  constructor
  · intro frame header sig provers hh hnum hs hpr hsel h
    obtain ⟨key, payload, provers', throwaway, hkey, hpay, hpr', hagg⟩ :=
      BLSGlobalFrameValidator.validate_true hh hnum hs h
    cases ok.inj (hpr.symm.trans hpr')
    have hky := (haggregate _ _ _ hagg).trans hsel
    rw [SignedBy, ← hky, GlobalFrameHeader.verifyGlobalHeaderSignature, hpay, hs, bind_some, hkey, map_some]
    dsimp only
    split_ifs with hr
    · simp [hr]
    · simp [hr]
  · intro frame header sig provers err hh hnum hs hpr h
    obtain ⟨key, payload, provers', throwaway, hkey, hpay, hr, hpr', hagg⟩ :=
      BLSAppFrameValidator.validate_true hh hnum hs h
    cases ok.inj (hpr.symm.trans hpr')
    have hky := haggregate _ _ _ hagg
    refine ⟨fun hsel => ⟨payload, hpay, (hky.trans hsel) ▸ hr⟩, ?_⟩
    rintro hsn ⟨message, hm, hsgd⟩
    cases ok.inj (hpay.symm.trans hm)
    exact hky.symm.trans (hsn _ _ _ _ _ hr hsgd)

/-- A scheme for examples: keys are aggregated by writing them one after the other. -/
def sampleEnv (accepts : Bytes → Bool) (provers : List ProverKey) : ValidatorEnv where
  sha3 := ⟨fun _ => List.replicate 32 0, fun _ => List.length_replicate⟩
  wesolowskiVerify _ _ _ := true
  bls := { new := .ok [], aggregate := fun keys _ => .ok keys.flatten, verifySignatureRaw := fun key _ _ _ => accepts key }
  getActiveProvers _ := .ok provers

def soleProver : List ProverKey := [⟨[], List.replicate 585 7⟩]

def sampleSignature (key mask : Bytes) : AggregateSignature := ⟨some (List.replicate 74 0), some key, some mask⟩

def sampleGlobalHeader (key mask : Bytes) : GlobalFrameHeader where
  frameNumber := 1
  timestamp := 0
  difficulty := 0
  output := List.replicate 516 0
  parentSelector := List.replicate 32 0
  globalCommitments := List.replicate 256 (List.replicate 64 0)
  proverTreeCommitment := List.replicate 64 0
  publicKeySignature := some (sampleSignature key mask)

def sampleHeader (key mask : Bytes) : FrameHeader where
  address := [1]
  frameNumber := 1
  timestamp := 0
  difficulty := 0
  output := List.replicate 516 0
  parentSelector := List.replicate 32 0
  requestsRoot := List.replicate 64 0
  stateRoots := List.replicate 4 (List.replicate 64 0)
  prover := [1]
  feeMultiplierVote := 0
  publicKeySignature := some (sampleSignature key mask)

theorem sampleGlobalHeader_accepted (accepts : Bool) :
    (BLSGlobalFrameValidator.validate (sampleEnv (fun _ => accepts) soleProver)
      (some ⟨some (sampleGlobalHeader (replicate 585 7) [1]), ([] : List Unit)⟩)).1 = true := by
  revert accepts
  decide +kernel

theorem accepted_frames_signed_sole :
    SignedBy (sampleEnv (fun _ => true) soleProver) flatten (sampleSignature (replicate 585 7) [1]) soleProver
      ((sampleGlobalHeader (replicate 585 7) [1]).getGlobalFrameSignaturePayload
        (sampleEnv (fun _ => true) soleProver).toFrameCrypto) (textBytes "global") ∧
    SignedBy (sampleEnv (fun _ => true) soleProver) flatten (sampleSignature (replicate 585 7) [1]) soleProver
      ((sampleHeader (replicate 585 7) [1]).getFrameSignaturePayload
        (sampleEnv (fun _ => true) soleProver).toFrameCrypto) (sampleHeader (replicate 585 7) [1]).domain := by
  have hs : Selects flatten (sampleSignature (replicate 585 7) [1]) soleProver :=
    by rw [Selects, selectedKeys_eq (unwrapped_of_le (by decide) (by decide))]
  obtain ⟨hgl, happ⟩ := @accepted_frames_signed Unit (sampleEnv (fun _ => true) soleProver) flatten
    fun _ _ _ h => (ok.inj h).symm
  refine ⟨(hgl ⟨some (sampleGlobalHeader (replicate 585 7) [1]), []⟩ _ _ soleProver rfl (by decide) rfl rfl hs
    (sampleGlobalHeader_accepted true)).mpr (by decide +kernel), ?_⟩
  exact (happ ⟨some (sampleHeader (replicate 585 7) [1]), []⟩ _ _ soleProver none rfl (by decide) rfl rfl
    (by decide +kernel)).1 hs

def manyProvers : List ProverKey := (List.range 257).map fun i => ⟨[], [UInt8.ofNat (i / 256), UInt8.ofNat i]⟩

/-- The global validator accepts a frame whose signature no key verifies, and the validator of app shards accepts a
    frame whose mask names one prover and whose signature is by two. -/
theorem unsigned_frames_accepted : ((BLSGlobalFrameValidator.validate (sampleEnv (fun _ => false) soleProver)
      (some ⟨some (sampleGlobalHeader (replicate 585 7) [1]), ([] : List Unit)⟩)).1 = true ∧
      ¬ SignedBy (sampleEnv (fun _ => false) soleProver) flatten (sampleSignature (replicate 585 7) [1]) soleProver
        ((sampleGlobalHeader (replicate 585 7) [1]).getGlobalFrameSignaturePayload
          (sampleEnv (fun _ => false) soleProver).toFrameCrypto) (textBytes "global")) ∧
    (BLSAppFrameValidator.validate (sampleEnv (· == [0, 0, 1, 0]) manyProvers)
      (some ⟨some (sampleHeader [0, 0, 1, 0] [1]), ([] : List Unit)⟩) = .ok (true, none) ∧
      ¬ SignedBy (sampleEnv (· == [0, 0, 1, 0]) manyProvers) flatten (sampleSignature [0, 0, 1, 0] [1]) manyProvers
        ((sampleHeader [0, 0, 1, 0] [1]).getFrameSignaturePayload
          (sampleEnv (· == [0, 0, 1, 0]) manyProvers).toFrameCrypto) (sampleHeader [0, 0, 1, 0] [1]).domain) := by
  refine ⟨⟨sampleGlobalHeader_accepted false, ?_⟩, by decide +kernel, ?_⟩
  · rintro ⟨message, -, hr⟩
    cases hr
  · rintro ⟨message, -, hr⟩
    have hky : (signerKeys [1] manyProvers).flatten = [0, 0] := by decide +kernel
    cases hr

end Quilibrium
