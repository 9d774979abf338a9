import Quilibrium.Execution.ProverKick
import Quilibrium.Theorems.Validator

/-! What the evidence of an accepted kick shows: the frames are checked under the keys that they bring along. -/

namespace Quilibrium
open Except List Option

/-! ### Signatures of conflicting frames -/

theorem GlobalFrameHeader.verifySignature_ok {c : FrameCrypto} {h : GlobalFrameHeader} {sig : AggregateSignature}
    (hs : h.publicKeySignature = some sig) (hv : h.verifyGlobalHeaderSignature c = .ok (.ok true)) :
    ∃ key payload, sig.publicKey = some key ∧ h.getGlobalFrameSignaturePayload c = .ok payload ∧
      c.bls.verifySignatureRaw key (sig.signature.getD []) payload (textBytes "global") = true := by
  rw [verifyGlobalHeaderSignature, hs, bind_some] at hv
  split at hv
  · cases hv
  next payload hpay =>
    cases hkey : sig.publicKey with
    | none =>
      rw [hkey] at hv
      cases hv
    | some key =>
      rw [hkey, map_some] at hv
      dsimp only at hv
      split_ifs at hv with hr
      · exact ⟨key, payload, rfl, hpay, hr⟩
      · cases ok.inj hv

namespace ConflictingFrame

variable {c : FrameCrypto} {frame : ConflictingFrame}

def payload (c : FrameCrypto) : ConflictingFrame → Except String Bytes
  | shard header => header.getFrameSignaturePayload c
  | global header => header.getGlobalFrameSignaturePayload c

def domain : ConflictingFrame → Bytes
  | shard header => header.domain
  | global _ => textBytes "global"

def publicKey (frame : ConflictingFrame) : Option Bytes := frame.signature.bind AggregateSignature.publicKey

def signatureBytes (frame : ConflictingFrame) : Bytes := (frame.signature.bind AggregateSignature.signature).getD []

def ValidUnder (c : FrameCrypto) (frame : ConflictingFrame) (key : Bytes) : Prop :=
  ∃ payload, frame.payload c = .ok payload ∧
    c.bls.verifySignatureRaw key frame.signatureBytes payload frame.domain = true

/-- The key is the aggregate of the registry keys that the bitmask selects, with any signature for those of the
    signers. -/
def Aggregate (bls : BlsConstructor) (provers : List ProverKey) (frame : ConflictingFrame) (key : Bytes) : Prop :=
  ∃ throwaway, bls.aggregate (signerKeys frame.bitmask provers)
    ((signerKeys frame.bitmask provers).map fun _ => throwaway) = .ok key

/-- The signature is valid under the aggregate of the registry keys that the bitmask selects. -/
def SignedBySelected (c : FrameCrypto) (provers : List ProverKey) (frame : ConflictingFrame) : Prop :=
  ∃ key, frame.Aggregate c.bls provers key ∧ frame.ValidUnder c key

theorem verifySignature_ok {sig : AggregateSignature} (hs : frame.signature = some sig)
    (h : frame.verifySignature c = .ok true) : ∃ key, frame.publicKey = some key ∧ frame.ValidUnder c key := by
  obtain ⟨ans, hans, h⟩ := bind_eq_ok.mp h
  have htr : ans = .ok true := by
    obtain _ | ans := ans
    · cases ok.inj h
    · exact congrArg ok (ok.inj h)
  subst htr
  simp only [publicKey, ValidUnder, signatureBytes, hs]
  cases frame with
  | shard hdr =>
    obtain ⟨key, payload, hkey, hpay, hr⟩ := FrameHeader.verifySignature_ok hs hans
    exact ⟨key, hkey, payload, hpay, hr⟩
  | global hdr =>
    obtain ⟨key, payload, hkey, hpay, hr⟩ := GlobalFrameHeader.verifySignature_ok hs hans
    exact ⟨key, hkey, payload, hpay, hr⟩

theorem ValidUnder.unique {key key' : Bytes} (hsn : c.bls.Sound) (h : frame.ValidUnder c key)
    (h' : frame.ValidUnder c key') : key = key' := by
  obtain ⟨payload, hpay, hr⟩ := h
  obtain ⟨payload', hpay', hr'⟩ := h'
  cases ok.inj (hpay.symm.trans hpay')
  exact hsn _ _ _ _ _ hr hr'

end ConflictingFrame

/-! ### What an accepted kick shows -/

/-- The subproof leads to the leaf of the identifier, with the target. -/
def TraversalSubProof.Opens (sha512 : Digest 64) (subProof : TraversalSubProof) (id target : Bytes) : Prop :=
  subProof.paths.flatten <+: (getFullPath id).map (fun nibble => UInt64.ofNat nibble.val) ∧
    subProof.commits.getLast? = some (sha512.sum (0 :: (id ++ target))) ∧ subProof.ys.getLast? = some target

/-- A signature of a message is accepted under one key, and what an accepted traversal proof leads to is in the tree
    of the global vertices. -/
structure KickEnv.Sound (env : KickEnv) (vertices : Address → Option Bytes) : Prop where
  bls : env.bls.Sound
  opened : ∀ ⦃proof⦄, env.verifyTraversalProof proof = .ok true → ∀ subProof ∈ proof.subProofs, ∀ ⦃address target⦄,
    subProof.Opens env.sha512 (globalIntrinsicAddress ++ address.bytes) target → vertices address = some target

namespace ProverKick

variable {env : KickEnv} {p : ProverKick}

structure Evidence (env : KickEnv) (p : ProverKick) (frame1 frame2 : ConflictingFrame) (provers : List ProverKey) :
    Prop where
  parsed1 : env.parseFrame p.conflictingFrame1 = some frame1
  parsed2 : env.parseFrame p.conflictingFrame2 = some frame2
  active : env.getActiveProvers frame1.filter = .ok provers

/-- A subproof leads to the vertex of the kicked prover with the commitment of the kick. -/
def OpensVertex (env : KickEnv) (p : ProverKick) (address : Address) : Prop :=
  env.poseidon p.kickedProverPublicKey = .ok address ∧ ∃ proof, p.traversalProof = some proof ∧
    ∃ subProof ∈ proof.subProofs, subProof.Opens env.sha512 (globalIntrinsicAddress ++ address.bytes) p.commitment

/-- What the evidence is to show: both bitmasks select the registered key of the prover, the different frames of one
    number and address are signed by the selected keys, and the vertex of the prover is in the tree. -/
structure Justified (env : KickEnv) (vertices : Address → Option Bytes) (p : ProverKick) (frame1 frame2 : ConflictingFrame)
    (provers : List ProverKey) : Prop where
  different : frame1 ≠ frame2
  frameNumber : frame1.frameNumber = frame2.frameNumber
  filter : frame1.filter = frame2.filter
  selected : ∃ address, env.poseidon p.kickedProverPublicKey = .ok address ∧
    ∃ prover ∈ provers, prover.address = address.bytes ∧ prover.publicKey ∈ signerKeys frame1.bitmask provers ∧
      prover.publicKey ∈ signerKeys frame2.bitmask provers
  signed1 : frame1.SignedBySelected env.toFrameCrypto provers
  signed2 : frame2.SignedBySelected env.toFrameCrypto provers
  vertex : ∃ address, p.OpensVertex env address ∧ vertices address = some p.commitment

/-- Both frames bring along the aggregate of the keys that their bitmasks select, and the traversal proof leads to
    the vertex of the prover. -/
structure Tied (env : KickEnv) (p : ProverKick) (frame1 frame2 : ConflictingFrame) (provers : List ProverKey) : Prop where
  key1 : ∃ key, frame1.publicKey = some key ∧ frame1.Aggregate env.bls provers key
  key2 : ∃ key, frame2.publicKey = some key ∧ frame2.Aggregate env.bls provers key
  vertex : ∃ address, p.OpensVertex env address

structure Equivocates (env : KickEnv) (p : ProverKick) (frame1 frame2 : ConflictingFrame) : Prop where
  parsed1 : env.parseFrame p.conflictingFrame1 = some frame1
  parsed2 : env.parseFrame p.conflictingFrame2 = some frame2
  signature1 : ∃ sig, frame1.signature = some sig
  signature2 : ∃ sig, frame2.signature = some sig
  verified1 : frame1.verifySignature env.toFrameCrypto = .ok true
  verified2 : frame2.verifySignature env.toFrameCrypto = .ok true
  frameNumber : frame1.frameNumber = frame2.frameNumber
  filter : frame1.filter = frame2.filter
  output : frame1.output ≠ frame2.output
  overlap : hasOverlap env frame1 frame2 p.kickedProverPublicKey = .ok true

theorem verifyEquivocation_ok (h : p.verifyEquivocation env = .ok true) :
    ∃ frame1 frame2, p.Equivocates env frame1 frame2 := by
  rw [verifyEquivocation] at h
  split at h
  · cases h
  split at h
  · cases h
  split at h
  · cases h
  split at h
  next frame1 frame2 hpar hprs =>
    split at h
    · cases h
    next hs =>
    obtain ⟨valid1, hv, h⟩ := bind_eq_ok.mp h
    obtain _ | _ := valid1
    · cases h
    obtain ⟨valid2, hve, h⟩ := bind_eq_ok.mp h
    obtain _ | _ := valid2
    · cases h
    rw [if_neg (by decide)] at h
    split_ifs at h with hnum hfil ho
    · cases h
    · cases h
    · cases h
    · simp only [Bool.or_eq_true, isNone_iff_eq_none, not_or] at hs
      exact ⟨frame1, frame2, {
        parsed1 := hpar
        parsed2 := hprs
        signature1 := ne_none_iff_exists'.mp hs.1
        signature2 := ne_none_iff_exists'.mp hs.2
        verified1 := hv
        verified2 := hve
        frameNumber := not_not.mp hnum
        filter := not_not.mp hfil
        output := ho
        overlap := h }⟩
  · cases h

theorem hasOverlap_ok {frame1 frame2 : ConflictingFrame} {key : Bytes} (h : hasOverlap env frame1 frame2 key = .ok true) :
    ∃ address ps, env.poseidon key = .ok address ∧ env.getActiveProvers frame1.filter = .ok ps ∧
      ∃ prover ∈ ps, prover.address = address.bytes ∧ prover.publicKey ∈ signerKeys frame1.bitmask ps ∧
        prover.publicKey ∈ signerKeys frame2.bitmask ps := by
  rw [hasOverlap] at h
  split at h
  · cases h
  next address hadr =>
  split at h
  · cases h
  next ps hpr =>
  split at h
  · cases h
  next index hin =>
  obtain ⟨hsg, hsi2⟩ := Bool.and_eq_true_iff.mp (ok.inj h)
  obtain ⟨hlt, hfn, -⟩ := findIdx?_eq_some_iff_getElem.mp hin
  have hs : ∀ frame : ConflictingFrame, frame.hasSigner index = true →
      ps[index].publicKey ∈ signerKeys frame.bitmask ps := fun frame hsi =>
    mem_map.mpr ⟨(ps[index], index), mem_filter.mpr
      ⟨mem_zipIdx_iff_getElem?.mpr (getElem?_eq_getElem hlt), hsi⟩, rfl⟩
  exact ⟨address, ps, hadr, hpr, ps[index], getElem_mem hlt, eq_of_beq hfn, hs frame1 hsg, hs frame2 hsi2⟩

theorem verify_ok (h : p.verify env = .ok none) : p.verifyEquivocation env = .ok true ∧
      ∃ proof, p.traversalProof = some proof ∧ env.verifyTraversalProof proof = .ok true := by
  obtain ⟨found, hfn, h⟩ := bind_eq_ok.mp h
  obtain _ | _ := found
  · cases ok.inj h
  refine ⟨hfn, ?_⟩
  rw [if_neg (by decide)] at h
  split at h
  · cases h
  next proof hpr =>
  obtain ⟨valid, hvl, h⟩ := bind_eq_ok.mp h
  obtain _ | _ := valid
  · cases ok.inj h
  · exact ⟨proof, hpr, hvl⟩

/-- Under sound verifiers the evidence of an accepted kick shows what it is to show if and only if its parts belong
    together. -/
theorem accepted_kick_justified_iff (env : KickEnv) (vertices : Address → Option Bytes) (hsound : env.Sound vertices)
    (p : ProverKick) (h : p.verify env = .ok none) : ∃ frame1 frame2 provers, p.Evidence env frame1 frame2 provers ∧
      (p.Justified env vertices frame1 frame2 provers ↔ p.Tied env frame1 frame2 provers) := by
  obtain ⟨hfn, proof, hpr, hvl⟩ := verify_ok h
  obtain ⟨frame1, frame2, e⟩ := verifyEquivocation_ok hfn
  obtain ⟨address, provers, hadr, hpv, hs⟩ := hasOverlap_ok e.overlap
  obtain ⟨sig1, hsg⟩ := e.signature1
  obtain ⟨sig2, hsi⟩ := e.signature2
  have ht : ∀ frame : ConflictingFrame, (∃ key, frame.publicKey = some key ∧ frame.ValidUnder env.toFrameCrypto key) →
      (frame.SignedBySelected env.toFrameCrypto provers ↔
        ∃ key, frame.publicKey = some key ∧ frame.Aggregate env.bls provers key) := by
    rintro frame ⟨key, hkey, hvl⟩
    constructor
    · rintro ⟨key', hagg, hvl'⟩
      cases hvl'.unique hsound.bls hvl
      exact ⟨key, hkey, hagg⟩
    · rintro ⟨key', hkey', hagg⟩
      cases hkey.symm.trans hkey'
      exact ⟨key, hagg, hvl⟩
  have htd := ht frame1 (ConflictingFrame.verifySignature_ok hsg e.verified1)
  have hti := ht frame2 (ConflictingFrame.verifySignature_ok hsi e.verified2)
  refine ⟨frame1, frame2, provers, ⟨e.parsed1, e.parsed2, hpv⟩, ?_, ?_⟩
  · intro j
    obtain ⟨address, hop, -⟩ := j.vertex
    exact ⟨htd.mp j.signed1, hti.mp j.signed2, address, hop⟩
  · intro t
    obtain ⟨address', hadr', proof', hpr', subProof, hm, hop⟩ := t.vertex
    cases hpr.symm.trans hpr'
    exact {
      different := fun heq => e.output (congrArg ConflictingFrame.output heq)
      frameNumber := e.frameNumber
      filter := e.filter
      selected := ⟨address, hadr, hs⟩
      signed1 := htd.mpr t.key1
      signed2 := hti.mpr t.key2
      vertex := ⟨address', ⟨hadr', proof, hpr, subProof, hm, hop⟩, hsound.opened hvl subProof hm hop⟩ }

/-! ### A registry with one prover -/

theorem length_take_padded (data : Bytes) : ((data.drop 1 ++ replicate 64 0).take 64).length = 64 := by
  simp

def sampleSha512 : Digest 64 := ⟨fun data => (data.drop 1 ++ List.replicate 64 0).take 64, length_take_padded⟩

def sampleGlobalAddress : Address := ⟨List.replicate 32 0, Address.length_zero⟩

def sampleCommitment : Bytes := sampleSha512.sum [0, 0, 7] ++ sampleSha512.sum [0, 4, 1]

def sampleOpening : TraversalSubProof where
  commits := [globalIntrinsicAddress ++ sampleGlobalAddress.bytes]
  ys := [sampleCommitment]
  paths := []

/-- Frame 1 with the output and the key that the bytes give, signed under this key for the first prover. -/
def sampleHeader (b : Bytes) : GlobalFrameHeader where
  frameNumber := 1
  timestamp := 0
  difficulty := 0
  output := b.getD 4 0 :: List.replicate 515 0
  parentSelector := List.replicate 32 0
  globalCommitments := []
  proverTreeCommitment := []
  publicKeySignature := some ⟨some (b.drop 5), some (b.drop 5), some [1]⟩

def sampleKickEnv : KickEnv where
  sha3 := Digest.zeros 32
  wesolowskiVerify _ _ _ := true
  bls := {
    new := .ok []
    aggregate := fun keys _ => .ok keys.flatten
    verifySignatureRaw := fun key signature _ _ => signature == key }
  sha512 := sampleSha512
  prover := .transparent
  poseidon _ := .ok sampleGlobalAddress
  frameHeaderFromBytes _ := none
  globalFrameHeaderFromBytes b := some (sampleHeader b)
  getActiveProvers _ := .ok [⟨List.replicate 32 0, [7]⟩]
  verifyTraversalProof proof := .ok (proof.subProofs.all (· == sampleOpening))

def sampleVertices (address : Address) : Option Bytes :=
  if address = sampleGlobalAddress then some sampleCommitment else none

/-- The kick of the prover with the key `7` for two frames that bring the key along. -/
def sampleKick (key : UInt8) : ProverKick where
  frameNumber := 2
  kickedProverPublicKey := [7]
  conflictingFrame1 := [0, 0, 3, 9, 1, key]
  conflictingFrame2 := [0, 0, 3, 9, 2, key]
  commitment := sampleCommitment
  proof := [1]
  traversalProof := some ⟨⟨[1], [1]⟩, [sampleOpening]⟩

theorem sampleKickEnv_sound : sampleKickEnv.Sound sampleVertices where
  bls key key' signature msg domain h h' := (eq_of_beq h).symm.trans (eq_of_beq h')
  opened proof h subProof hm address target hop := by
    have ho : subProof = sampleOpening := eq_of_beq (all_eq_true.mp (ok.inj h) subProof hm)
    subst ho
    obtain ⟨-, hc, hy⟩ := hop
    have hadr : address = sampleGlobalAddress := by
      have hl : (globalIntrinsicAddress ++ address.bytes).length = 64 := by
        rw [length_append, address.length_bytes]
        rfl
      have hhs : globalIntrinsicAddress ++ sampleGlobalAddress.bytes = globalIntrinsicAddress ++ address.bytes :=
        (some.inj hc).trans (by
          change take 64 ((globalIntrinsicAddress ++ address.bytes ++ target) ++ replicate 64 0) = _
          rw [append_assoc]
          exact take_left' hl)
      exact (Address.ext (append_cancel_left hhs)).symm
    subst hadr
    exact hy

theorem accepted_kick_justified_iff_own : (sampleKick 7).verify sampleKickEnv = .ok none ∧
    ∃ frame1 frame2 provers, (sampleKick 7).Evidence sampleKickEnv frame1 frame2 provers ∧
      (sampleKick 7).Justified sampleKickEnv sampleVertices frame1 frame2 provers := by
  have h : (sampleKick 7).verify sampleKickEnv = .ok none := by decide +kernel
  refine ⟨h, ?_⟩
  obtain ⟨frame1, frame2, provers, e, hiff⟩ :=
    accepted_kick_justified_iff sampleKickEnv sampleVertices sampleKickEnv_sound (sampleKick 7) h
  refine ⟨frame1, frame2, provers, e, hiff.mpr ?_⟩
  obtain ⟨hpar, hprs, hact⟩ := e
  cases hpar
  cases hprs
  cases hact
  refine ⟨⟨[7], rfl, [], rfl⟩, ⟨[7], rfl, [], rfl⟩, sampleGlobalAddress, rfl, _, rfl, sampleOpening, mem_singleton_self _,
    nil_prefix, rfl, rfl⟩

/-- Two frames that are signed under another key, by somebody who is no prover. -/
theorem forged_frames_kick_prover : sampleKickEnv.Sound sampleVertices ∧ (sampleKick 9).verify sampleKickEnv = .ok none ∧
    ∀ frame1 frame2 provers, (sampleKick 9).Evidence sampleKickEnv frame1 frame2 provers →
      ¬ (sampleKick 9).Justified sampleKickEnv sampleVertices frame1 frame2 provers := by
  refine ⟨sampleKickEnv_sound, by decide +kernel, ?_⟩
  rintro frame1 frame2 provers ⟨hpar, hprs, hact⟩ j
  cases hpar
  cases hprs
  cases hact
  obtain ⟨key, ⟨throwaway, hkey⟩, payload, -, hvl⟩ := j.signed1
  have h7 : [7] = key := ok.inj hkey
  have h9 : [9] = key := eq_of_beq hvl
  cases h7.trans h9.symm

end ProverKick

end Quilibrium
