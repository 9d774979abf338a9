import Quilibrium.Theorems.Confirmation
import Quilibrium.Theorems.Interference
import Quilibrium.Theorems.Voting

/-! Where the votes come from that are counted and aggregated. If the messages are in order, the votes of a rank come
    from distinct active provers. -/

namespace Quilibrium
open Function Except List Option

open StateMachine

variable {Header Bundle : Type}

/-! ### The bitmask -/

namespace VotingProvider

variable {provers : List ProverKey} {signed : List SignedVote}

theorem signs_foldl_setBit {step : Bytes → ProverKey × Nat → Bytes} {marked : ProverKey → Bool} (hst : ∀ mask prover i,
      step mask (prover, i) = if marked prover then mask.modify (i / 8) (· ||| 1 <<< UInt8.ofNat (i % 8)) else mask)
    (entries : List (ProverKey × Nat)) (mask : Bytes) (h : ∀ entry ∈ entries, entry.2 / 8 < mask.length) (pos : Nat) :
    signs (some (entries.foldl step mask)) pos =
      (signs (some mask) pos || entries.any fun entry => marked entry.1 && pos == entry.2) := by
  induction entries generalizing mask with
  | nil => simp
  | cons entry entries ih =>
    obtain ⟨prover, i⟩ := entry
    have hrs : ∀ entry ∈ entries, entry.2 / 8 < mask.length := fun entry hen =>
      h entry (mem_cons_of_mem _ hen)
    rw [foldl_cons, any_cons, hst]
    cases marked prover with
    | false => exact ih mask hrs
    | true =>
      rw [if_pos rfl, ih _ fun entry hen => by rw [length_modify]; exact hrs entry hen,
        signs_setBit (h (prover, i) mem_cons_self), Bool.or_assoc, Bool.true_and]

theorem signs_replicate_zero (n pos : Nat) : signs (some (replicate n 0)) pos = false := by
  have hby : maskByte (replicate n 0) (pos / 8) = 0 := by
    rw [maskByte, getD_eq_getElem?_getD, getElem?_replicate]
    split_ifs <;> rfl
  rw [signs, any_some, hby, hasBit]
  exact Nat.zero_testBit _

theorem signs_bitmask {marks : FrameVote → Bool} {prover : ProverKey} {i : Nat} (h : (prover, i) ∈ provers.zipIdx) :
    signs (some (bitmask marks provers signed)) i = (voterVote signed prover.address).any marks := by
  rw [bitmask, signs_foldl_setBit (fun _ _ _ => rfl), signs_replicate_zero, Bool.false_or]
  · rw [Bool.eq_iff_iff, List.any_eq_true]
    constructor
    · rintro ⟨⟨other, j⟩, hot, hm⟩
      rw [Bool.and_eq_true, beq_iff_eq] at hm
      obtain ⟨hm, rfl⟩ := hm
      rw [mem_zipIdx_iff_getElem?] at h hot
      cases some.inj (h.symm.trans hot)
      exact hm
    · intro hm
      exact ⟨(prover, i), h, by simp [hm]⟩
  · intro entry hen
    have hlt := snd_lt_of_mem_zipIdx hen
    rw [length_replicate]
    omega

theorem proverKey_eq {prover : ProverKey} (hnd : (provers.map ProverKey.address).Nodup) (h : prover ∈ provers) :
    proverKey provers prover.address = prover.publicKey := by
  cases hfn : provers.reverse.find? fun p => p.address == prover.address with
  | none =>
    have hnn := find?_eq_none.mp hfn prover (mem_reverse.mpr h)
    simp at hnn
  | some found =>
    have hm := mem_reverse.mp (mem_of_find?_eq_some hfn)
    have hadr : found.address = prover.address := by simpa using find?_some hfn
    rw [proverKey, hfn, inj_on_of_nodup_map hnd hm h hadr]
    rfl

theorem signerKeys_eq : signerKeys (bitmask (fun _ => true) provers signed) provers =
    (provers.filter fun prover => signed.any fun s => s.address == prover.address).map ProverKey.publicKey := by
  have hfil : ∀ entry ∈ provers.zipIdx, signs (some (bitmask (fun _ => true) provers signed)) entry.2 =
      signed.any fun s => s.address == entry.1.address := fun entry hen =>
    (signs_bitmask hen).trans (any_voterVote signed entry.1.address)
  conv_rhs => rw [← zipIdx_map_fst 0 provers]
  rw [List.filter_map, List.map_map]
  exact congrArg (List.map _) (filter_congr hfil)

theorem signerKeys_bitmask (hpr : (provers.map ProverKey.address).Nodup)
    (hsgd : (signed.map SignedVote.address).Nodup) (hactive : ∀ s ∈ signed, ∃ prover ∈ provers, s.address = prover.address) :
    (signerKeys (bitmask (fun _ => true) provers signed) provers).Perm
      (signed.map fun s => proverKey provers s.address) := by
  rw [signerKeys_eq]
  set voters := provers.filter fun prover => signed.any fun s => s.address == prover.address
  have hadd : (voters.map ProverKey.address).Perm (signed.map SignedVote.address) := by
    rw [perm_ext_iff_of_nodup (hpr.sublist (filter_sublist.map _)) hsgd]
    intro address
    simp only [List.mem_map, mem_filter, List.any_eq_true, beq_iff_eq]
    constructor
    · rintro ⟨prover, ⟨-, s, hs, hvt⟩, rfl⟩
      exact ⟨s, hs, hvt⟩
    · rintro ⟨s, hs, rfl⟩
      obtain ⟨prover, hprv, hadr⟩ := hactive s hs
      exact ⟨prover, ⟨hprv, s, hs, hadr⟩, hadr.symm⟩
  calc (voters.map ProverKey.publicKey).Perm ((voters.map ProverKey.address).map (proverKey provers)) := by
        rw [List.map_map]
        exact .of_eq (map_congr_left fun prover hprv =>
          (proverKey_eq hpr (mem_of_mem_filter hprv)).symm)
    List.Perm _ ((signed.map SignedVote.address).map (proverKey provers)) := hadd.map _
    List.Perm _ (signed.map fun s => proverKey provers s.address) := .of_eq map_map

/-! ### The finalised frame -/

def voterOf (vote : FrameVote) : Bytes := (vote.publicKeySignature.bind AddressedSignature.address).getD []

structure Electorate (provers : List ProverKey) (votes : List FrameVote) : Prop where
  distinct : (votes.map voterOf).Nodup
  active : ∀ vote ∈ votes, ∃ prover ∈ provers, voterOf vote = prover.address

variable {Frame : Type}

/-- The bits of a finalised frame select the keys that were aggregated, and these are the keys of votes. -/
def SelectsAggregated (P : VotingProvider Frame) (provers : List ProverKey) (votes : List FrameVote) : Prop :=
  ∀ proposals r frame proposer, r.Of proposals (votes.map some) → P.finalizeVotes r = .ok (.ok (frame, proposer)) →
    ∃ (chosen : Frame) (signed : List SignedVote) (signature key mask : Bytes), (∀ s ∈ signed, s.vote ∈ votes ∧ s.address = voterOf s.vote) ∧
      P.aggregate (signed.map fun s => proverKey provers s.address) (signed.map SignedVote.signature) = .ok (signature, key) ∧
      frame = P.finalizedFrame chosen ⟨some signature, some key, some mask⟩ ∧
      (signerKeys mask provers).Perm (signed.map fun s => proverKey provers s.address)

section
variable {frameNumber : Nat} {proposer : Bytes} {votes : List FrameVote}

theorem signedVote_eq_some {vote : FrameVote} {s : SignedVote} (h : signedVote frameNumber proposer (some vote) = some s) :
    s.vote = vote ∧ s.address = voterOf vote := by
  rw [signedVote, bind_some] at h
  split_ifs at h
  obtain ⟨addressed, hs, h⟩ := bind_eq_some_iff.mp h
  obtain ⟨sig, -, h⟩ := bind_eq_some_iff.mp h
  obtain ⟨address, hadr, rfl⟩ := map_eq_some_iff.mp h
  exact ⟨rfl, by rw [voterOf, hs, bind_some, hadr, getD_some]⟩

theorem addresses_sublist :
    ((votes.filterMap fun vote => signedVote frameNumber proposer (some vote)).map SignedVote.address).Sublist
      (votes.map voterOf) := by
  induction votes with
  | nil => exact .slnil
  | cons vote votes ih =>
    rw [filterMap_cons, map_cons]
    cases hs : signedVote frameNumber proposer (some vote) with
    | none => exact ih.cons _
    | some s =>
      rw [map_cons, (signedVote_eq_some hs).2]
      exact ih.cons_cons _

end

section
variable {P : VotingProvider Frame} {Eligible : Frame → Bytes → Prop} (hP : P.Lawful Eligible)
include hP

theorem finalizeVotes_ok {props : List (Option Frame)} {votes : List (Option FrameVote)} {r : Ranges Frame}
    {frame : Frame} {proposer : Bytes} (hactive : P.getActiveProvers = .ok provers) (hr : r.Of props votes)
    (h : P.finalizeVotes r = .ok (.ok (frame, proposer))) : ∃ c sig key, P.Contends Eligible props votes c ∧
      P.aggregate ((r.collected.filterMap (signedVote (P.frameNumber c.1) (P.votedFor c.1 c.2))).map fun s =>
          proverKey provers s.address)
        ((r.collected.filterMap (signedVote (P.frameNumber c.1) (P.votedFor c.1 c.2))).map SignedVote.signature) =
          .ok (sig, key) ∧
      frame = P.finalizedFrame c.1 ⟨some sig, some key, some (bitmask (P.marks c.2) provers
        (r.collected.filterMap (signedVote (P.frameNumber c.1) (P.votedFor c.1 c.2))))⟩ := by
  have hrn : ¬ P.Panics props votes := by
    intro hpan
    rw [finalizeVotes, chooseProposal_panics hP hr hpan] at h
    cases h
  obtain ⟨_ | c, hc, hcon, -⟩ := chooseProposal_spec hP hr hrn
  · rw [finalizeVotes, hc] at h
    cases h
  · refine ⟨c, ?_⟩
    rw [finalizeVotes_eq hc, aggregateVotes, hactive] at h
    dsimp only at h
    by_cases hu : ∃ vote ∈ r.collected, Unsigned (P.frameNumber c.1) (P.votedFor c.1 c.2) vote
    · obtain ⟨vote, hm, hvt⟩ := hu
      rw [collectSigned_error hm hvt] at h
      cases h
    · rw [collectSigned_eq fun vote hm hvt => hu ⟨vote, hm, hvt⟩, ok_bind] at h
      split_ifs at h
      · cases h
      · split at h
        · cases h
        · rename_i sig key hagg
          cases h
          exact ⟨sig, key, hcon c rfl, hagg, rfl⟩

theorem Electorate.selectsAggregated {votes : List FrameVote} (hactive : P.getActiveProvers = .ok provers) (hpr : (provers.map ProverKey.address).Nodup)
    (h : Electorate provers votes) : P.SelectsAggregated provers votes := by
  intro props r frame proposer hr hfn
  obtain ⟨c, sig, key, hc, hagg, rfl⟩ := finalizeVotes_ok hP hactive hr hfn
  have hpe : (r.collected.filterMap (signedVote (P.frameNumber c.1) (P.votedFor c.1 c.2))).Perm
      (votes.filterMap fun vote => signedVote (P.frameNumber c.1) (P.votedFor c.1 c.2) (some vote)) := by
    have hfil := hr.collected.filterMap (signedVote (P.frameNumber c.1) (P.votedFor c.1 c.2))
    rwa [filterMap_map] at hfil
  set signed := r.collected.filterMap (signedVote (P.frameNumber c.1) (P.votedFor c.1 c.2))
  have hvo : ∀ s ∈ signed, s.vote ∈ votes ∧ s.address = voterOf s.vote := by
    intro s hs
    obtain ⟨vote, hvt, hsgd⟩ := mem_filterMap.mp (hpe.mem_iff.mp hs)
    obtain ⟨rfl, hadr⟩ := signedVote_eq_some hsgd
    exact ⟨hvt, hadr⟩
  have hmr : ∀ s ∈ signed, P.marks c.2 s.vote = true := fun s hs => hc.marks hP (proposer_of_signed hs)
  have hnd : (signed.map SignedVote.address).Nodup :=
    (hpe.map SignedVote.address).nodup_iff.mpr (h.distinct.sublist addresses_sublist)
  refine ⟨c.1, signed, sig, key, _, hvo, hagg, rfl, ?_⟩
  rw [bitmask_eq hmr]
  refine signerKeys_bitmask hpr hnd fun s hs => ?_
  obtain ⟨hvt, hadr⟩ := hvo s hs
  rw [hadr]
  exact h.active s.vote hvt

end

end VotingProvider

open VotingProvider

/-! ### Runs -/

def peerIdentity (id : Bytes) : String := String.ofList ((hexadecimal id).map fun d => Char.ofNat d.toNat)

def VoteMessage.rank (vote : VoteMessage) : UInt64 := UInt64.ofNat vote.frameNumber

/-- A prover with its signatures of a message in a domain. `Valid` says which signatures are of a key. -/
structure Signer (Valid : Bytes → Bytes → Bytes → Bytes → Prop) where
  prover : ProverKey
  sign : Bytes → Bytes → Bytes
  valid : ∀ message domain, Valid prover.publicKey (sign message domain) message domain

abbrev ProverAnswer := Option Bytes → Except String (List ProverKey)

/-- Where the engines differ: the handler, and what of a header a vote is about. -/
structure VotingEngine (Header Bundle : Type) where
  handleVote : ProverAnswer → FrameStore Header Bundle → Option VoteMessage → Except Fault (Option VoteCall)
  frameNumber : Header → Nat
  proposer : Header → Option Bytes
  payload : Header → Except String Bytes
  domain : Bytes

def GlobalConsensusEngine.votingEngine (env : EngineEnv) : VotingEngine GlobalFrameHeader Bundle where
  handleVote registry := handleVote { env with getActiveProvers := registry }
  frameNumber := GlobalFrameHeader.frameNumber
  proposer header := (header.publicKeySignature.bind AggregateSignature.publicKey).map env.getAddressFromPublicKey
  payload header := header.getGlobalFrameSignaturePayload env.toFrameCrypto
  domain := textBytes "global"

def AppConsensusEngine.votingEngine (env : EngineEnv) (appAddress : Bytes) : VotingEngine FrameHeader Bundle where
  handleVote _ _ message := .ok (handleVote message)
  frameNumber := FrameHeader.frameNumber
  proposer header := some header.prover
  payload header := header.getFrameSignaturePayload env.toFrameCrypto
  domain := textBytes "shard" ++ appAddress

/-- What happens to the votes: a message comes, with the registry and the stored frames as they are then, the node
    decides for a proposal, or the machine moves past a rank. -/
inductive VotingEvent (Header Bundle : Type)
  | received (registry : ProverAnswer) (frameStore : FrameStore Header Bundle) (message : Option VoteMessage)
  | decided (header : Header)
  | progressed (rank : UInt64)

namespace VotingEngine

variable {Valid : Bytes → Bytes → Bytes → Bytes → Prop} {E : VotingEngine Header Bundle} {node : Signer Valid}
  {provers : List ProverKey} {t : Table VoteMessage}

/-- The vote that `DecideAndSendVote` sends for a proposal. -/
def cast (E : VotingEngine Header Bundle) (signer : Signer Valid) (header : Header) : Option VoteMessage :=
  match E.payload header, E.proposer header with
  | .ok payload, some proposer => some {
      frameNumber := E.frameNumber header
      proposer := proposer
      publicKeySignature := some ⟨some (signer.sign payload E.domain), some signer.prover.address⟩
      approve := true }
  | _, _ => none

/-- The votes of the state machine after an event. Each change is made under the mutex of the machine. -/
def step (E : VotingEngine Header Bundle) (node : Signer Valid) (t : Table VoteMessage) :
    VotingEvent Header Bundle → Except Fault (Table VoteMessage)
  | .received registry frameStore message => do
    match ← E.handleVote registry frameStore message with
    | none => return t
    | some call => return t.putNew call.vote.rank (peerIdentity call.voter) call.vote
  | .decided header =>
    match E.cast node header with
    | none => .ok t
    | some vote => .ok (t.put vote.rank (peerIdentity node.prover.address) vote)
  | .progressed rank => .ok (t.delete rank)

def run (E : VotingEngine Header Bundle) (node : Signer Valid) (events : List (VotingEvent Header Bundle)) :
    Except Fault (Table VoteMessage) :=
  events.foldlM (E.step node) fun _ => []

/-- The call names an active prover, approves, and has the prover's signature of a stored proposal with the number
    and the proposer of the vote. -/
structure Authentic (E : VotingEngine Header Bundle) (Valid : Bytes → Bytes → Bytes → Bytes → Prop)
    (provers : List ProverKey) (frameStore : FrameStore Header Bundle) (call : VoteCall) : Prop where
  approves : call.vote.approve = true
  voter : call.voter = voterOf call.vote.toFrameVote
  signed : ∃ prover ∈ provers, call.voter = prover.address ∧ ∃ entry ∈ frameStore.entries, ∃ header,
    entry.2.header = some header ∧ E.frameNumber header = call.vote.frameNumber ∧
    E.proposer header = some call.vote.proposer ∧ ∃ payload, E.payload header = .ok payload ∧
    Valid prover.publicKey ((call.vote.publicKeySignature.bind AddressedSignature.signature).getD []) payload E.domain

/-- All calls are authentic, and the votes of each rank come from distinct active provers. -/
structure Authenticates (E : VotingEngine Header Bundle) (node : Signer Valid) (provers : List ProverKey)
    (events : List (VotingEvent Header Bundle)) : Prop where
  calls : ∀ registry frameStore message call, .received registry frameStore message ∈ events →
    E.handleVote registry frameStore message = .ok (some call) → E.Authentic Valid provers frameStore call
  votes : ∀ t, E.run node events = .ok t → ∀ rank, Electorate provers ((t rank).map fun entry => entry.2.toFrameVote)

/-- Every vote is filed under its voter, once, and the voter is active. -/
def Filed (provers : List ProverKey) (t : Table VoteMessage) : Prop :=
  ∀ rank, ((t rank).map Prod.fst).Nodup ∧ ∀ entry ∈ t rank, entry.1 = peerIdentity (voterOf entry.2.toFrameVote) ∧
    ∃ prover ∈ provers, voterOf entry.2.toFrameVote = prover.address

variable {rank : UInt64} {vote : VoteMessage}

section
variable (h : Filed provers t)
include h

section
variable (hactive : ∃ prover ∈ provers, voterOf vote.toFrameVote = prover.address)
include hactive

theorem Filed.put : Filed provers (t.put rank (peerIdentity (voterOf vote.toFrameVote)) vote) := by
  intro r
  constructor
  · by_cases hr : r = rank
    · subst hr
      rw [Table.put, update_self, map_append, nodup_append]
      refine ⟨(h r).1.sublist (filter_sublist.map _), nodup_singleton _, ?_⟩
      rintro id hid _ hnew rfl
      obtain ⟨entry, hen, rfl⟩ := mem_map.mp hid
      exact of_decide_eq_true (mem_filter.mp hen).2 (mem_singleton.mp hnew)
    · rw [Table.put, update_of_ne hr]
      exact (h r).1
  · intro entry hen
    obtain hm | ⟨-, rfl⟩ := Table.mem_put hen
    · exact (h r).2 entry hm
    · exact ⟨rfl, hactive⟩

theorem Filed.putNew : Filed provers (t.putNew rank (peerIdentity (voterOf vote.toFrameVote)) vote) := by
  rw [Table.putNew]
  split_ifs
  · exact h
  · exact h.put hactive

end

theorem Filed.delete : Filed provers (t.delete rank) := by
  intro r
  by_cases hr : r = rank
  · subst hr
    rw [Table.delete, update_self]
    exact ⟨nodup_nil, fun entry hen => absurd hen not_mem_nil⟩
  · rw [Table.delete, update_of_ne hr]
    exact h r

theorem Filed.electorate (rank : UInt64) : Electorate provers ((t rank).map fun entry => entry.2.toFrameVote) where
  distinct := by
    have hky : ((t rank).map fun entry => peerIdentity (voterOf entry.2.toFrameVote)) = (t rank).map Prod.fst :=
      map_congr_left fun entry hen => ((h rank).2 entry hen).1.symm
    have hnd : (((t rank).map fun entry => voterOf entry.2.toFrameVote).map peerIdentity).Nodup := by
      rw [List.map_map, comp_def, hky]
      exact (h rank).1
    rw [List.map_map]
    exact hnd.of_map
  active vote hvt := by
    obtain ⟨entry, hen, rfl⟩ := mem_map.mp hvt
    exact ((h rank).2 entry hen).2

end

theorem voterOf_cast {signer : Signer Valid} {hdr : Header} (h : E.cast signer hdr = some vote) :
    voterOf vote.toFrameVote = signer.prover.address := by
  rw [cast] at h
  split at h
  · cases h
    rfl
  · cases h

theorem step_filed {event : VotingEvent Header Bundle} {t' : Table VoteMessage}
    (hcall : ∀ reg frameStore message call, event = .received reg frameStore message →
      E.handleVote reg frameStore message = .ok (some call) → E.Authentic Valid provers frameStore call)
    (hnd : ∀ hdr, event = .decided hdr → node.prover ∈ provers) (h : Filed provers t)
    (hst : E.step node t event = .ok t') : Filed provers t' := by
  cases event with
  | received reg frameStore message =>
    rw [step] at hst
    cases hh : E.handleVote reg frameStore message with
    | error e =>
      rw [hh] at hst
      cases hst
    | ok call =>
      rw [hh] at hst
      cases call with
      | none =>
        cases hst
        exact h
      | some call =>
        cases hst
        have hath := hcall reg frameStore message call rfl hh
        obtain ⟨prover, hprv, hvt, -⟩ := hath.signed
        rw [hath.voter] at hvt ⊢
        exact h.putNew ⟨prover, hprv, hvt⟩
  | decided hdr =>
    rw [step] at hst
    cases hcs : E.cast node hdr with
    | none =>
      rw [hcs] at hst
      cases hst
      exact h
    | some vote =>
      rw [hcs] at hst
      cases hst
      rw [← voterOf_cast hcs]
      exact h.put ⟨node.prover, hnd hdr rfl, voterOf_cast hcs⟩
  | progressed rank =>
    cases hst
    exact h.delete

theorem authenticates_of_calls {events : List (VotingEvent Header Bundle)}
    (hcl : ∀ reg frameStore message call, .received reg frameStore message ∈ events →
      E.handleVote reg frameStore message = .ok (some call) → E.Authentic Valid provers frameStore call)
    (hnd : ∀ hdr, .decided hdr ∈ events → node.prover ∈ provers) : E.Authenticates node provers events where
  calls := hcl
  votes t hr rank := by
    refine Filed.electorate ?_ rank
    have hem : Filed provers fun _ => [] := fun _ => ⟨nodup_nil, fun entry hen => absurd hen not_mem_nil⟩
    refine foldlM_inv_of_ok (Filed provers) hr hem fun event hev t t' h hst => ?_
    refine step_filed (fun reg frameStore message call heq => ?_) (fun hdr heq => ?_) h hst
    · exact hcl reg frameStore message call (heq ▸ hev)
    · exact hnd hdr (heq ▸ hev)

end VotingEngine

/-! ### The global engine -/

namespace GlobalConsensusEngine

variable {env : EngineEnv} {Valid : Bytes → Bytes → Bytes → Bytes → Prop} {provers : List ProverKey}

/-- A message is in order if the registry knows the active provers and the vote approves. -/
def Orderly (provers : List ProverKey) (registry : ProverAnswer) (message : Option VoteMessage) : Prop :=
  (∀ answer, registry none = .ok answer → answer = provers) ∧ ∀ vote ∈ message, vote.approve = true

theorem voterPublicKey_eq_some {address key : Bytes} (h : voterPublicKey provers address = some key) :
    ∃ prover ∈ provers, prover.address = address ∧ prover.publicKey = key := by
  obtain ⟨prover, hfn, h⟩ := bind_eq_some_iff.mp h
  split_ifs at h
  exact ⟨prover, mem_of_find?_eq_some hfn, by simpa using find?_some hfn, some.inj h⟩

theorem isProposal_true {vote : FrameVote} {frame : FrameMessage GlobalFrameHeader Bundle}
    (h : isProposal env vote frame = .ok true) :
    ∃ hdr, frame.header = some hdr ∧ hdr.frameNumber = vote.frameNumber ∧
      (hdr.publicKeySignature.bind AggregateSignature.publicKey).map env.getAddressFromPublicKey = some vote.proposer := by
  rw [isProposal] at h
  split at h
  · cases h
  · rename_i hdr hh
    by_cases hnum : hdr.frameNumber ≠ vote.frameNumber
    · rw [if_pos hnum] at h
      cases h
    rw [if_neg hnum] at h
    split at h
    · cases h
    · rename_i key hkey
      rw [GlobalVotingProvider.proposerKey, hh, bind_some] at hkey
      refine ⟨hdr, hh, not_not.mp hnum, ?_⟩
      rw [hkey, map_some, beq_iff_eq.mp (ok.inj h)]

theorem checkVote_true {key sig : Bytes} {frame : FrameMessage GlobalFrameHeader Bundle} {hdr : GlobalFrameHeader}
    (hh : frame.header = some hdr) (h : checkVote env key sig frame = true) :
    ∃ payload, hdr.getGlobalFrameSignaturePayload env.toFrameCrypto = .ok payload ∧
      env.bls.verifySignatureRaw key sig payload (textBytes "global") = true := by
  rw [checkVote, hh] at h
  dsimp only at h
  split at h
  · cases h
  · rename_i payload hpay
    exact ⟨payload, hpay, h⟩

variable {frameStore : FrameStore GlobalFrameHeader Bundle} {message : Option VoteMessage} {call : VoteCall}

theorem handleVote_some (h : handleVote env frameStore message = .ok (some call)) :
    ∃ vote s proverSet key frame, message = some vote ∧ vote.publicKeySignature = some s ∧
      env.getActiveProvers none = .ok proverSet ∧ voterPublicKey proverSet (s.address.getD []) = some key ∧
      frame ∈ frameStore.entries.map Prod.snd ∧ isProposal env vote.toFrameVote frame = .ok true ∧
      checkVote env key (s.signature.getD []) frame = true ∧ call = ⟨vote.proposer, s.address.getD [], vote⟩ := by
  cases message with
  | none => cases h
  | some vote =>
    simp only [handleVote] at h
    split at h
    · cases h
    split at h
    · cases h
    · rename_i s hs
      split at h
      · cases h
      · rename_i proverSet hpr
        split at h
        · cases h
        · rename_i key hkey
          rw [bind_eq_ok] at h
          obtain ⟨found, hfn, h⟩ := h
          cases found with
          | none => cases h
          | some frame =>
            dsimp only at h
            split_ifs at h with hch
            · cases h
              obtain ⟨hm, hprp⟩ := findM?_ok hfn
              exact ⟨vote, s, proverSet, key, frame, rfl, hs, hpr, hkey, hm, hprp, hch, rfl⟩
            · cases h

theorem handleVote_authentic {reg : ProverAnswer}
    (hsn : ∀ key sig message domain, env.bls.verifySignatureRaw key sig message domain = true →
      Valid key sig message domain) (ho : Orderly provers reg message)
    (h : (votingEngine env).handleVote reg frameStore message = .ok (some call)) :
    (votingEngine env).Authentic Valid provers frameStore call := by
  obtain ⟨vote, s, proverSet, key, frame, rfl, hs, hpr, hkey, hm, hprp, hch, rfl⟩ := handleVote_some h
  obtain rfl := ho.1 proverSet hpr
  obtain ⟨prover, hprv, hadr, rfl⟩ := voterPublicKey_eq_some hkey
  obtain ⟨hdr, hh, hnum, hpp⟩ := isProposal_true hprp
  obtain ⟨payload, hpay, hv⟩ := checkVote_true hh hch
  obtain ⟨entry, hen, rfl⟩ := mem_map.mp hm
  have hvl := hsn _ _ _ _ hv
  refine ⟨ho.2 vote rfl, ?_, prover, hprv, hadr.symm, entry, hen, hdr, hh, hnum, hpp, payload, hpay, ?_⟩
  · rw [voterOf, hs, bind_some]
  · rw [hs, bind_some]
    exact hvl

theorem vote_of_handleVote {reg : ProverAnswer}
    (h : (votingEngine env).handleVote reg frameStore message = .ok (some call)) : message = some call.vote := by
  obtain ⟨vote, s, proverSet, key, frame, rfl, -, -, -, -, -, -, rfl⟩ := handleVote_some h
  rfl

end GlobalConsensusEngine

/-! ### The engine of app shards -/

namespace AppConsensusEngine

variable {env : EngineEnv} {appAddress : Bytes} {Valid : Bytes → Bytes → Bytes → Bytes → Prop} {provers : List ProverKey}

/-- A message is in order if an active prover sends it for a stored proposal. -/
def Orderly (env : EngineEnv) (appAddress : Bytes) (Valid : Bytes → Bytes → Bytes → Bytes → Prop)
    (provers : List ProverKey) (frameStore : FrameStore FrameHeader Bundle) (message : Option VoteMessage) : Prop :=
  ∀ vote ∈ message, vote.publicKeySignature.isSome → ∃ signer : Signer Valid, signer.prover ∈ provers ∧
    ∃ entry ∈ frameStore.entries, ∃ header, entry.2.header = some header ∧
      (votingEngine env appAddress : VotingEngine FrameHeader Bundle).cast signer header = some vote

theorem handleVote_authentic {reg : ProverAnswer} {frameStore : FrameStore FrameHeader Bundle}
    {message : Option VoteMessage} {call : VoteCall} (ho : Orderly env appAddress Valid provers frameStore message)
    (h : (votingEngine env appAddress).handleVote reg frameStore message = .ok (some call)) :
    (votingEngine env appAddress).Authentic Valid provers frameStore call := by
  obtain ⟨vote, rfl, hcall⟩ := bind_eq_some_iff.mp (ok.inj h)
  obtain ⟨s, hs, rfl⟩ := map_eq_some_iff.mp hcall
  obtain ⟨signer, hsgn, entry, hen, hdr, hh, hcs⟩ := ho vote rfl (hs ▸ rfl)
  have hvt := VotingEngine.voterOf_cast hcs
  have hadr : s.address.getD [] = voterOf vote.toFrameVote := by rw [voterOf, hs, bind_some]
  rw [VotingEngine.cast] at hcs
  split at hcs
  · rename_i payload proposer hpay hpr
    cases hcs
    exact ⟨rfl, hadr, signer.prover, hsgn, hadr.trans hvt, entry, hen, hdr, hh, rfl, hpr,
      payload, hpay, signer.valid payload _⟩
  · cases hcs

end AppConsensusEngine

/-! ### Both engines -/

/-- If the votes that the global engine gets approve, those that the engine of an app shard gets are sent by active provers
    for stored proposals, and a node that votes is active itself, then in every run each vote that is passed on is
    authentic, the votes of a rank come from distinct active provers, and the bitmask of the finalised frame selects the
    keys that were aggregated. -/
theorem counted_votes_authentic (env : EngineEnv) (appAddress : Bytes) (Valid : Bytes → Bytes → Bytes → Bytes → Prop)
    (hsound : ∀ key signature message domain, env.bls.verifySignatureRaw key signature message domain = true →
      Valid key signature message domain)
    (provers : List ProverKey) (hprovers : (provers.map ProverKey.address).Nodup) (node : Signer Valid) :
    (∀ events : List (VotingEvent GlobalFrameHeader Bundle),
      (∀ registry frameStore message, .received registry frameStore message ∈ events →
        GlobalConsensusEngine.Orderly provers registry message) →
      (∀ header, .decided header ∈ events → node.prover ∈ provers) →
      (GlobalConsensusEngine.votingEngine env).Authenticates node provers events ∧
      ∀ t, (GlobalConsensusEngine.votingEngine env).run node events = .ok t →
        ∀ rank votingEnv getAddressFromPublicKey, votingEnv.getActiveProvers = .ok provers →
        (GlobalVotingProvider.provider votingEnv getAddressFromPublicKey :
          VotingProvider (FrameMessage GlobalFrameHeader Bundle)).SelectsAggregated provers
            ((t rank).map fun entry => entry.2.toFrameVote)) ∧ (∀ events : List (VotingEvent FrameHeader Bundle),
      (∀ registry frameStore message, .received registry frameStore message ∈ events →
        AppConsensusEngine.Orderly env appAddress Valid provers frameStore message) →
      (∀ header, .decided header ∈ events → node.prover ∈ provers) →
      (AppConsensusEngine.votingEngine env appAddress).Authenticates node provers events ∧
      ∀ t, (AppConsensusEngine.votingEngine env appAddress).run node events = .ok t →
        ∀ rank votingEnv frameStore parentFrame, votingEnv.getActiveProvers = .ok provers →
        (AppVotingProvider.provider votingEnv frameStore parentFrame :
          VotingProvider (FrameMessage FrameHeader Bundle)).SelectsAggregated provers
            ((t rank).map fun entry => entry.2.toFrameVote)) := by
  constructor
  · intro events ho hnd
    have haut : (GlobalConsensusEngine.votingEngine env).Authenticates node provers events :=
      VotingEngine.authenticates_of_calls (fun registry frameStore message call hm hcall =>
        GlobalConsensusEngine.handleVote_authentic hsound (ho registry frameStore message hm) hcall) hnd
    refine ⟨haut, fun t hr rank votingEnv getAddressFromPublicKey hactive => ?_⟩
    exact (haut.votes t hr rank).selectsAggregated GlobalVotingProvider.lawful hactive hprovers
  · intro events ho hnd
    have haut : (AppConsensusEngine.votingEngine env appAddress).Authenticates node provers events :=
      VotingEngine.authenticates_of_calls (fun registry frameStore message call hm hcall =>
        AppConsensusEngine.handleVote_authentic (ho registry frameStore message hm) hcall) hnd
    refine ⟨haut, fun t hr rank votingEnv frameStore parentFrame hactive => ?_⟩
    exact (haut.votes t hr rank).selectsAggregated AppVotingProvider.lawful hactive hprovers

def soleSigner : Signer fun key signature message domain =>
    sampleEngine.bls.verifySignatureRaw key signature message domain = true where
  prover := ⟨List.replicate 32 0, List.replicate 585 7⟩
  sign _ _ := List.replicate 74 0
  valid _ _ := rfl

def sampleVote (proposer address : Bytes) (approve : Bool) : VoteMessage where
  frameNumber := 1
  proposer := proposer
  publicKeySignature := some ⟨some (List.replicate 74 0), some address⟩
  approve := approve

/-- A message that is handled while the prover is the only active one and the frame the only stored one. -/
def sampleReceived (header : Header) (vote : VoteMessage) : VotingEvent Header Unit :=
  .received (fun _ => .ok [soleSigner.prover]) (soleFrame header) (some vote)

theorem handleVote_sample (approve : Bool) :
    ((GlobalConsensusEngine.votingEngine sampleEngine).handleVote (fun _ => .ok [soleSigner.prover])
      (soleFrame (sampleGlobalHeader (replicate 585 7) [1]))
      (some (sampleVote (replicate 32 0) (replicate 32 0) approve))).okAnd isSome = true := by
  revert approve
  decide +kernel

theorem cast_sample : (AppConsensusEngine.votingEngine sampleEngine [1] : VotingEngine FrameHeader Unit).cast soleSigner
      (sampleHeader (replicate 585 7) [1]) = some (sampleVote [1] (replicate 32 0) true) := by
  have hpay : ((AppConsensusEngine.votingEngine sampleEngine [1] : VotingEngine FrameHeader Unit).payload
      (sampleHeader (replicate 585 7) [1])).okAnd (fun _ => true) = true := by decide +kernel
  obtain ⟨payload, hpay, -⟩ := okAnd_iff.mp hpay
  rw [VotingEngine.cast, hpay]
  rfl

theorem counted_votes_authentic_sole :
    (GlobalConsensusEngine.votingEngine sampleEngine).Authenticates soleSigner [soleSigner.prover]
      [sampleReceived (sampleGlobalHeader (replicate 585 7) [1])
        (sampleVote (replicate 32 0) (replicate 32 0) true),
       .decided (sampleGlobalHeader (replicate 585 7) [1])] ∧
    (AppConsensusEngine.votingEngine sampleEngine [1]).Authenticates soleSigner [soleSigner.prover]
      [sampleReceived (sampleHeader (replicate 585 7) [1]) (sampleVote [1] (replicate 32 0) true),
       .decided (sampleHeader (replicate 585 7) [1])] := by
  obtain ⟨hgl, happ⟩ := @counted_votes_authentic Unit sampleEngine [1] _ (fun _ _ _ _ h => h) [soleSigner.prover]
    (nodup_singleton _) soleSigner
  refine ⟨(hgl _ ?_ fun _ _ => mem_singleton_self _).1, (happ _ ?_ fun _ _ => mem_singleton_self _).1⟩
  · rintro registry frameStore message hm
    obtain heq | hm := mem_cons.mp hm
    · cases heq
      refine ⟨fun answer h => (ok.inj h).symm, fun vote hvt => ?_⟩
      cases hvt
      rfl
    · cases mem_singleton.mp hm
  · rintro registry frameStore message hm
    obtain heq | hm := mem_cons.mp hm
    · cases heq
      intro vote hvt _
      cases hvt
      exact ⟨soleSigner, mem_singleton_self _, _, mem_singleton_self _, _, rfl, cast_sample⟩
    · cases mem_singleton.mp hm

/-- The global engine passes on a vote that does not approve, the engine of an app shard one of a prover that nobody
    knows. -/
theorem vote_unauthenticated :
    ¬ (GlobalConsensusEngine.votingEngine sampleEngine).Authenticates soleSigner [soleSigner.prover]
      [sampleReceived (sampleGlobalHeader (replicate 585 7) [1])
        (sampleVote (replicate 32 0) (replicate 32 0) false)] ∧
    ¬ (AppConsensusEngine.votingEngine sampleEngine [1]).Authenticates soleSigner [soleSigner.prover]
      [sampleReceived (sampleHeader (replicate 585 7) [1]) (sampleVote [1] [9] true)] := by
  constructor
  · intro h
    obtain ⟨_ | call, hcall, hsm⟩ := okAnd_iff.mp (handleVote_sample false)
    · cases hsm
    · have hap := (h.calls _ _ _ call (mem_singleton_self _) hcall).approves
      rw [← some.inj (GlobalConsensusEngine.vote_of_handleVote hcall)] at hap
      cases hap
  · intro h
    have hcall : (AppConsensusEngine.votingEngine sampleEngine [1]).handleVote (fun _ => .ok [soleSigner.prover])
        (soleFrame (sampleHeader (replicate 585 7) [1])) (some (sampleVote [1] [9] true)) =
          .ok (some ⟨[1], [9], sampleVote [1] [9] true⟩) := rfl
    obtain ⟨prover, hprv, hvt, -⟩ := (h.calls _ _ _ _ (mem_singleton_self _) hcall).signed
    rw [mem_singleton.mp hprv] at hvt
    exact absurd hvt (by decide)

/-! ### Bitmasks -/

/-- The validators read back which provers have a vote. -/
theorem selectedKeys_bitmask (marks : FrameVote → Bool) (provers : List ProverKey) (signed : List SignedVote)
    (hn : provers.length ≤ 256) : selectedKeys (getSetBitIndices (bitmask marks provers signed)) provers =
      (provers.filter fun prover => (voterVote signed prover.address).any marks).map ProverKey.publicKey := by
  obtain ⟨hln, hs⟩ := signs_foldl (fun prover : ProverKey => (voterVote signed prover.address).any marks)
    provers.zipIdx (replicate ((provers.length + 7) / 8) 0) fun x hx => by
      have := (mem_zipIdx' hx).1
      rw [length_replicate]
      omega
  rw [selectedKeys_eq (unwrapped_of_le (by rw [bitmask, hln, length_replicate]; omega) hn), signerKeys,
    ← zipIdx_map_fst 0 provers, List.filter_map, List.map_map, zipIdx_map_fst]
  refine congrArg _ (filter_congr fun x hx => ?_)
  rw [Bool.eq_iff_iff, bitmask, hs]
  simp [signs, maskByte, hasBit, mk_mem_zipIdx_iff_getElem?, mem_zipIdx_iff_getElem?.mp hx]

theorem selectedKeys_bitmask_second :
    selectedKeys (getSetBitIndices (bitmask (fun _ => true) threeProvers [⟨voteOf [0] 1, [], [1]⟩])) threeProvers = [[1]] :=
  selectedKeys_bitmask _ threeProvers _ (by decide)

end Quilibrium
