import Quilibrium.Lib.Except
import Quilibrium.Lib.Quorum
import Quilibrium.Consensus.Voting
import Mathlib.Data.List.Perm.Basic

/-! What `FinalizeVotes` may choose. The order of the loops over the maps decides between proposals with the same number
    of votes. -/

namespace Quilibrium
open Function Except List

/-- The loops go through the values of the maps. -/
structure Ranges.Of {Frame : Type} (proposals : List (Option Frame)) (votes : List (Option FrameVote)) (r : Ranges Frame) :
    Prop where
  counted : r.counted.Perm votes
  tallied : r.tallied.Perm proposals
  fallback : r.fallback.Perm proposals
  collected : r.collected.Perm votes

namespace VotingProvider

variable {Frame : Type} {P : VotingProvider Frame} {votes votes' : List (Option FrameVote)}
  {proposals proposals' : List (Option Frame)}

/-! ### Counting -/

def votesFor (votes : List (Option FrameVote)) (proposer : Bytes) : Nat :=
  votes.countP fun vote => vote.any fun vote => vote.proposer == proposer

theorem votesFor_perm (h : votes.Perm votes') : votesFor votes = votesFor votes' := funext fun _ => h.countP_eq _

theorem countVotes_eq (h : none ∉ votes) : countVotes votes = .ok (votesFor votes) := by
  have hlp : ∃ count, countVotes votes = .ok count ∧ count = votesFor votes := by
    apply foldlM_ok_of_inv fun done count => count = votesFor done
    · rfl
    · intro done vote rest count hsp hcn
      cases vote with
      | none => exact absurd (hsp ▸ mem_append_right done mem_cons_self) h
      | some vote =>
        refine ⟨_, rfl, funext fun x => ?_⟩
        simp only [hcn, update_apply, votesFor, countP_append, countP_singleton, Option.any_some]
        by_cases hx : x = vote.proposer
        · simp [hx]
        · simp [hx, Ne.symm hx]
  obtain ⟨count, hcn, rfl⟩ := hlp
  exact hcn

theorem countVotes_error (h : none ∈ votes) : countVotes votes = .error .nilDereference := by
  apply foldlM_error_of_mem h
  · exact fun _ => rfl
  · intro count vote e he
    cases vote with
    | none => exact (error.inj he).symm
    | some vote => cases he

/-! ### The loop over the proposals -/

section
variable {tally : Frame → Except Fault (Bytes × Nat)} {frame : Frame} {proposer : Bytes} {n : Nat}

section
variable (htally : ∀ frame, some frame ∈ proposals → ∃ r, tally frame = .ok r)
include htally

theorem tallyProposals_spec : ∃ winnerCount chosen, tallyProposals tally proposals = .ok (winnerCount, chosen) ∧
      (∀ frame proposer n, some frame ∈ proposals → tally frame = .ok (proposer, n) → n ≤ winnerCount) ∧
      (chosen = none → winnerCount = 0) ∧
      ∀ c, chosen = some c → some c.1 ∈ proposals ∧ tally c.1 = .ok (c.2, winnerCount) ∧ 0 < winnerCount := by
  have hlp : ∃ state, tallyProposals tally proposals = .ok state ∧
      (∀ frame proposer n, some frame ∈ proposals → tally frame = .ok (proposer, n) → n ≤ state.1) ∧
      (state.2 = none → state.1 = 0) ∧
      ∀ c, state.2 = some c → some c.1 ∈ proposals ∧ tally c.1 = .ok (c.2, state.1) ∧ 0 < state.1 := by
    apply foldlM_ok_of_inv fun done (state : Nat × Option (Frame × Bytes)) =>
      (∀ frame proposer n, some frame ∈ done → tally frame = .ok (proposer, n) → n ≤ state.1) ∧
      (state.2 = none → state.1 = 0) ∧
      ∀ c, state.2 = some c → some c.1 ∈ done ∧ tally c.1 = .ok (c.2, state.1) ∧ 0 < state.1
    · exact ⟨fun _ _ _ h => (not_mem_nil h).elim, fun _ => rfl, nofun⟩
    · rintro done proposal rest ⟨winnerCount, chosen⟩ hsp ⟨hbn, hnn, hsm⟩
      cases proposal with
      | none =>
        refine ⟨_, rfl, fun frame proposer n hm => ?_, hnn, fun c hc => ?_⟩
        · exact hbn frame proposer n ((mem_append.mp hm).resolve_right (by simp))
        · exact ⟨mem_append_left _ (hsm c hc).1, (hsm c hc).2⟩
      | some frame =>
        obtain ⟨⟨proposer, n⟩, hfr⟩ := htally frame (hsp ▸ mem_append_right done mem_cons_self)
        -- a proposal seen so far is an earlier one or this one
        have hm : ∀ frame' : Frame, some frame' ∈ done ++ [some frame] ↔ some frame' ∈ done ∨ frame' = frame := by
          simp
        simp only [hfr, ok_bind, hm]
        split_ifs with hlt
        · refine ⟨_, rfl, fun frame' proposer' n' h' hfr' => ?_, fun h => absurd h (Option.some_ne_none _),
            fun c hc => ?_⟩
          · rcases h' with h' | rfl
            · exact (hbn frame' proposer' n' h' hfr').trans hlt.le
            · exact (congrArg Prod.snd (ok.inj (hfr'.symm.trans hfr))).le
          · cases Option.some.inj hc
            exact ⟨.inr rfl, hfr, (Nat.zero_le _).trans_lt hlt⟩
        · refine ⟨_, rfl, fun frame' proposer' n' h' hfr' => ?_, hnn, fun c hc => ?_⟩
          · rcases h' with h' | rfl
            · exact hbn frame' proposer' n' h' hfr'
            · exact (congrArg Prod.snd (ok.inj (hfr'.symm.trans hfr))).le.trans (not_lt.mp hlt)
          · exact ⟨.inl (hsm c hc).1, (hsm c hc).2⟩
  obtain ⟨⟨winnerCount, chosen⟩, hlp, hst⟩ := hlp
  exact ⟨winnerCount, chosen, hlp, hst⟩

theorem tallyProposals_first (hfr : tally frame = .ok (proposer, n)) (hpos : 0 < n)
    (hmax : ∀ frame' proposer' n', some frame' ∈ proposals → tally frame' = .ok (proposer', n') → n' ≤ n) :
    tallyProposals tally (some frame :: proposals) = .ok (n, some (frame, proposer)) := by
  rw [tallyProposals, foldlM_cons]
  simp only [hfr, ok_bind, if_pos hpos]
  suffices hlp : ∃ state, _ = ok state ∧ state = (n, some (frame, proposer)) by
    obtain ⟨state, hlp, rfl⟩ := hlp
    exact hlp
  apply foldlM_ok_of_inv fun _ (state : Nat × Option (Frame × Bytes)) => state = (n, some (frame, proposer))
  · rfl
  · rintro done proposal rest state hsp rfl
    cases proposal with
    | none => exact ⟨_, rfl, rfl⟩
    | some frame' =>
      have hm : some frame' ∈ proposals := hsp ▸ mem_append_right done mem_cons_self
      obtain ⟨⟨proposer', n'⟩, hfr'⟩ := htally frame' hm
      simp only [hfr', ok_bind, if_neg (not_lt.mpr (hmax frame' proposer' n' hm hfr'))]
      exact ⟨_, rfl, rfl⟩

end

theorem tallyProposals_error {e : Fault} (hm : some frame ∈ proposals) (hfr : tally frame = .error e)
    (hon : ∀ frame e', tally frame = .error e' → e' = e) : tallyProposals tally proposals = .error e := by
  apply foldlM_error_of_mem hm
  · intro state
    simp [hfr]
  · intro state proposal e' he
    cases proposal with
    | none => cases he
    | some frame' =>
      cases hfr' : tally frame' with
      | error e'' =>
        simp only [hfr', error_bind] at he
        exact error.inj he ▸ hon frame' e'' hfr'
      | ok r =>
        simp only [hfr', ok_bind] at he
        split_ifs at he

end

/-! ### The choice -/

/-- What the two providers have in common, with the proposals and proposers that the fallback may take. -/
structure Lawful (P : VotingProvider Frame) (Eligible : Frame → Bytes → Prop) : Prop where
  tally_fault : ∀ {count frame e}, P.tally count frame = .error e → e = .nilDereference
  tally_le : ∀ {count frame proposer n}, P.tally count frame = .ok (proposer, n) → n ≤ count proposer
  fallback : ∀ {count} (proposals : List (Option Frame)),
    (∀ frame, some frame ∈ proposals → ∃ r, P.tally count frame = .ok r) → ∃ chosen, P.fallback proposals = .ok chosen ∧
      (∀ c, chosen = some c → some c.1 ∈ proposals ∧ Eligible c.1 c.2) ∧
      (chosen = none → ∀ frame proposer, some frame ∈ proposals → ¬ Eligible frame proposer)
  reaches : ∀ {count frame proposer} (proposals : List (Option Frame)),
    (∀ frame, some frame ∈ proposals → ∃ r, P.tally count frame = .ok r) → some frame ∈ proposals →
    Eligible frame proposer → ∃ order, order.Perm proposals ∧ P.fallback order = .ok (some (frame, proposer))
  tally_marks : ∀ {count frame proposer n vote}, P.tally count frame = .ok (proposer, n) →
    vote.proposer = P.votedFor frame proposer → P.marks proposer vote = true
  eligible_marks : ∀ {frame proposer vote}, Eligible frame proposer → vote.proposer = P.votedFor frame proposer →
    P.marks proposer vote = true
  finalized_congr : ∀ {frame frame' s s'}, P.finalizedFrame frame s = P.finalizedFrame frame' s' →
    ∀ s, P.finalizedFrame frame s = P.finalizedFrame frame' s
  finalized_votes : ∀ {frame frame' s} (proposer), P.finalizedFrame frame s = P.finalizedFrame frame' s →
    P.frameNumber frame = P.frameNumber frame' ∧ P.votedFor frame proposer = P.votedFor frame' proposer

variable (P) in
/-- A nil vote or a proposal without the fields that are read. -/
def Panics (proposals : List (Option Frame)) (votes : List (Option FrameVote)) : Prop :=
  none ∈ votes ∨ ∃ frame, some frame ∈ proposals ∧ ∃ e, P.tally (votesFor votes) frame = .error e

variable (P) in
/-- The proposal has the most votes and at least one, or none has votes and the fallback may take it. -/
def Contends (Eligible : Frame → Bytes → Prop) (proposals : List (Option Frame)) (votes : List (Option FrameVote))
    (c : Frame × Bytes) : Prop :=
  some c.1 ∈ proposals ∧
    ((∃ n, 0 < n ∧ P.tally (votesFor votes) c.1 = .ok (c.2, n) ∧ ∀ frame proposer m, some frame ∈ proposals →
      P.tally (votesFor votes) frame = .ok (proposer, m) → m ≤ n) ∨
    ((∀ frame proposer m, some frame ∈ proposals → P.tally (votesFor votes) frame = .ok (proposer, m) → m = 0) ∧
      Eligible c.1 c.2))

variable {Eligible : Frame → Bytes → Prop} {r : Ranges Frame} {c : Frame × Bytes}

theorem Contends.tally {frame : Frame} {proposer : Bytes} {n : Nat} (hc : P.Contends Eligible proposals votes c)
    (hmem : some frame ∈ proposals) (htally : P.tally (votesFor votes) frame = .ok (proposer, n)) (hpos : 0 < n) :
    ∃ m, n ≤ m ∧ P.tally (votesFor votes) c.1 = .ok (c.2, m) := by
  obtain ⟨-, ⟨m, -, hm, hmax⟩ | ⟨hzr, -⟩⟩ := hc
  · exact ⟨m, hmax frame proposer n hmem htally, hm⟩
  · exact absurd (hzr frame proposer n hmem htally) hpos.ne'

theorem chooseProposal_panics (hP : P.Lawful Eligible) (hr : r.Of proposals votes) (h : P.Panics proposals votes) :
    P.chooseProposal r = .error .nilDereference := by
  rw [chooseProposal]
  by_cases hnil : none ∈ votes
  · rw [countVotes_error (hr.counted.mem_iff.mpr hnil), error_bind]
  · obtain ⟨frame, hm, e, htally⟩ := h.resolve_left hnil
    cases hP.tally_fault htally
    rw [countVotes_eq (mt hr.counted.mem_iff.mp hnil), votesFor_perm hr.counted, ok_bind,
      tallyProposals_error (hr.tallied.mem_iff.mpr hm) htally fun _ _ => hP.tally_fault, error_bind]

theorem tally_ok (h : ¬ P.Panics proposals votes) {frame : Frame} (hm : some frame ∈ proposals) :
    ∃ r, P.tally (votesFor votes) frame = .ok r := by
  cases htally : P.tally (votesFor votes) frame with
  | error e => exact absurd (.inr ⟨frame, hm, e, htally⟩) h
  | ok r => exact ⟨r, rfl⟩

theorem chooseProposal_spec (hP : P.Lawful Eligible) (hr : r.Of proposals votes) (h : ¬ P.Panics proposals votes) :
    ∃ chosen, P.chooseProposal r = .ok chosen ∧ (∀ c, chosen = some c → P.Contends Eligible proposals votes c) ∧
      (chosen = none → (∀ c, ¬ P.Contends Eligible proposals votes c) ∧ ∀ frame proposer m, some frame ∈ proposals →
        P.tally (votesFor votes) frame = .ok (proposer, m) → m = 0) := by
  have hnil : none ∉ r.counted := fun hm => h (.inl (hr.counted.mem_iff.mp hm))
  have ht : ∀ frame, some frame ∈ r.tallied → ∃ r, P.tally (votesFor votes) frame = .ok r := fun frame hm =>
    tally_ok h (hr.tallied.mem_iff.mp hm)
  have hfal : ∀ frame, some frame ∈ r.fallback → ∃ r, P.tally (votesFor votes) frame = .ok r := fun frame hm =>
    tally_ok h (hr.fallback.mem_iff.mp hm)
  obtain ⟨winnerCount, chosen, hlp, hbn, hnn, hsm⟩ := tallyProposals_spec ht
  simp only [hr.tallied.mem_iff] at hbn hsm
  rw [chooseProposal, countVotes_eq hnil, votesFor_perm hr.counted, ok_bind, hlp, ok_bind]
  cases chosen with
  | some c =>
    obtain ⟨hm, htally, hpos⟩ := hsm c rfl
    refine ⟨some c, rfl, fun c' hc' => ?_, fun hc' => absurd hc' (Option.some_ne_none c)⟩
    cases Option.some.inj hc'
    exact ⟨hm, .inl ⟨winnerCount, hpos, htally, hbn⟩⟩
  | none =>
    have hzr : ∀ frame proposer m, some frame ∈ proposals → P.tally (votesFor votes) frame = .ok (proposer, m) →
        m = 0 := fun frame proposer m hm htally =>
      Nat.le_zero.mp ((hbn frame proposer m hm htally).trans (hnn rfl).le)
    obtain ⟨chosen, hcho, hsm, hnn⟩ := hP.fallback r.fallback hfal
    simp only [hr.fallback.mem_iff] at hsm hnn
    refine ⟨chosen, hcho, fun c hc => ⟨(hsm c hc).1, .inr ⟨hzr, (hsm c hc).2⟩⟩, fun hc => ⟨fun c hcon => ?_, hzr⟩⟩
    obtain ⟨hm, ⟨n, hpos, htally, -⟩ | ⟨-, hel⟩⟩ := hcon
    · exact hpos.ne' (hzr _ _ _ hm htally)
    · exact hnn hc c.1 c.2 hm hel

theorem chooseProposal_reaches (hP : P.Lawful Eligible) (h : ¬ P.Panics proposals votes)
    (hc : P.Contends Eligible proposals votes c) :
    ∃ r : Ranges Frame, r.Of proposals votes ∧ r.collected = votes ∧ P.chooseProposal r = .ok (some c) := by
  obtain ⟨hm, ⟨n, hpos, htally, hmax⟩ | ⟨hzr, hel⟩⟩ := hc
  · obtain ⟨before, after, hsp⟩ := append_of_mem hm
    have hpr : (some c.1 :: (before ++ after)).Perm proposals := hsp ▸ perm_middle.symm
    have hs : ∀ frame : Frame, some frame ∈ before ++ after → some frame ∈ proposals := fun frame hfr =>
      hpr.mem_iff.mp (mem_cons_of_mem _ hfr)
    refine ⟨⟨votes, some c.1 :: (before ++ after), proposals, votes⟩, ⟨.refl _, hpr, .refl _, .refl _⟩, rfl, ?_⟩
    rw [chooseProposal, countVotes_eq fun hnil => h (.inl hnil), ok_bind,
      tallyProposals_first (fun frame hfr => tally_ok h (hs frame hfr)) htally hpos
        fun frame proposer m hfr => hmax frame proposer m (hs frame hfr), ok_bind]
    rfl
  · have ht : ∀ frame, some frame ∈ proposals → ∃ r, P.tally (votesFor votes) frame = .ok r := fun frame hfr =>
      tally_ok h hfr
    obtain ⟨order, hor, hfal⟩ := hP.reaches proposals ht hm hel
    obtain ⟨winnerCount, chosen, hlp, -, -, hsm⟩ := tallyProposals_spec ht
    refine ⟨⟨votes, proposals, order, votes⟩, ⟨.refl _, .refl _, hor, .refl _⟩, rfl, ?_⟩
    rw [chooseProposal, countVotes_eq fun hnil => h (.inl hnil), ok_bind, hlp, ok_bind]
    cases chosen with
    | none => exact hfal
    | some c' =>
      obtain ⟨hm', htl', hpos⟩ := hsm c' rfl
      exact absurd (hzr _ _ _ hm' htl') hpos.ne'

/-! ### The signature -/

/-- The vote counts for the proposer at the frame number. -/
def Matches (frameNumber : Nat) (proposer : Bytes) (vote : FrameVote) : Prop :=
  vote.frameNumber = frameNumber ∧ vote.proposer = proposer

instance Matches.instDecidable (frameNumber : Nat) (proposer : Bytes) (vote : FrameVote) :
    Decidable (Matches frameNumber proposer vote) :=
  inferInstanceAs (Decidable (_ ∧ _))

def signedVote (frameNumber : Nat) (proposer : Bytes) (vote : Option FrameVote) : Option SignedVote :=
  vote.bind fun vote =>
    if Matches frameNumber proposer vote then
      vote.publicKeySignature.bind fun s => s.signature.bind fun signature =>
        s.address.map fun address => ⟨vote, signature, address⟩
    else none

/-- A vote that counts and has no signature to look into. -/
def Unsigned (frameNumber : Nat) (proposer : Bytes) (vote : Option FrameVote) : Prop :=
  ∃ v, vote = some v ∧ Matches frameNumber proposer v ∧ v.publicKeySignature = none

section
variable {frameNumber : Nat} {proposer : Bytes}

theorem collectSigned_eq (h : ∀ vote ∈ votes, ¬ Unsigned frameNumber proposer vote) :
    collectSigned frameNumber proposer votes = .ok (votes.filterMap (signedVote frameNumber proposer)) := by
  have hlp : ∃ signed, collectSigned frameNumber proposer votes = .ok signed ∧
      signed = votes.filterMap (signedVote frameNumber proposer) := by
    apply foldlM_ok_of_inv fun done signed => signed = done.filterMap (signedVote frameNumber proposer)
    · rfl
    · rintro done vote rest signed hsp rfl
      have hvt := h vote (hsp ▸ mem_append_right done mem_cons_self)
      rw [filterMap_append]
      cases vote with
      | none => exact ⟨_, rfl, (append_nil _).symm⟩
      | some vote =>
        by_cases hm : Matches frameNumber proposer vote
        · have hrd : ¬ (vote.frameNumber ≠ frameNumber ∨ vote.proposer ≠ proposer) := by
            rw [not_or, not_not, not_not]
            exact hm
          simp only [if_neg hrd, filterMap_cons, filterMap_nil, signedVote, Option.bind_some, if_pos hm]
          obtain ⟨number, named, _ | ⟨_ | sig, _ | address⟩⟩ := vote
          · exact absurd ⟨_, rfl, hm, rfl⟩ hvt
          · exact ⟨_, rfl, (append_nil _).symm⟩
          · exact ⟨_, rfl, (append_nil _).symm⟩
          · exact ⟨_, rfl, (append_nil _).symm⟩
          · exact ⟨_, rfl, rfl⟩
        · have hrd : vote.frameNumber ≠ frameNumber ∨ vote.proposer ≠ proposer := not_and_or.mp hm
          simp only [if_pos hrd, filterMap_cons, filterMap_nil, signedVote, Option.bind_some, if_neg hm]
          exact ⟨_, rfl, (append_nil _).symm⟩
  obtain ⟨signed, hs, rfl⟩ := hlp
  exact hs

theorem collectSigned_error {vote : Option FrameVote} (hm : vote ∈ votes) (h : Unsigned frameNumber proposer vote) :
    collectSigned frameNumber proposer votes = .error .nilDereference := by
  obtain ⟨v, rfl, ⟨hnum, hpr⟩, hnn⟩ := h
  apply foldlM_error_of_mem hm
  · intro signed
    simp [hnum, hpr, or_self, hnn]
  · intro signed vote e he
    cases vote with
    | none => cases he
    | some vote =>
      simp only at he
      split_ifs at he
      split at he
      · exact (error.inj he).symm
      · cases he
      · cases he

theorem proposer_of_signed {signed : SignedVote} (h : signed ∈ votes.filterMap (signedVote frameNumber proposer)) :
    signed.vote.proposer = proposer := by
  obtain ⟨_, -, hs⟩ := mem_filterMap.mp h
  obtain ⟨vote, rfl, hvt⟩ := Option.bind_eq_some_iff.mp hs
  split_ifs at hvt with hm
  obtain ⟨s, -, hvt⟩ := Option.bind_eq_some_iff.mp hvt
  obtain ⟨sig, -, hvt⟩ := Option.bind_eq_some_iff.mp hvt
  obtain ⟨address, -, rfl⟩ := Option.map_eq_some_iff.mp hvt
  exact hm.2

end

theorem bitmask_eq {marks : FrameVote → Bool} {provers : List ProverKey} {signed : List SignedVote}
    (h : ∀ s ∈ signed, marks s.vote = true) :
    bitmask marks provers signed = bitmask (fun _ => true) provers signed := by
  have hmr : ∀ address, (voterVote signed address).any marks = (voterVote signed address).any fun _ => true := by
    intro address
    cases hfn : signed.reverse.find? fun s => s.address == address with
    | none => simp [voterVote, hfn]
    | some s => simp [voterVote, hfn, h s (mem_reverse.mp (mem_of_find?_eq_some hfn))]
  simp [bitmask, hmr]

theorem any_voterVote (signed : List SignedVote) (address : Bytes) :
    (voterVote signed address).any (fun _ => true) = signed.any fun s => s.address == address := by
  rw [← any_reverse, ← isSome_find?, voterVote]
  cases signed.reverse.find? fun s => s.address == address with
  | none => rfl
  | some s => rfl

/-- The aggregate does not depend on the order of the keys with their signatures. -/
def Unordered (aggregate : List Bytes → List Bytes → Except String (Bytes × Bytes)) : Prop :=
  ∀ pairs pairs' : List (Bytes × Bytes), pairs.Perm pairs' →
    aggregate (pairs.map Prod.fst) (pairs.map Prod.snd) = aggregate (pairs'.map Prod.fst) (pairs'.map Prod.snd)

theorem Contends.marks (hP : P.Lawful Eligible) (hc : P.Contends Eligible proposals votes c) {vote : FrameVote}
    (hvt : vote.proposer = P.votedFor c.1 c.2) : P.marks c.2 vote = true := by
  obtain ⟨-, ⟨n, -, htally, -⟩ | ⟨-, hel⟩⟩ := hc
  · exact hP.tally_marks htally hvt
  · exact hP.eligible_marks hel hvt

theorem aggregateVotes_perm (hmr : ∀ vote : FrameVote, vote.proposer = P.votedFor c.1 c.2 → P.marks c.2 vote = true)
    (hag : Unordered P.aggregate) (h : votes.Perm votes') : P.aggregateVotes c votes = P.aggregateVotes c votes' := by
  rw [aggregateVotes, aggregateVotes]
  cases P.getActiveProvers with
  | error e => rfl
  | ok provers =>
    dsimp only
    by_cases hu : ∃ vote ∈ votes, Unsigned (P.frameNumber c.1) (P.votedFor c.1 c.2) vote
    · obtain ⟨vote, hm, hvt⟩ := hu
      rw [collectSigned_error hm hvt, collectSigned_error (h.mem_iff.mp hm) hvt]
    · have hsgd : ∀ vote ∈ votes, ¬ Unsigned (P.frameNumber c.1) (P.votedFor c.1 c.2) vote := fun vote hm hvt =>
        hu ⟨vote, hm, hvt⟩
      rw [collectSigned_eq hsgd, collectSigned_eq fun vote hm => hsgd vote (h.mem_iff.mpr hm), ok_bind, ok_bind]
      have hpr := h.filterMap (signedVote (P.frameNumber c.1) (P.votedFor c.1 c.2))
      have hky := hag _ _ (hpr.map fun s => (proverKey provers s.address, s.signature))
      simp only [map_map, comp_def] at hky
      rw [hky, bitmask_eq fun s hs => hmr _ (proposer_of_signed hs), bitmask_eq fun s hs => hmr _ (proposer_of_signed hs),
        hpr.isEmpty_eq]
      simp only [bitmask, any_voterVote, hpr.any_eq]

/-! ### Agreement -/

theorem finalizeVotes_eq (h : P.chooseProposal r = .ok (some c)) :
    P.finalizeVotes r = (P.aggregateVotes c r.collected).map (Except.map fun s => (P.finalizedFrame c.1 s, c.2)) := by
  rw [finalizeVotes, h, ok_bind]
  dsimp only
  cases P.aggregateVotes c r.collected with
  | error e => rfl
  | ok result => cases result <;> rfl

variable (P) in
def Agrees (proposals : List (Option Frame)) (votes : List (Option FrameVote)) : Prop :=
  ∀ r r' : Ranges Frame, r.Of proposals votes → r'.Of proposals votes → P.finalizeVotes r = P.finalizeVotes r'

variable (P) in
/-- The proposals have one proposer and differ in their signature only, or the votes for neither can be aggregated. -/
def Alike (votes : List (Option FrameVote)) (c c' : Frame × Bytes) : Prop :=
  (c.2 = c'.2 ∧ ∀ s, P.finalizedFrame c.1 s = P.finalizedFrame c'.1 s) ∨
    (P.aggregateVotes c votes = P.aggregateVotes c' votes ∧ ∀ s, P.aggregateVotes c votes ≠ .ok (.ok s))

theorem Alike.result_eq (hP : P.Lawful Eligible) {c' : Frame × Bytes} (h : P.Alike votes c c') :
    (P.aggregateVotes c votes).map (Except.map fun s => (P.finalizedFrame c.1 s, c.2)) =
      (P.aggregateVotes c' votes).map (Except.map fun s => (P.finalizedFrame c'.1 s, c'.2)) := by
  rcases h with ⟨hpr, hfr⟩ | ⟨hag, hfl⟩
  · obtain ⟨hnum, hvt⟩ := hP.finalized_votes c.2 (hfr ⟨none, none, none⟩)
    have hag : P.aggregateVotes c votes = P.aggregateVotes c' votes := by
      rw [aggregateVotes, aggregateVotes, hnum, hvt, hpr]
    simp [hag, hfr, hpr]
  · rw [← hag]
    cases hr : P.aggregateVotes c votes with
    | error e => rfl
    | ok result =>
      cases result with
      | error e => rfl
      | ok s => exact absurd hr (hfl s)

theorem Alike.of_result_eq (hP : P.Lawful Eligible) {c' : Frame × Bytes}
    (h : (P.aggregateVotes c votes).map (Except.map fun s => (P.finalizedFrame c.1 s, c.2)) =
      (P.aggregateVotes c' votes).map (Except.map fun s => (P.finalizedFrame c'.1 s, c'.2))) : P.Alike votes c c' := by
  rw [Alike]
  revert h
  rcases P.aggregateVotes c votes with e | e | s <;> rcases P.aggregateVotes c' votes with e' | e' | s' <;> intro h
  case ok.ok.ok.ok =>
    obtain ⟨hfr, hpr⟩ := Prod.mk.inj (ok.inj (ok.inj h))
    exact .inl ⟨hpr, hP.finalized_congr hfr⟩
  all_goals cases h
  · exact .inr ⟨rfl, nofun⟩
  · exact .inr ⟨rfl, nofun⟩

theorem agrees_iff (hP : P.Lawful Eligible) (hag : Unordered P.aggregate) :
    P.Agrees proposals votes ↔ P.Panics proposals votes ∨ ∀ c c', P.Contends Eligible proposals votes c →
      P.Contends Eligible proposals votes c' → P.Alike votes c c' := by
  by_cases hpan : P.Panics proposals votes
  · refine iff_of_true (fun r r' hr hr' => ?_) (.inl hpan)
    rw [finalizeVotes, finalizeVotes, chooseProposal_panics hP hr hpan, chooseProposal_panics hP hr' hpan,
      error_bind, error_bind]
  · rw [or_iff_right hpan]
    constructor
    · intro hagr c c' hc hc'
      obtain ⟨r, hr, hcl, hcho⟩ := chooseProposal_reaches hP hpan hc
      obtain ⟨r', hr', hcl', hcho'⟩ := chooseProposal_reaches hP hpan hc'
      have hres := hagr r r' hr hr'
      rw [finalizeVotes_eq hcho, finalizeVotes_eq hcho', hcl, hcl'] at hres
      exact .of_result_eq hP hres
    · intro hal r r' hr hr'
      obtain ⟨chosen, hcho, hsm, hnn⟩ := chooseProposal_spec hP hr hpan
      obtain ⟨chosen', hcho', hsm', hnn'⟩ := chooseProposal_spec hP hr' hpan
      cases chosen with
      | none =>
        cases chosen' with
        | none => rw [finalizeVotes, finalizeVotes, hcho, hcho', ok_bind, ok_bind]
        | some c' => exact absurd (hsm' c' rfl) ((hnn rfl).1 c')
      | some c =>
        cases chosen' with
        | none => exact absurd (hsm c rfl) ((hnn' rfl).1 c)
        | some c' =>
          have hc := hsm c rfl
          have hc' := hsm' c' rfl
          rw [finalizeVotes_eq hcho, finalizeVotes_eq hcho',
            aggregateVotes_perm (fun _ => hc.marks hP) hag hr.collected,
            aggregateVotes_perm (fun _ => hc'.marks hP) hag hr'.collected, (hal c c' hc hc').result_eq hP]

end VotingProvider

/-! ### The providers -/

variable {Bundle : Type} {env : VotingEnv}

namespace GlobalVotingProvider

variable {getAddressFromPublicKey : Bytes → Bytes}

theorem lawful : (provider env getAddressFromPublicKey : VotingProvider (FrameMessage GlobalFrameHeader Bundle)).Lawful
    fun _ proposer => proposer = [] where
  tally_fault {count frame e} h := by
    dsimp only [provider] at h
    split at h
    · exact (error.inj h).symm
    · cases h
  tally_le {count frame proposer n} h := by
    dsimp only [provider] at h
    split at h
    · cases h
    · cases h
      exact le_rfl
  fallback {count} proposals _ := by
    refine ⟨_, rfl, fun c hc => ?_, fun hnn frame proposer hm _ => ?_⟩
    · obtain ⟨frame, hfr, rfl⟩ := Option.map_eq_some_iff.mp hc
      obtain ⟨proposal, hm, rfl⟩ := exists_of_findSome?_eq_some hfr
      exact ⟨mem_reverse.mp hm, rfl⟩
    · have := findSome?_eq_none_iff.mp (Option.map_eq_none_iff.mp hnn) _ (mem_reverse.mpr hm)
      cases this
  reaches {count frame proposer} proposals _ hm := by
    rintro rfl
    obtain ⟨before, after, rfl⟩ := append_of_mem hm
    refine ⟨before ++ after ++ [some frame], ?_, ?_⟩
    · rw [append_assoc]
      exact (perm_append_singleton _ _).append_left before
    · simp [provider]
  tally_marks _ _ := rfl
  eligible_marks _ _ := rfl
  finalized_congr {frame frame' s s'} h t := by
    have := congrArg (fun f => (provider env getAddressFromPublicKey).finalizedFrame f t) h
    simpa [provider, comp_def] using this
  finalized_votes {frame frame' s} proposer h := by
    refine ⟨?_, rfl⟩
    have := congrArg (provider env getAddressFromPublicKey).frameNumber h
    simpa [provider, comp_def] using this

end GlobalVotingProvider

namespace AppVotingProvider

variable {frameStore : Bytes → Option Nat} {parentFrame : Option Nat}

def Takes (frameStore : Bytes → Option Nat) (parentFrame : Option Nat) (frame : FrameMessage FrameHeader Bundle)
    (proposer : Bytes) : Prop :=
  ∃ header, frame.header = some header ∧ eligible frameStore parentFrame header = true ∧ proposer = header.prover

theorem firstEligible_spec {proposals : List (Option (FrameMessage FrameHeader Bundle))}
    (h : ∀ frame, some frame ∈ proposals → frame.header ≠ none) :
    ∃ chosen, firstEligible frameStore parentFrame proposals = .ok chosen ∧
      (∀ c, chosen = some c → some c.1 ∈ proposals ∧ Takes frameStore parentFrame c.1 c.2) ∧
      (chosen = none → ∀ frame proposer, some frame ∈ proposals → ¬ Takes frameStore parentFrame frame proposer) := by
  induction proposals with
  | nil => exact ⟨none, rfl, fun c hc => absurd hc.symm (Option.some_ne_none c), nofun⟩
  | cons proposal proposals ih =>
    obtain ⟨chosen, hcho, hsm, hnn⟩ := ih fun frame hm => h frame (mem_cons_of_mem _ hm)
    cases proposal with
    | none =>
      refine ⟨chosen, hcho, fun c hc => ⟨mem_cons_of_mem _ (hsm c hc).1, (hsm c hc).2⟩, ?_⟩
      intro hc frame proposer hm
      exact hnn hc frame proposer ((mem_cons.mp hm).resolve_left (Option.some_ne_none frame))
    | some frame =>
      obtain ⟨hdr, hh⟩ := Option.ne_none_iff_exists'.mp (h frame mem_cons_self)
      rw [firstEligible, hh]
      dsimp only
      split_ifs with hel
      · refine ⟨_, rfl, fun c hc => ?_, nofun⟩
        cases Option.some.inj hc
        exact ⟨mem_cons_self, hdr, hh, hel, rfl⟩
      · refine ⟨chosen, hcho, fun c hc => ⟨mem_cons_of_mem _ (hsm c hc).1, (hsm c hc).2⟩, ?_⟩
        intro hc frame' proposer hm
        rcases mem_cons.mp hm with heq | hm
        · cases Option.some.inj heq
          rintro ⟨hdr', hh', hel', -⟩
          cases Option.some.inj (hh.symm.trans hh')
          exact hel hel'
        · exact hnn hc frame' proposer hm

theorem tally_eq {count : Bytes → Nat} {frame : FrameMessage FrameHeader Bundle} {proposer : Bytes} {n : Nat}
    (h : (provider env frameStore parentFrame).tally count frame = .ok (proposer, n)) :
    ∃ hdr, frame.header = some hdr ∧ proposer = hdr.prover ∧
      n = if (frameStore hdr.parentSelector).isSome then count hdr.prover else 0 := by
  dsimp only [provider] at h
  split at h
  · cases h
  next hdr hh =>
    cases h
    exact ⟨hdr, hh, rfl, rfl⟩

theorem header_ne_none {count : Bytes → Nat} {frame : FrameMessage FrameHeader Bundle}
    (h : ∃ r, (provider env frameStore parentFrame).tally count frame = .ok r) : frame.header ≠ none := by
  obtain ⟨⟨proposer, n⟩, h⟩ := h
  obtain ⟨hdr, hh, -⟩ := tally_eq h
  rw [hh]
  exact Option.some_ne_none hdr

theorem lawful : (provider env frameStore parentFrame : VotingProvider (FrameMessage FrameHeader Bundle)).Lawful
    (Takes frameStore parentFrame) where
  tally_fault {count frame e} h := by
    dsimp only [provider] at h
    split at h
    · exact (error.inj h).symm
    · cases h
  tally_le {count frame proposer n} h := by
    obtain ⟨hdr, -, rfl, rfl⟩ := tally_eq h
    split_ifs
    · exact le_rfl
    · exact Nat.zero_le _
  fallback {count} proposals h := firstEligible_spec fun frame hm => header_ne_none (h frame hm)
  reaches {count frame proposer} proposals _ hm := by
    rintro ⟨hdr, hh, hel, rfl⟩
    obtain ⟨before, after, rfl⟩ := append_of_mem hm
    refine ⟨some frame :: (before ++ after), perm_middle.symm, ?_⟩
    simp [provider, firstEligible, hh, hel]
  tally_marks {count frame proposer n vote} h hvt := by
    obtain ⟨hdr, hh, rfl, -⟩ := tally_eq h
    simpa [provider, prover, hh] using hvt
  eligible_marks {frame proposer vote} h hvt := by
    obtain ⟨hdr, hh, -, rfl⟩ := h
    simpa [provider, prover, hh] using hvt
  finalized_congr {frame frame' s s'} h t := by
    have := congrArg (fun f => (provider env frameStore parentFrame).finalizedFrame f t) h
    simpa [provider, comp_def] using this
  finalized_votes {frame frame' s} proposer h := by
    have hnum := congrArg (provider env frameStore parentFrame).frameNumber h
    have hprv := congrArg prover h
    exact ⟨by simpa [provider, comp_def] using hnum, by simpa [provider, prover, comp_def] using hprv⟩

end AppVotingProvider

/-! ### Orders of the loops -/

open VotingProvider

/-- All orders of the loops finalise the same frame if and only if a panic comes first, or any two proposals that may be
    chosen are alike: with the most votes and at least one, or, if no proposal has votes, all that the fallback takes. -/
theorem finalize_agrees_iff (env : VotingEnv) (haggregate : Unordered env.aggregate) :
    (∀ (getAddressFromPublicKey : Bytes → Bytes) (proposals : List (Option (FrameMessage GlobalFrameHeader Bundle)))
      (votes : List (Option FrameVote)),
      (GlobalVotingProvider.provider env getAddressFromPublicKey).Agrees proposals votes ↔
        (GlobalVotingProvider.provider env getAddressFromPublicKey).Panics proposals votes ∨
        ∀ c c', (GlobalVotingProvider.provider env getAddressFromPublicKey).Contends (fun _ proposer => proposer = [])
            proposals votes c →
          (GlobalVotingProvider.provider env getAddressFromPublicKey).Contends (fun _ proposer => proposer = [])
            proposals votes c' → (GlobalVotingProvider.provider env getAddressFromPublicKey).Alike votes c c') ∧
    (∀ (frameStore : Bytes → Option Nat) (parentFrame : Option Nat)
      (proposals : List (Option (FrameMessage FrameHeader Bundle))) (votes : List (Option FrameVote)),
      (AppVotingProvider.provider env frameStore parentFrame).Agrees proposals votes ↔
        (AppVotingProvider.provider env frameStore parentFrame).Panics proposals votes ∨
        ∀ c c', (AppVotingProvider.provider env frameStore parentFrame).Contends
            (AppVotingProvider.Takes frameStore parentFrame) proposals votes c →
          (AppVotingProvider.provider env frameStore parentFrame).Contends
            (AppVotingProvider.Takes frameStore parentFrame) proposals votes c' →
          (AppVotingProvider.provider env frameStore parentFrame).Alike votes c c') :=
  ⟨fun _ _ _ => agrees_iff GlobalVotingProvider.lawful haggregate,
    fun _ _ _ _ => agrees_iff AppVotingProvider.lawful haggregate⟩

/-- An environment for examples: the aggregate tells how many signatures went into it. -/
def countingEnv (provers : List ProverKey) (minimumProvers : Nat) : VotingEnv where
  getActiveProvers := .ok provers
  minimumProvers := minimumProvers
  aggregate keys _ := .ok ([UInt8.ofNat keys.length], [])

def ProverKey.numbered (i : Nat) : ProverKey := ⟨[UInt8.ofNat i], [UInt8.ofNat i]⟩

/-- A proposal of the prover with this key, and the same for an app shard. -/
def globalProposal (key : Bytes) : FrameMessage GlobalFrameHeader Unit where
  header := some {
    frameNumber := 1, timestamp := 0, difficulty := 0, output := key, parentSelector := [], globalCommitments := [],
    proverTreeCommitment := [], publicKeySignature := some ⟨some [], some key, some []⟩ }
  requests := []

def appProposal (prover : Bytes) : FrameMessage FrameHeader Unit where
  header := some {
    address := [1], frameNumber := 1, timestamp := 0, difficulty := 0, output := prover, parentSelector := [],
    requestsRoot := [], stateRoots := [], prover := prover, feeMultiplierVote := 0, publicKeySignature := none }
  requests := []

def voteOf (proposer : Bytes) (i : Nat) : FrameVote :=
  ⟨1, proposer, some ⟨some [UInt8.ofNat i], some [UInt8.ofNat i]⟩⟩

theorem countingEnv_unordered (provers : List ProverKey) (minimumProvers : Nat) :
    Unordered (countingEnv provers minimumProvers).aggregate := by
  intro pairs pairs' hpr
  simp [countingEnv, hpr.length_eq]

theorem VotingProvider.Contends.eq_sole {Frame : Type} {P : VotingProvider Frame} {Eligible : Frame → Bytes → Prop}
    {votes : List (Option FrameVote)} {frame : Frame} {proposer : Bytes} {c : Frame × Bytes}
    (hc : P.Contends Eligible [some frame] votes c) (htally : P.tally (votesFor votes) frame = .ok (proposer, 1)) :
    c = (frame, proposer) := by
  have hfr : c.1 = frame := by simpa using hc.1
  obtain ⟨m, -, hm⟩ := hc.tally (mem_singleton_self _) htally Nat.one_pos
  rw [hfr, htally] at hm
  cases hm
  exact Prod.ext hfr rfl

theorem finalize_agrees_sole :
    (GlobalVotingProvider.provider (countingEnv [.numbered 0] 1) id).Agrees [some (globalProposal [0])]
      [some (voteOf [0] 0)] ∧
    (AppVotingProvider.provider (countingEnv [.numbered 0] 1) (fun _ => some 0) none).Agrees [some (appProposal [0])]
      [some (voteOf [0] 0)] := by
  obtain ⟨hgl, happ⟩ := @finalize_agrees_iff Unit (countingEnv [.numbered 0] 1) (countingEnv_unordered _ _)
  refine ⟨(hgl id _ _).mpr (.inr fun c c' hc hc' => ?_), (happ _ none _ _).mpr (.inr fun c c' hc hc' => ?_)⟩
  · rw [hc.eq_sole rfl, hc'.eq_sole rfl]
    exact .inl ⟨rfl, fun _ => rfl⟩
  · rw [hc.eq_sole rfl, hc'.eq_sole rfl]
    exact .inl ⟨rfl, fun _ => rfl⟩

/-- Two proposals with one vote each: the order of the loop decides. -/
theorem tie_broken_by_order : ¬ (GlobalVotingProvider.provider (countingEnv [.numbered 0, .numbered 1] 1) id).Agrees
      [some (globalProposal [0]), some (globalProposal [1])] [some (voteOf [0] 0), some (voteOf [1] 1)] ∧
    ¬ (AppVotingProvider.provider (countingEnv [.numbered 0, .numbered 1] 1) (fun _ => some 0) none).Agrees
      [some (appProposal [0]), some (appProposal [1])] [some (voteOf [0] 0), some (voteOf [1] 1)] := by
  constructor
  · intro hagr
    have h := hagr
      ⟨_, [some (globalProposal [0]), some (globalProposal [1])], _, _⟩
      ⟨_, [some (globalProposal [1]), some (globalProposal [0])], _, _⟩
      ⟨.refl _, .refl _, .refl _, .refl _⟩ ⟨.refl _, .swap _ _ _, .refl _, .refl _⟩
    have h := congrArg (Except.map (Except.map Prod.snd)) h
    revert h
    decide +kernel
  · intro hagr
    have h := hagr
      ⟨_, [some (appProposal [0]), some (appProposal [1])], _, _⟩
      ⟨_, [some (appProposal [1]), some (appProposal [0])], _, _⟩
      ⟨.refl _, .refl _, .refl _, .refl _⟩ ⟨.refl _, .swap _ _ _, .refl _, .refl _⟩
    have h := congrArg (Except.map (Except.map Prod.snd)) h
    revert h
    decide +kernel

/-! ### Quorums -/

def votersFor (votes : List (Bytes × Option FrameVote)) (proposer : Bytes) : Finset Bytes :=
  ((votes.filter fun entry => entry.2.any fun vote => vote.proposer == proposer).map Prod.fst).toFinset

/-- A quorum in which two thirds of all active provers vote for one proposer, whose proposal counts. -/
structure Supported {Frame : Type} (P : VotingProvider Frame) (provers : List ProverKey)
    (proposals : List (Bytes × Option Frame)) (votes : List (Bytes × Option FrameVote)) (proposer : Bytes) : Prop where
  registry : P.getActiveProvers = .ok provers
  quorum : P.isQuorum votes = .ok true
  distinct : (votes.map Prod.fst).Nodup
  active : ∀ voter ∈ votes.map Prod.fst, voter ∈ provers.map ProverKey.address
  returns : ¬ P.Panics (proposals.map Prod.snd) (votes.map Prod.snd)
  proposed : ∃ frame, some frame ∈ proposals.map Prod.snd ∧ P.tally (votesFor (votes.map Prod.snd)) frame =
    .ok (proposer, votesFor (votes.map Prod.snd) proposer)
  voted : 0 < votesFor (votes.map Prod.snd) proposer
  majority : 2 * provers.length ≤ 3 * votesFor (votes.map Prod.snd) proposer

section
variable {Frame : Type} {P : VotingProvider Frame} {Eligible : Frame → Bytes → Prop} {provers : List ProverKey}
  {proposals : List (Bytes × Option Frame)} {votes : List (Bytes × Option FrameVote)} {proposer : Bytes}

theorem card_votersFor (h : (votes.map Prod.fst).Nodup) (proposer : Bytes) :
    (votersFor votes proposer).card = votesFor (votes.map Prod.snd) proposer := by
  have hs : ((votes.filter fun entry => entry.2.any fun vote => vote.proposer == proposer).map Prod.fst).Nodup :=
    h.sublist (filter_sublist.map _)
  rw [votersFor, toFinset_card_of_nodup hs, length_map, votesFor, countP_map, countP_eq_length_filter]
  rfl

theorem votersFor_subset (h : ∀ voter ∈ votes.map Prod.fst, voter ∈ provers.map ProverKey.address) (proposer : Bytes) :
    votersFor votes proposer ⊆ (provers.map ProverKey.address).toFinset := by
  intro voter hvt
  obtain ⟨entry, hen, rfl⟩ := mem_map.mp (mem_toFinset.mp hvt)
  exact mem_toFinset.mpr (h _ (mem_map_of_mem (mem_of_mem_filter hen)))

theorem votersFor_disjoint (h : (votes.map Prod.fst).Nodup) {proposer proposer' : Bytes} (hne : proposer ≠ proposer') :
    Disjoint (votersFor votes proposer) (votersFor votes proposer') := by
  rw [Finset.disjoint_left]
  intro voter hvo hvt'
  obtain ⟨⟨_, vote⟩, hen, rfl⟩ := mem_map.mp (mem_toFinset.mp hvo)
  obtain ⟨⟨_, vote'⟩, hen', heq⟩ := mem_map.mp (mem_toFinset.mp hvt')
  obtain ⟨hm, hvt⟩ := mem_filter.mp hen
  obtain ⟨hm', hvo'⟩ := mem_filter.mp hen'
  have hsm := inj_on_of_nodup_map h hm hm' heq.symm
  cases hsm
  cases vote with
  | none => cases hvt
  | some vote => exact hne ((beq_iff_eq.mp hvt).symm.trans (beq_iff_eq.mp hvo'))

section
variable (h : Supported P provers proposals votes proposer)
include h

theorem Supported.two_mul_le (hds : (provers.map ProverKey.address).Nodup) :
    2 * (provers.map ProverKey.address).toFinset.card ≤ 3 * (votersFor votes proposer).card := by
  rw [card_votersFor h.distinct, toFinset_card_of_nodup hds, length_map]
  exact h.majority

theorem Supported.chosen (hP : P.Lawful Eligible) (hds : (provers.map ProverKey.address).Nodup)
    {r : Ranges Frame} (hr : r.Of (proposals.map Prod.snd) (votes.map Prod.snd)) :
    ∃ frame, P.chooseProposal r = .ok (some (frame, proposer)) := by
  obtain ⟨chosen, hcho, hsm, hnn⟩ := chooseProposal_spec hP hr h.returns
  obtain ⟨frame, hmem, htally⟩ := h.proposed
  cases chosen with
  | none => exact absurd ((hnn rfl).2 frame proposer _ hmem htally) h.voted.ne'
  | some c =>
    obtain ⟨m, hm, hc⟩ := (hsm c rfl).tally hmem htally h.voted
    have hle := hm.trans (hP.tally_le hc)
    suffices hpr : c.2 = proposer from ⟨c.1, hpr ▸ hcho⟩
    by_contra hne
    have hd := votersFor_disjoint h.distinct hne
    have hcr := Finset.card_le_card (Finset.union_subset (votersFor_subset h.active c.2) (votersFor_subset h.active proposer))
    rw [Finset.card_union_of_disjoint hd] at hcr
    have hmaj := h.two_mul_le hds
    have hvt := h.voted
    rw [card_votersFor h.distinct, card_votersFor h.distinct] at hcr
    rw [card_votersFor h.distinct] at hmaj
    omega

end

/-- Some honest prover votes for both proposers, whichever few are faulty; they are one if honest provers vote once. -/
def Meets (provers : List ProverKey) (votes votes' : List (Bytes × Option FrameVote)) (proposer proposer' : Bytes) : Prop :=
  ∀ faulty : Finset Bytes, 3 * faulty.card < provers.length →
    (∃ voter ∈ votersFor votes proposer ∩ votersFor votes' proposer', voter ∉ faulty) ∧
    ((∀ voter ∉ faulty, ∀ p p', voter ∈ votersFor votes p → voter ∈ votersFor votes' p' → p = p') → proposer = proposer')

theorem meets_iff (hds : (provers.map ProverKey.address).Nodup) {votes' : List (Bytes × Option FrameVote)}
    {proposer' : Bytes} : Meets provers votes votes' proposer proposer' ↔
      provers.length ≤ 3 * (votersFor votes proposer ∩ votersFor votes' proposer').card := by
  have hcr : (provers.map ProverKey.address).toFinset.card = provers.length := by
    rw [toFinset_card_of_nodup hds, length_map]
  rw [← hcr, ← Finset.exists_honest_iff, hcr]
  constructor
  · exact fun h faulty hfau => (h faulty hfau).1
  · intro h faulty hfau
    obtain ⟨voter, hvt, hh⟩ := h faulty hfau
    refine ⟨⟨voter, hvt, hh⟩, fun hon => ?_⟩
    exact hon voter hh _ _ (Finset.mem_inter.mp hvt).1 (Finset.mem_inter.mp hvt).2

theorem Supported.meets {P' : VotingProvider Frame} {proposals' : List (Bytes × Option Frame)}
    {votes' : List (Bytes × Option FrameVote)} {proposer' : Bytes} (h : Supported P provers proposals votes proposer)
    (h' : Supported P' provers proposals' votes' proposer') (hds : (provers.map ProverKey.address).Nodup) :
    Meets provers votes votes' proposer proposer' := by
  have hcr := Finset.card_le_three_mul_card_inter (votersFor_subset h.active proposer)
    (votersFor_subset h'.active proposer') (h.two_mul_le hds) (h'.two_mul_le hds)
  rw [toFinset_card_of_nodup hds, length_map] at hcr
  exact (meets_iff hds).mpr hcr

end

/-- Whatever the maps, votes for two proposers meet if and only if a third of the provers votes for both. That is so
    where two thirds of the active provers vote for one proposer in each map, which is then chosen in every order. -/
theorem supported_quorums_meet {Bundle : Type} (provers : List ProverKey)
    (hdistinct : (provers.map ProverKey.address).Nodup) :
    (∀ (votes votes' : List (Bytes × Option FrameVote)) (proposer proposer' : Bytes),
      Meets provers votes votes' proposer proposer' ↔
        provers.length ≤ 3 * (votersFor votes proposer ∩ votersFor votes' proposer').card) ∧
    (∀ (env env' : VotingEnv) (getAddress getAddress' : Bytes → Bytes)
      (proposals proposals' : List (Bytes × Option (FrameMessage GlobalFrameHeader Bundle)))
      (votes votes' : List (Bytes × Option FrameVote)) (proposer proposer' : Bytes),
      Supported (GlobalVotingProvider.provider env getAddress) provers proposals votes proposer →
      Supported (GlobalVotingProvider.provider env' getAddress') provers proposals' votes' proposer' →
      (∀ r : Ranges (FrameMessage GlobalFrameHeader Bundle), r.Of (proposals.map Prod.snd) (votes.map Prod.snd) →
        ∃ frame, (GlobalVotingProvider.provider env getAddress).chooseProposal r = .ok (some (frame, proposer))) ∧
      Meets provers votes votes' proposer proposer') ∧
    (∀ (env env' : VotingEnv) (frameStore frameStore' : Bytes → Option Nat) (parentFrame parentFrame' : Option Nat)
      (proposals proposals' : List (Bytes × Option (FrameMessage FrameHeader Bundle)))
      (votes votes' : List (Bytes × Option FrameVote)) (proposer proposer' : Bytes),
      Supported (AppVotingProvider.provider env frameStore parentFrame) provers proposals votes proposer →
      Supported (AppVotingProvider.provider env' frameStore' parentFrame') provers proposals' votes' proposer' →
      (∀ r : Ranges (FrameMessage FrameHeader Bundle), r.Of (proposals.map Prod.snd) (votes.map Prod.snd) →
        ∃ frame, (AppVotingProvider.provider env frameStore parentFrame).chooseProposal r = .ok (some (frame, proposer))) ∧
      Meets provers votes votes' proposer proposer') := by
  refine ⟨fun _ _ _ _ => meets_iff hdistinct, ?_, ?_⟩
  · intro env env' getAddress getAddress' proposals proposals' votes votes' proposer proposer' h h'
    exact ⟨fun r hr => h.chosen GlobalVotingProvider.lawful hdistinct hr, h.meets h' hdistinct⟩
  · intro env env' frameStore frameStore' parentFrame parentFrame' proposals proposals' votes votes' proposer proposer' h h'
    exact ⟨fun r hr => h.chosen AppVotingProvider.lawful hdistinct hr, h.meets h' hdistinct⟩

def votesOf (voters : List Nat) (proposer : Bytes) : List (Bytes × Option FrameVote) :=
  voters.map fun i => ([UInt8.ofNat i], some (voteOf proposer i))

def threeProvers : List ProverKey := (List.range 3).map ProverKey.numbered

theorem supported_app : Supported (AppVotingProvider.provider (countingEnv threeProvers 3) (fun _ => some 0) none)
    threeProvers [([0], some (appProposal [0]))] (votesOf [0, 1, 2] [0]) [0] where
  registry := rfl
  quorum := by decide +kernel
  distinct := by decide
  active := by decide
  returns := by
    rintro (hnil | ⟨frame, hm, e, he⟩)
    · simp [votesOf] at hnil
    · obtain rfl : frame = appProposal [0] := by simpa using hm
      cases he
  proposed := ⟨appProposal [0], by simp, rfl⟩
  voted := by decide +kernel
  majority := by decide +kernel

theorem three_provers_meet : Meets threeProvers (votesOf [0, 1, 2] [0]) (votesOf [0, 1, 2] [0]) [0] [0] ∧
    ∃ frame, (AppVotingProvider.provider (countingEnv threeProvers 3) (fun _ => some 0) none).chooseProposal
      ⟨(votesOf [0, 1, 2] [0]).map Prod.snd, [some (appProposal [0])], [some (appProposal [0])],
        (votesOf [0, 1, 2] [0]).map Prod.snd⟩ = .ok (some (frame, [0])) := by
  obtain ⟨-, -, happ⟩ := @supported_quorums_meet Unit threeProvers (by decide)
  obtain ⟨hchosen, hmeet⟩ := happ _ _ _ _ _ _ _ _ _ _ _ _ supported_app supported_app
  exact ⟨hmeet, hchosen _ ⟨.refl _, .refl _, .refl _, .refl _⟩⟩

/-- Ten provers, two of them faulty: six vote for one proposer, and the faulty ones with the other four for another. -/
theorem quorums_finalise_both :
    (countingEnv ((range 10).map .numbered) 6).isQuorum (votesOf [0, 1, 2, 3, 4, 5] [20]) = .ok true ∧
    (countingEnv ((range 10).map .numbered) 6).isQuorum (votesOf [4, 5, 6, 7, 8, 9] [21]) = .ok true ∧
    votersFor (votesOf [0, 1, 2, 3, 4, 5] [20]) [20] ∩ votersFor (votesOf [4, 5, 6, 7, 8, 9] [21]) [21] = {[4], [5]} ∧
    ¬ Meets ((range 10).map .numbered) (votesOf [0, 1, 2, 3, 4, 5] [20]) (votesOf [4, 5, 6, 7, 8, 9] [21]) [20] [21] ∧
    (∀ proposer ∈ [[20], [21]], ∀ voters ∈ [[0, 1, 2, 3, 4, 5], [4, 5, 6, 7, 8, 9]],
      ((GlobalVotingProvider.provider (countingEnv ((range 10).map .numbered) 6) id).finalizeVotes
        ⟨(votesOf voters proposer).map Prod.snd, [some (globalProposal [20]), some (globalProposal [21])],
          [some (globalProposal [20]), some (globalProposal [21])], (votesOf voters proposer).map Prod.snd⟩).map
        (Except.map Prod.snd) = .ok (.ok proposer) ∧
      ((AppVotingProvider.provider (countingEnv ((range 10).map .numbered) 6) (fun _ => some 0) none).finalizeVotes
        ⟨(votesOf voters proposer).map Prod.snd, [some (appProposal [20]), some (appProposal [21])],
          [some (appProposal [20]), some (appProposal [21])], (votesOf voters proposer).map Prod.snd⟩).map
        (Except.map Prod.snd) = .ok (.ok proposer)) := by
  refine ⟨by decide +kernel, by decide +kernel, by decide +kernel, fun hmt => ?_, by decide +kernel⟩
  have hcr := (meets_iff (by decide +kernel)).mp hmt
  revert hcr
  decide +kernel

end Quilibrium
