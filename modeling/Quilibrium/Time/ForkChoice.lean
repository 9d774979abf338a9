import Mathlib.Data.List.Dedup
import Quilibrium.Crypto

/-! # Fork choice

`ForkChoice` and `branchScore` of `consensus/time/fork_choice.go`. -/

namespace Quilibrium.ForkChoice
open List

def scale : Nat := 0xffffffffffffffff

structure Frame where
  distance : Int
  seniority : Nat
  proverAddress : Bytes

/-- The frames of a branch, the oldest first. -/
abbrev Branch := List Frame

/-- The tunables. `Quo` panics on a zero, so the denominators are not zero. -/
structure Params where
  rMax : Int
  wrNumer : Nat
  wpNumer : Nat
  wDenom : Nat
  alNumer : Nat
  alDenom : Nat
  blendWindow : Nat
  betaNumer : Nat
  betaDenom : Nat
  epsilon : Nat
  rMax_ne : rMax ≠ 0
  wDenom_pos : 0 < wDenom
  alDenom_pos : 0 < alDenom
  betaDenom_pos : 0 < betaDenom

def defaultForkChoiceParams : Params where
  rMax := scale
  wrNumer := 7
  wpNumer := 3
  wDenom := 10
  alNumer := 9
  alDenom := 10
  blendWindow := 5
  betaNumer := 1
  betaDenom := 10
  epsilon := 0
  rMax_ne := by decide
  wDenom_pos := Nat.zero_lt_succ 9
  alDenom_pos := Nat.zero_lt_succ 9
  betaDenom_pos := Nat.zero_lt_succ 9

/-- `((RMax − rank) * SCALE) / RMax`, kept between zero and `SCALE`. -/
def rhoScaled (rank rMax : Int) : Nat :=
  let tmp := ((rMax - rank) * scale).tdiv rMax
  if tmp < 0 then 0 else if scale < tmp then scale else tmp.toNat

def clamp (x lo hi : Nat) : Nat := if x < lo then lo else if hi < x then hi else x

def frameScore (cfg : Params) (frame : Frame) : Nat :=
  (cfg.wrNumer * rhoScaled frame.distance cfg.rMax + cfg.wpNumer * clamp frame.seniority 0 scale) / cfg.wDenom

def branchScore (br : Branch) (cfg : Params) : Nat :=
  if br.isEmpty then 0
  else
    let raw := br.foldl (fun raw frame => raw * cfg.alNumer / cfg.alDenom + frameScore cfg frame) 0
    let m := min cfg.blendWindow br.length
    if m = 0 then 0
    else
      let window := br.drop (br.length - m)
      let uniq := ((window.filter fun frame => 0 < frame.seniority).map Frame.proverAddress).dedup
      let blendScaled := uniq.length * scale / m
      let divBonus := scale + cfg.betaNumer * blendScaled / cfg.betaDenom
      raw * divBonus / scale

/-- The loop over the branches: the best index so far and its score. -/
def better (cfg : Params) (best : Nat × Nat) (candidate : Branch × Nat) : Nat × Nat :=
  let score := branchScore candidate.1 cfg
  if best.2 + cfg.epsilon < score then (candidate.2, score) else best

/-- The index of the branch to extend. `prevChoice` is the branch extended last. -/
def forkChoice (branches : List Branch) (cfg : Params) (prevChoice : Nat) : Nat :=
  let bestScore := (branches[prevChoice]?).elim 0 fun br => branchScore br cfg
  (branches.zipIdx.foldl (better cfg) (prevChoice, bestScore)).1

/-- A negative index is read as well, and panics. -/
def forkChoiceInt (branches : List Branch) (cfg : Params) (prevChoice : Int) : Except Fault Nat :=
  if prevChoice < 0 then .error .indexOutOfRange else .ok (forkChoice branches cfg prevChoice.toNat)

/-! ### What is chosen -/

section
variable (cfg : Params) (branches : List Branch)

def scoreAt (i : Nat) : Nat := (branches[i]?).elim 0 fun br => branchScore br cfg

theorem lt_of_scoreAt_pos {i : Nat} (h : 0 < scoreAt cfg branches i) : i < branches.length := by
  by_contra hi
  rw [scoreAt, List.getElem?_eq_none (Nat.le_of_not_lt hi)] at h
  exact absurd h (Nat.lt_irrefl 0)

theorem foldl_better (l : List (Branch × Nat)) (hl : ∀ c ∈ l, branches[c.2]? = some c.1) (best : Nat × Nat)
    (hbest : best.2 = scoreAt cfg branches best.1) : let r := l.foldl (better cfg) best
    r.2 = scoreAt cfg branches r.1 ∧ (r = best ∨ best.2 < r.2) ∧ ∀ c ∈ l, branchScore c.1 cfg ≤ r.2 + cfg.epsilon := by
  induction l generalizing best with
  | nil => exact ⟨hbest, .inl rfl, by simp⟩
  | cons c l ih =>
    have hc := hl c mem_cons_self
    have hrest := fun c' hc' => hl c' (mem_cons_of_mem c hc')
    rw [foldl_cons]
    by_cases hlt : best.2 + cfg.epsilon < branchScore c.1 cfg
    · have hb : better cfg best c = (c.2, branchScore c.1 cfg) := if_pos hlt
      obtain ⟨hs, hr, hall⟩ := ih hrest (c.2, branchScore c.1 cfg) (by simp [scoreAt, hc])
      rw [← hb] at hs hr hall
      have hle : branchScore c.1 cfg ≤ (l.foldl (better cfg) (better cfg best c)).2 := by
        rcases hr with hr | hr
        · rw [hr, hb]
        · exact Nat.le_of_lt (by simpa [hb] using hr)
      exact ⟨hs, .inr (by omega), forall_mem_cons.mpr ⟨by omega, hall⟩⟩
    · have hb : better cfg best c = best := if_neg hlt
      obtain ⟨hs, hr, hall⟩ := ih hrest best hbest
      rw [hb]
      refine ⟨hs, hr, forall_mem_cons.mpr ⟨?_, hall⟩⟩
      rcases hr with hr | hr
      · rw [hr]
        exact Nat.le_of_not_lt hlt
      · omega

theorem forkChoice_spec (prevChoice : Nat) : let i := forkChoice branches cfg prevChoice
    (i = prevChoice ∨ scoreAt cfg branches prevChoice < scoreAt cfg branches i) ∧
      ∀ br ∈ branches, branchScore br cfg ≤ scoreAt cfg branches i + cfg.epsilon := by
  obtain ⟨hs, hr, hall⟩ := foldl_better cfg branches branches.zipIdx
    (fun c hc => mk_mem_zipIdx_iff_getElem?.mp hc) (prevChoice, scoreAt cfg branches prevChoice) rfl
  rw [hs] at hr hall
  refine ⟨hr.imp (congrArg Prod.fst) id, fun br hbr => ?_⟩
  obtain ⟨i, hi, rfl⟩ := getElem_of_mem hbr
  exact hall (branches[i], i) (mk_mem_zipIdx_iff_getElem?.mpr (getElem?_eq_getElem hi))

/-- The branch at an index, and no branch has a higher score. -/
def Best (i : Nat) (br : Branch) : Prop := branches[i]? = some br ∧ ∀ br' ∈ branches, branchScore br' cfg ≤ branchScore br cfg

/-- There is something to choose: the last branch extended, or one with a score. -/
def Choosable (prevChoice : Nat) : Prop := prevChoice < branches.length ∨ ∃ br ∈ branches, 0 < branchScore br cfg

variable {cfg branches}

theorem forkChoice_best (hε : cfg.epsilon = 0) {prevChoice : Nat} (h : Choosable cfg branches prevChoice) :
    ∃ br, Best cfg branches (forkChoice branches cfg prevChoice) br := by
  obtain ⟨hr, hall⟩ := forkChoice_spec cfg branches prevChoice
  rw [hε, Nat.add_zero] at hall
  have hlt : forkChoice branches cfg prevChoice < branches.length := by
    rcases h with h | ⟨br, hbr, hpos⟩
    · rcases hr with hr | hr
      · exact hr.trans_lt h
      · exact lt_of_scoreAt_pos cfg branches (Nat.zero_lt_of_lt hr)
    · exact lt_of_scoreAt_pos cfg branches (hpos.trans_le (hall br hbr))
  have hget := getElem?_eq_getElem hlt
  rw [scoreAt, hget] at hall
  exact ⟨_, hget, hall⟩

theorem Best.sticky (hε : cfg.epsilon = 0) {prevChoice : Nat} {br : Branch} (h : Best cfg branches prevChoice br) :
    forkChoice branches cfg prevChoice = prevChoice := by
  obtain ⟨br', hbr'⟩ := forkChoice_best hε (.inl (List.getElem?_eq_some_iff.mp h.1).1)
  refine (forkChoice_spec cfg branches prevChoice).1.resolve_right fun hlt => ?_
  rw [scoreAt, scoreAt, h.1, hbr'.1] at hlt
  exact Nat.not_lt_of_le (h.2 br' (mem_of_getElem? hbr'.1)) hlt

/-- Without a margin a best branch is chosen, the last one if it is best, and the same one in any order if no other is
    best, exactly if there is something to choose. -/
theorem forkChoice_maximal_iff (hε : cfg.epsilon = 0) (prevChoice : Int) :
    (∃ i br, forkChoiceInt branches cfg prevChoice = .ok i ∧ Best cfg branches i br ∧
      (∀ br', Best cfg branches prevChoice.toNat br' → i = prevChoice) ∧
      ((∀ j br', Best cfg branches j br' → br' = br) → ∀ branches', branches'.Perm branches →
        ∃ j, forkChoiceInt branches' cfg prevChoice = .ok j ∧ branches'[j]? = some br)) ↔
      0 ≤ prevChoice ∧ Choosable cfg branches prevChoice.toNat := by
  constructor
  · rintro ⟨i, br, hi, hb, -⟩
    rw [forkChoiceInt] at hi
    split_ifs at hi with hneg
    obtain rfl := Except.ok.inj hi
    refine ⟨Int.le_of_not_gt hneg, ?_⟩
    rcases (forkChoice_spec cfg branches prevChoice.toNat).1 with hr | hr
    · rw [hr] at hb
      exact .inl (List.getElem?_eq_some_iff.mp hb.1).1
    · rw [scoreAt, scoreAt, hb.1] at hr
      exact .inr ⟨br, mem_of_getElem? hb.1, Nat.zero_lt_of_lt hr⟩
  · rintro ⟨hpos, h⟩
    have hok : ∀ branches, forkChoiceInt branches cfg prevChoice = .ok (forkChoice branches cfg prevChoice.toNat) :=
      fun _ => if_neg (Int.not_lt.mpr hpos)
    obtain ⟨br, hb⟩ := forkChoice_best hε h
    refine ⟨_, br, hok _, hb, fun br' hb' => ?_, fun hone branches' hperm => ?_⟩
    · rw [hb'.sticky hε]
      exact Int.toNat_of_nonneg hpos
    · obtain ⟨br', hget, hall⟩ := @forkChoice_best cfg branches' hε _
        (h.imp (hperm.length_eq ▸ ·) fun ⟨b, hmem, hb⟩ => ⟨b, hperm.mem_iff.mpr hmem, hb⟩)
      obtain ⟨j, hj⟩ := mem_iff_getElem?.mp (hperm.mem_iff.mp (mem_of_getElem? hget))
      have hbr := hone j br' ⟨hj, fun b hmem => hall b (hperm.mem_iff.mpr hmem)⟩
      exact ⟨_, hok _, hbr ▸ hget⟩

/-- A choice that is no branch any more stays the choice among branches without frames; a negative one panics. -/
theorem forkChoice_gone : forkChoiceInt [[]] defaultForkChoiceParams 1 = .ok 1 ∧ ([[]] : List Branch)[1]? = none ∧
    forkChoiceInt [[]] defaultForkChoiceParams (-1) = .error .indexOutOfRange := by decide

theorem forkChoice_maximal_one : Choosable defaultForkChoiceParams [[], [⟨0, 1, []⟩]] 0 ∧
    ∃ i br, forkChoiceInt [[], [⟨0, 1, []⟩]] defaultForkChoiceParams 0 = .ok i ∧
      Best defaultForkChoiceParams [[], [⟨0, 1, []⟩]] i br :=
  have h : Choosable defaultForkChoiceParams [[], [⟨0, 1, []⟩]] 0 := .inl (by decide)
  have ⟨i, br, hi, hb, _⟩ := (forkChoice_maximal_iff rfl 0).mpr ⟨Int.le_refl 0, h⟩
  ⟨h, i, br, hi, hb⟩

end

/-! ### Better frames and longer branches -/

section
variable (cfg : Params)

def rawNext (raw : Nat) (frame : Frame) : Nat := raw * cfg.alNumer / cfg.alDenom + frameScore cfg frame

def rawScore (br : Branch) : Nat := br.foldl (rawNext cfg) 0

def activeProvers (br : Branch) : List Bytes :=
  ((br.drop (br.length - min cfg.blendWindow br.length)).filter fun frame => 0 < frame.seniority).map Frame.proverAddress

def blendScaled (br : Branch) : Nat :=
  (activeProvers cfg br).dedup.length * scale / min cfg.blendWindow br.length

theorem branchScore_eq (br : Branch) : branchScore br cfg =
    if min cfg.blendWindow br.length = 0 then 0
    else rawScore cfg br * (scale + cfg.betaNumer * blendScaled cfg br / cfg.betaDenom) / scale := by
  cases br with
  | nil => simp [branchScore]
  | cons => simp only [branchScore, isEmpty_cons, Bool.false_eq_true, if_false, blendScaled, activeProvers]; rfl

variable {cfg}

theorem branchScore_le {br br' : Branch} (hlen : br.length ≤ br'.length) (hraw : rawScore cfg br ≤ rawScore cfg br')
    (hblend : blendScaled cfg br ≤ blendScaled cfg br') : branchScore br cfg ≤ branchScore br' cfg := by
  rw [branchScore_eq, branchScore_eq]
  split_ifs with h h'
  · exact Nat.le_refl 0
  · exact Nat.zero_le _
  · exact absurd (by omega) h
  · exact Nat.div_le_div_right (Nat.mul_le_mul hraw
      (Nat.add_le_add_left (Nat.div_le_div_right (Nat.mul_le_mul_left _ hblend)) _))

theorem rhoScaled_anti {d d' rMax : Int} (hpos : 0 < rMax) (h : d ≤ d') : rhoScaled d' rMax ≤ rhoScaled d rMax := by
  have hle : ((rMax - d') * scale).tdiv rMax ≤ ((rMax - d) * scale).tdiv rMax := by
    refine Int.tdiv_le_tdiv hpos ?_
    exact Int.mul_le_mul_of_nonneg_right (by omega) (Int.natCast_nonneg _)
  unfold rhoScaled
  dsimp only
  split_ifs <;> omega

/-- A frame is at least as close and its prover at least as senior. -/
def Frame.Beats (f g : Frame) : Prop := f.distance ≤ g.distance ∧ g.seniority ≤ f.seniority

theorem Frame.Beats.frameScore_le (hpos : 0 < cfg.rMax) {f g : Frame} (h : f.Beats g) :
    frameScore cfg g ≤ frameScore cfg f := by
  have hclamp : clamp g.seniority 0 scale ≤ clamp f.seniority 0 scale := by
    have := h.2
    unfold clamp
    split_ifs <;> omega
  exact Nat.div_le_div_right (Nat.add_le_add (Nat.mul_le_mul_left _ (rhoScaled_anti hpos h.1))
    (Nat.mul_le_mul_left _ hclamp))

theorem rawScore_le (hpos : 0 < cfg.rMax) {br br' : Branch} (h : Forall₂ Frame.Beats br br') {raw raw' : Nat}
    (hle : raw' ≤ raw) : br'.foldl (rawNext cfg) raw' ≤ br.foldl (rawNext cfg) raw := by
  induction h generalizing raw raw' with
  | nil => exact hle
  | cons hfg _ ih =>
    exact ih (Nat.add_le_add (Nat.div_le_div_right (Nat.mul_le_mul_right _ hle)) (hfg.frameScore_le hpos))

/-- Better frames never score less if the last frames have at least as many provers with seniority; nor does a branch
    with one more frame that makes up for the decay, if the share of such provers does not fall. -/
theorem branchScore_mono (hpos : 0 < cfg.rMax) :
    (∀ br br', Forall₂ Frame.Beats br br' →
      (activeProvers cfg br').dedup.length ≤ (activeProvers cfg br).dedup.length →
      branchScore br' cfg ≤ branchScore br cfg) ∧
    ∀ br frame, rawScore cfg br * cfg.alDenom ≤ rawScore cfg br * cfg.alNumer + frameScore cfg frame * cfg.alDenom →
      blendScaled cfg br ≤ blendScaled cfg (br ++ [frame]) → branchScore br cfg ≤ branchScore (br ++ [frame]) cfg := by
  constructor
  · intro br br' h huniq
    refine branchScore_le h.length_eq.ge (rawScore_le hpos h (Nat.le_refl 0)) ?_
    rw [blendScaled, blendScaled, h.length_eq]
    exact Nat.div_le_div_right (Nat.mul_le_mul_right _ huniq)
  · intro br frame hraw hblend
    refine branchScore_le (by simp) ?_ hblend
    rw [rawScore, rawScore, foldl_append, foldl_cons, foldl_nil, rawNext, ← Nat.add_mul_div_right _ _ cfg.alDenom_pos,
      Nat.le_div_iff_mul_le cfg.alDenom_pos]
    exact hraw

/-- The same frames of one prover score less than those of two, and a frame without score costs a tenth. -/
theorem branchScore_drops :
    (let f : Frame := ⟨0, 1, [0]⟩
    Forall₂ Frame.Beats [f, f] [f, { f with proverAddress := [1] }] ∧
      branchScore [f, f] defaultForkChoiceParams <
        branchScore [f, { f with proverAddress := [1] }] defaultForkChoiceParams) ∧
    branchScore [⟨0, 0, []⟩, ⟨scale, 0, []⟩] defaultForkChoiceParams <
      branchScore [⟨0, 0, []⟩] defaultForkChoiceParams := by
  refine ⟨⟨.cons ⟨Int.le_refl _, Nat.le_refl _⟩ (.cons ⟨Int.le_refl _, Nat.le_refl _⟩ .nil), ?_⟩, ?_⟩ <;> decide

theorem branchScore_mono_one :
    branchScore [⟨1, 1, []⟩] defaultForkChoiceParams ≤ branchScore [⟨0, 2, []⟩] defaultForkChoiceParams ∧
      branchScore [⟨0, 1, []⟩] defaultForkChoiceParams ≤ branchScore [⟨0, 1, []⟩, ⟨0, 1, [1]⟩] defaultForkChoiceParams := by
  have h := @branchScore_mono defaultForkChoiceParams (by decide)
  exact ⟨h.1 _ _ (.cons ⟨by decide, by decide⟩ .nil) (by decide), h.2 _ ⟨0, 1, [1]⟩ (by decide) (by decide)⟩

end

end Quilibrium.ForkChoice
