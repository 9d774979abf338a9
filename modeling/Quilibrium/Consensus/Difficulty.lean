import Mathlib.Algebra.Order.Ring.Nat
import Mathlib.Data.UInt
import Mathlib.Tactic.GCongr
import Quilibrium.Consensus.Fees

/-! # Difficulty adjustment

`AsertDifficultyAdjuster` of `node/consensus/difficulty`: an exponential in fixed-point numbers. It is monotone as long as
no `int64` and no shift overflows. -/

namespace Quilibrium

structure AsertDifficultyAdjuster where
  anchorFrameNumber : Nat
  anchorParentTime : Int
  anchorDifficulty : UInt32

def asertPolynomial (frac : Nat) : Nat :=
  195766423245049 * frac + 971821376 * frac * frac + 5127 * frac * frac * frac + 2 ^ 47

def asertFactor (frac : Nat) : Nat := 65536 + asertPolynomial frac % 2 ^ 64 / 2 ^ 48

def shifted (shifts : Int) (scaled : Nat) : Nat :=
  if shifts < 0 then scaled >>> (-shifts).toNat else scaled <<< shifts.toNat

/-- What is shifted by 16 bits in the end, before it is cut to 64 bits. -/
def scaledBy (anchorDifficulty : Nat) (exponent : Int) : Nat :=
  shifted (exponent / 65536) (anchorDifficulty * asertFactor (exponent % 65536).toNat)

def difficultyAt (anchorDifficulty : Nat) (exponent : Int) : Nat :=
  if 48 < exponent / 65536 then 2 ^ 64 - 1 else max 50000 (scaledBy anchorDifficulty exponent % 2 ^ 64 / 65536)

namespace AsertDifficultyAdjuster

variable (a : AsertDifficultyAdjuster) (currentFrameNumber : Nat) (currentTime : Int)

def exponent : Int :=
  let frameNumberDelta := wrapInt64 (currentFrameNumber - a.anchorFrameNumber)
  let timeDelta := wrapInt64 (currentTime - a.anchorParentTime)
  let behind := wrapInt64 (timeDelta - wrapInt64 (10000 * wrapInt64 (frameNumberDelta + 1)))
  (wrapInt64 (-wrapInt64 (behind * 65536))).tdiv 7200000

def getNextDifficulty : Nat :=
  if a.anchorDifficulty = 0 then 50000
  else difficultyAt a.anchorDifficulty.toNat (a.exponent currentFrameNumber currentTime)

/-- How far the frame number is ahead of the time. -/
def lead : Int := 10000 * (currentFrameNumber - a.anchorFrameNumber + 1) - (currentTime - a.anchorParentTime)

/-- No value on the way to the difficulty wraps around. -/
structure Fits : Prop where
  frames : 10000 * ((currentFrameNumber : Int) - a.anchorFrameNumber + 1) < 2 ^ 63
  elapsed : currentTime - a.anchorParentTime < 2 ^ 63
  ahead : (a.lead currentFrameNumber currentTime).natAbs < 2 ^ 47
  scaled : a.exponent currentFrameNumber currentTime / 65536 ≤ 48 →
    scaledBy a.anchorDifficulty.toNat (a.exponent currentFrameNumber currentTime) < 2 ^ 64

end AsertDifficultyAdjuster

theorem asertFactor_le {frac frac' : Nat} (h : frac ≤ frac') (h' : frac' < 65536) :
    asertFactor frac ≤ asertFactor frac' ∧ asertFactor frac' ≤ 131072 := by
  have hmono : ∀ {x y}, x ≤ y → asertPolynomial x ≤ asertPolynomial y := by
    intro x y hxy
    unfold asertPolynomial
    gcongr
  have hlt := (hmono (Nat.le_of_lt_succ h')).trans_lt (show asertPolynomial 65535 < 2 ^ 64 by decide +kernel)
  have hp := hmono h
  rw [asertFactor, asertFactor, Nat.mod_eq_of_lt hlt, Nat.mod_eq_of_lt (hp.trans_lt hlt)]
  omega

theorem shifted_succ (shifts : Int) (x : Nat) : shifted (shifts + 1) x = shifted shifts (2 * x) := by
  unfold shifted
  split_ifs
  · rw [show (-shifts).toNat = (-(shifts + 1)).toNat + 1 by omega, Nat.shiftRight_succ_inside,
      Nat.mul_div_cancel_left _ two_pos]
  · omega
  · rw [show shifts = -1 by omega]
    exact (Nat.mul_div_cancel_left x two_pos).symm
  · rw [show (shifts + 1).toNat = shifts.toNat + 1 by omega, Nat.shiftLeft_succ_inside]

theorem shifted_add (shifts : Int) (k x : Nat) : shifted (shifts + k) x = shifted shifts (2 ^ k * x) := by
  induction k generalizing x with
  | zero => simp
  | succ k ih => rw [Int.natCast_succ, ← add_assoc, shifted_succ, ih, pow_succ, mul_assoc]

theorem shifted_mono (shifts : Int) : Monotone (shifted shifts) := by
  intro x x' h
  unfold shifted
  split_ifs
  · rw [Nat.shiftRight_eq_div_pow, Nat.shiftRight_eq_div_pow]
    exact Nat.div_le_div_right h
  · rw [Nat.shiftLeft_eq, Nat.shiftLeft_eq]
    exact Nat.mul_le_mul_right _ h

theorem scaledBy_mono (d : Nat) {e e' : Int} (h : e ≤ e') : scaledBy d e ≤ scaledBy d e' := by
  obtain ⟨k, hk⟩ := Int.le.dest (Int.ediv_le_ediv (by decide : 0 < (65536 : Int)) h)
  rw [scaledBy, scaledBy, ← hk, shifted_add, Nat.mul_left_comm]
  refine shifted_mono _ (Nat.mul_le_mul_left d ?_)
  cases k with
  | zero =>
    rw [pow_zero, one_mul]
    exact (asertFactor_le (by omega) (by omega)).1
  | succ k =>
    calc
      asertFactor (e % 65536).toNat ≤ 2 * 65536 := (asertFactor_le le_rfl (by omega)).2
      _ ≤ 2 ^ (k + 1) * asertFactor (e' % 65536).toNat :=
        Nat.mul_le_mul (Nat.le_self_pow k.succ_ne_zero 2) (Nat.le_add_right _ _)

namespace AsertDifficultyAdjuster

variable {a : AsertDifficultyAdjuster} {number number' : Nat} {time time' : Int}

theorem Fits.exponent_eq (h : a.Fits number time) : a.exponent number time = (a.lead number time * 65536).tdiv 7200000 := by
  have hl := h.ahead
  -- the wraps of sums and products cancel
  simp only [exponent, wrapInt64, Int.bmod_add_bmod, Int.mul_bmod_bmod, Int.bmod_sub_bmod, Int.sub_bmod_bmod,
    Int.bmod_mul_bmod, Int.bmod_neg_bmod]
  rw [lead] at hl ⊢
  rw [Int.bmod_eq_of_le (by omega) (by omega)]
  congr 1
  omega

theorem Fits.le (h : a.Fits number time) (h' : a.Fits number' time') (hle : a.lead number time ≤ a.lead number' time') :
    a.getNextDifficulty number time ≤ a.getNextDifficulty number' time' := by
  have he : a.exponent number time ≤ a.exponent number' time' := by
    rw [h.exponent_eq, h'.exponent_eq]
    exact Int.tdiv_le_tdiv (by decide) (by omega)
  have hs := h.scaled
  simp only [getNextDifficulty, difficultyAt]
  split_ifs with _ hb hb' hb'
  · exact le_rfl
  · exact le_rfl
  · omega
  · have := hs (not_lt.mp hb)
    omega
  · rw [Nat.mod_eq_of_lt (hs (not_lt.mp hb)), Nat.mod_eq_of_lt (h'.scaled (not_lt.mp hb'))]
    exact max_le_max_left _ (Nat.div_le_div_right (scaledBy_mono _ he))

/-- The difficulty is never too low, and monotone between inputs with which nothing wraps around. -/
theorem getNextDifficulty_monotone : 50000 ≤ a.getNextDifficulty number time ∧
    (a.Fits number time → a.Fits number time' → time ≤ time' →
      a.getNextDifficulty number time' ≤ a.getNextDifficulty number time) ∧
    (a.Fits number time → a.Fits number' time → number ≤ number' →
      a.getNextDifficulty number time ≤ a.getNextDifficulty number' time) := by
  refine ⟨?_, fun h h' hle => h'.le h ?_, fun h h' hle => h.le h' ?_⟩
  · simp only [getNextDifficulty, difficultyAt]
    split_ifs
    · exact le_rfl
    · decide
    · exact le_max_left _ _
  · unfold lead
    omega
  · unfold lead
    omega

theorem getNextDifficulty_half_life : getNextDifficulty ⟨0, 0, 100000⟩ 719 7200000 ≤ getNextDifficulty ⟨0, 0, 100000⟩ 719 0 := by
  have h : Fits ⟨0, 0, 100000⟩ 719 0 := ⟨by decide, by decide, by decide, fun _ => by decide +kernel⟩
  have h' : Fits ⟨0, 0, 100000⟩ 719 7200000 := ⟨by decide, by decide, by decide, fun _ => by decide +kernel⟩
  exact (@getNextDifficulty_monotone _ 719 719 0 7200000).2.1 h h' (by decide)

/-- After 12239 frames at once the difficulty is 0 in 64 bits, and is set to the least one. -/
theorem difficulty_wraps : getNextDifficulty ⟨0, 0, 2 ^ 31⟩ 12239 0 < getNextDifficulty ⟨0, 0, 2 ^ 31⟩ 0 0 := by
  decide +kernel

end AsertDifficultyAdjuster

end Quilibrium
