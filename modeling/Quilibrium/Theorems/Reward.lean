import Mathlib.Algebra.Order.Field.Rat
import Mathlib.Tactic.Positivity
import Quilibrium.Consensus.Reward
import Quilibrium.Lib.Except

/-! Rewards: the implementations agree on provers with one allocation, and rewards shrink with the ring. -/

namespace Quilibrium
open List

section Sums
variable {β : Type} {add : β → ℚ → β} {output out : β} {rewards : List (Except Fault (Except String ℚ))}

theorem addRewards_cons {reward : Except Fault (Except String ℚ)} :
    addRewards add output (reward :: rewards) = .ok (.ok out) ↔
      ∃ result, reward = .ok (.ok result) ∧ addRewards add (add output result) rewards = .ok (.ok out) := by
  rw [addRewards]
  rcases reward with fault | err | result
  · simp
  · simp
  · simp

end Sums

theorem truncate_of_nonneg {q : ℚ} (h : 0 ≤ q) : truncate q = ⌊q⌋ := if_pos h

theorem ringDivisors_succ (ring : UInt8) : ringDivisors (ring + 1) = ringDivisor ring := by
  have hall : ∀ n < 256, ringDivisors (UInt8.ofNat n + 1) = ringDivisor (UInt8.ofNat n) := by decide +kernel
  simpa using hall ring.toNat ring.toNat_lt

theorem ringDivisor_eq {ring : UInt8} (h : ring.toNat ≤ 61) : ringDivisor ring = 2 ^ (ring.toNat + 1) := by
  have hall : ∀ n < 62, ringDivisor (UInt8.ofNat n) = 2 ^ (n + 1) := by decide +kernel
  simpa using hall ring.toNat (by omega)

namespace DecimalMath

variable {m : DecimalMath} {difficulty worldStateBytes units : Nat} {basis : Int} {cache : m.SqrtCache}

@[simp] theorem getSqrt_eq (shards : Nat) : cache.getSqrt shards = m.sqrt shards := by
  rw [SqrtCache.getSqrt]
  cases h : cache.entries shards with
  | none => rfl
  | some root => exact cache.sound h

/-! ### Agreement -/

section Issue
variable {α : Type} {rewardOf rewardOf' : Int → α → Except Fault (Except String Int)} {provers : List α}

theorem issue_congr (h : ∀ basis, ∀ prover ∈ provers, rewardOf basis prover = rewardOf' basis prover) :
    m.issue difficulty worldStateBytes units rewardOf provers = m.issue difficulty worldStateBytes units rewardOf' provers := by
  have hmap : ∀ basis, provers.mapM (rewardOf basis) = provers.mapM (rewardOf' basis) := by
    intro basis
    have hbs := h basis
    clear h
    induction provers with
    | nil => rfl
    | cons prover provers ih =>
      obtain ⟨hp, hps⟩ := forall_mem_cons.mp hbs
      rw [mapM_cons, mapM_cons, hp, ih hps]
  simp [issue, hmap]

theorem issue_ok {out : List Int} (h : m.issue difficulty worldStateBytes units rewardOf provers = .ok (.ok out)) :
    ∃ basis, m.pomwBasis difficulty worldStateBytes units = .ok basis ∧
      provers.map (rewardOf basis) = out.map fun reward => .ok (.ok reward) := by
  obtain ⟨basis, hb, h⟩ := Except.bind_eq_ok.mp h
  obtain ⟨output, hout, h⟩ := Except.bind_eq_ok.mp h
  cases hm : output.mapM id with
  | error err =>
    rw [hm] at h
    cases h
  | ok out' =>
    rw [hm] at h
    cases h
    rw [mapM_ok_iff, map_id] at hm
    rw [mapM_ok_iff, hm, map_map] at hout
    exact ⟨basis, hb, hout⟩

end Issue

theorem minimalCalculate_eq {provers : List (List ProverAllocation)} (h : ∀ prover ∈ provers, prover.length ≤ 1) :
    m.minimalCalculate cache difficulty worldStateBytes units provers =
      m.calculate difficulty worldStateBytes units provers := by
  refine issue_congr fun basis prover hp => ?_
  simp only [getSqrt_eq, ringDivisors_succ, rewards, addTruncated]
  match prover, h prover hp with
  | [], _ => simp [addRewards, Except.map, truncate]
  | [alloc], _ =>
    simp only [map_cons, map_nil, addRewards]
    rcases m.reward basis worldStateBytes (ringDivisor alloc.ring) (m.sqrt alloc.shards) alloc.stateSize with fault | err | result
    · rfl
    · rfl
    · simp [Except.map]

/-- Decimals that are not rounded. -/
def exact : DecimalMath where
  round := id
  pow _ _ := some 1
  sqrt n := n
  round_mono := monotone_id
  round_zero := rfl
  pow_nonneg _ h := by cases h; exact zero_le_one
  sqrt_nonneg n := n.cast_nonneg

def emptyCache (m : DecimalMath) : m.SqrtCache := ⟨fun _ => none, nofun⟩

theorem round_nonneg {q : ℚ} (h : 0 ≤ q) : 0 ≤ m.round q := m.round_zero ▸ m.round_mono h

theorem pomwBasis_nonneg (h : m.pomwBasis difficulty worldStateBytes units = .ok basis) : 0 ≤ basis := by
  rw [pomwBasis] at h
  split_ifs at h
  split at h
  · cases h
    exact le_rfl
  · rename_i result hr
    cases h
    have hres : 0 ≤ result := m.pow_nonneg (m.round_nonneg (by positivity)) hr
    have hpos : 0 ≤ result * units := by positivity
    rw [truncate_of_nonneg hpos]
    exact Int.floor_nonneg.mpr hpos

theorem share_le (hb : 0 ≤ basis) {divisor divisor' : Int} (hd : 0 < divisor) (hle : divisor ≤ divisor') (shards size : Nat) :
    0 ≤ m.share basis worldStateBytes divisor' (m.sqrt shards) size ∧
      m.share basis worldStateBytes divisor' (m.sqrt shards) size ≤
        m.share basis worldStateBytes divisor (m.sqrt shards) size := by
  have hs := m.sqrt_nonneg shards
  have hx : 0 ≤ m.round (size / worldStateBytes) * (basis : ℚ) :=
    mul_nonneg (m.round_nonneg (by positivity)) (Int.cast_nonneg hb)
  have hdq : (0 : ℚ) < divisor := Int.cast_pos.mpr hd
  have hleq : (divisor : ℚ) ≤ divisor' := Int.cast_le.mpr hle
  have hsm := m.round_mono (div_le_div_of_nonneg_left hx hdq hleq)
  refine ⟨m.round_nonneg (div_nonneg (m.round_nonneg (div_nonneg hx (hdq.trans_le hleq).le)) hs), ?_⟩
  exact m.round_mono (div_le_div_of_nonneg_right hsm hs)

theorem reward_ok {divisor : Int} {shardFactor : ℚ} {stateSize : Nat} {result : ℚ}
    (h : m.reward basis worldStateBytes divisor shardFactor stateSize = .ok (.ok result)) :
    result = m.share basis worldStateBytes divisor shardFactor stateSize := by
  rw [reward] at h
  split_ifs at h
  · cases h
  · exact (Except.ok.inj (Except.ok.inj h)).symm

def Raised (a b : ProverAllocation) : Prop := a.ring ≤ b.ring ∧ b = { a with ring := b.ring }

theorem addTruncated_le (hb : 0 ≤ basis) {prover prover' : List ProverAllocation} (hra : Forall₂ Raised prover prover')
    (hN : ∀ alloc ∈ prover', alloc.ring.toNat ≤ 61) {output output' reward reward' : Int} (hpos : 0 ≤ output')
    (hle : output' ≤ output) (h : addTruncated output (m.rewards worldStateBytes basis prover) = .ok (.ok reward))
    (h' : addTruncated output' (m.rewards worldStateBytes basis prover') = .ok (.ok reward')) :
    0 ≤ reward' ∧ reward' ≤ reward := by
  induction hra generalizing output output' with
  | nil =>
    cases h
    cases h'
    exact ⟨hpos, hle⟩
  | @cons a b prover prover' hab _ ih =>
    obtain ⟨hrb, hN⟩ := forall_mem_cons.mp hN
    obtain ⟨result, hr, h⟩ := addRewards_cons.mp h
    obtain ⟨result', hr', h'⟩ := addRewards_cons.mp h'
    have hrab : a.ring.toNat ≤ b.ring.toNat := hab.1
    rw [hab.2] at hr'
    have hda := ringDivisor_eq (hrab.trans hrb)
    have hd : ringDivisor a.ring ≤ ringDivisor b.ring := by
      rw [hda, ringDivisor_eq hrb]
      exact pow_le_pow_right₀ one_le_two (by omega)
    obtain ⟨hnn, hsl⟩ := @share_le m worldStateBytes basis hb _ _ (hda ▸ by positivity) hd a.shards a.stateSize
    rw [← reward_ok hr'] at hnn hsl
    rw [← reward_ok hr] at hsl
    have hfl := Int.floor_le_floor hsl
    have hfn := Int.floor_nonneg.mpr hnn
    rw [← truncate_of_nonneg hnn] at hfl hfn
    rw [← truncate_of_nonneg (hnn.trans hsl)] at hfl
    exact ih hN (by omega) (by omega) h h'

/-- Rewards are not negative and do not grow with the ring exactly as long as no ring is above 61. -/
theorem rewards_shrink_iff (N : Nat) : (∀ (m : DecimalMath) (difficulty worldStateBytes units : Nat)
      (provers provers' : List (List ProverAllocation)) (out out' : List Int), Forall₂ (Forall₂ Raised) provers provers' →
      (∀ prover ∈ provers', ∀ alloc ∈ prover, alloc.ring.toNat ≤ N) →
      m.calculate difficulty worldStateBytes units provers = .ok (.ok out) →
      m.calculate difficulty worldStateBytes units provers' = .ok (.ok out') →
      Forall₂ (fun reward reward' => 0 ≤ reward' ∧ reward' ≤ reward) out out') ↔ N ≤ 61 := by
  constructor
  · intro h
    by_contra hlt
    have hout : exact.calculate 0 1 1 [[⟨62, 1, 2 ^ 63⟩]] = .ok (.ok [-1]) := by decide +kernel
    have hrs := h exact 0 1 1 [[⟨62, 1, 2 ^ 63⟩]] [[⟨62, 1, 2 ^ 63⟩]] [-1] [-1]
      (.cons (.cons ⟨UInt8.le_refl _, rfl⟩ .nil) .nil) (forall_mem_singleton.mpr (forall_mem_singleton.mpr (Nat.lt_of_not_le hlt))) hout hout
    exact absurd hrs (by decide)
  · intro hN m difficulty worldStateBytes units provers provers' out out' hra hrg h h'
    obtain ⟨basis, hb, ho⟩ := issue_ok h
    obtain ⟨basis', hb', ho'⟩ := issue_ok h'
    cases hb.symm.trans hb'
    clear h h'
    induction hra generalizing out out' with
    | nil => simp_all
    | cons hp _ ih =>
      obtain ⟨hrp, hrg⟩ := forall_mem_cons.mp hrg
      obtain ⟨reward, out, rfl⟩ := exists_cons_of_ne_nil (l := out) (by rintro rfl; cases ho)
      obtain ⟨reward', out', rfl⟩ := exists_cons_of_ne_nil (l := out') (by rintro rfl; cases ho')
      simp only [map_cons, cons.injEq] at ho ho'
      refine .cons (addTruncated_le (pomwBasis_nonneg hb) hp (fun a ha => (hrp a ha).trans hN) le_rfl le_rfl ho.1 ho'.1) ?_
      exact ih out out' hrg ho.2 ho'.2

/-- The divisor is negative for ring 62, zero for larger ones, and 1 for ring 255. -/
theorem ring_wraps : exact.calculate 0 1 1 [[⟨62, 1, 2 ^ 63⟩]] = .ok (.ok [-1]) ∧
    exact.calculate 0 1 1 [[⟨63, 1, 2⟩]] = .error .divideByZero ∧
    exact.calculate 0 1 1 [[⟨0, 1, 2⟩]] = .ok (.ok [1]) ∧ exact.calculate 0 1 1 [[⟨255, 1, 2⟩]] = .ok (.ok [2]) := by
  decide +kernel

end DecimalMath

end Quilibrium
