import Mathlib.Data.List.Nodup
import Quilibrium.Time.Frame

/-! The bits of a signer bitmask, and the seniority that they give a frame. -/

namespace Quilibrium

def signs (bitmask : Option Bytes) (pos : Nat) : Bool :=
  bitmask.any fun mask => hasBit (maskByte mask (pos / 8)) (pos % 8)

theorem hasBit_and (a b : UInt8) (bit : Nat) : hasBit (a &&& b) bit = (hasBit a bit && hasBit b bit) := by
  rw [hasBit, UInt8.toNat_and, Nat.testBit_and, hasBit, hasBit]

theorem maskByte_eq_zero {mask : Bytes} {i : Nat} (h : mask.length ≤ i) : maskByte mask i = 0 := by
  rw [maskByte, List.getD_eq_default _ _ h]

theorem lt_length_of_hasBit {mask : Bytes} {i bit : Nat} (h : hasBit (maskByte mask i) bit = true) : i < mask.length := by
  by_contra hge
  rw [maskByte_eq_zero (not_lt.mp hge), hasBit] at h
  simp at h

theorem mem_bitPositions {n pos : Nat} {byte : Nat → UInt8} :
    pos ∈ bitPositions n byte ↔ pos / 8 < n ∧ hasBit (byte (pos / 8)) (pos % 8) = true := by
  rw [bitPositions]
  simp only [List.mem_flatMap, List.mem_map, List.mem_filter, List.mem_range]
  constructor
  · rintro ⟨i, hi, bit, ⟨hb, hs⟩, rfl⟩
    have hd : (i * 8 + bit) / 8 = i := by omega
    have hm : (i * 8 + bit) % 8 = bit := by omega
    rw [hd, hm]
    exact ⟨hi, hs⟩
  · rintro ⟨hi, hs⟩
    exact ⟨pos / 8, hi, pos % 8, ⟨Nat.mod_lt _ (by decide), hs⟩, by omega⟩

theorem hasBit_setBit (b : UInt8) {k bit : Nat} (hk : k < 8) :
    hasBit (b ||| 1 <<< UInt8.ofNat k) bit = (hasBit b bit || bit == k) := by
  have hpow : ∀ k < 8, ((1 : UInt8) <<< UInt8.ofNat k).toNat = 2 ^ k := by decide
  rw [hasBit, UInt8.toNat_or, hpow k hk, Nat.testBit_or, Nat.testBit_two_pow, hasBit]
  simp [eq_comm, beq_eq_decide]

theorem signs_setBit {mask : Bytes} {i : Nat} (h : i / 8 < mask.length) (pos : Nat) :
    signs (some (mask.modify (i / 8) (· ||| 1 <<< UInt8.ofNat (i % 8)))) pos = (signs (some mask) pos || pos == i) := by
  simp only [signs, Option.any_some, maskByte, List.getD_eq_getElem?_getD, List.getElem?_modify]
  by_cases hby : i / 8 = pos / 8
  · have hpos : pos / 8 < mask.length := hby ▸ h
    simp only [if_pos hby, List.getElem?_eq_getElem hpos, Option.map_eq_map, Option.map_some, Option.getD_some]
    rw [hasBit_setBit _ (Nat.mod_lt _ (by decide))]
    congr 1
    rw [Bool.eq_iff_iff, beq_iff_eq, beq_iff_eq]
    omega
  · have hne : (pos == i) = false := by
      rw [beq_eq_false_iff_ne]
      rintro rfl
      exact hby rfl
    simp [if_neg hby, hne]

theorem signs_foldl {α : Type} (p : α → Bool) (l : List (α × Nat)) (mask : Bytes) (hl : ∀ x ∈ l, x.2 / 8 < mask.length) :
    let r := l.foldl (fun mask x => if p x.1 then mask.modify (x.2 / 8) (· ||| 1 <<< UInt8.ofNat (x.2 % 8)) else mask) mask
    r.length = mask.length ∧ ∀ pos, signs (some r) pos = true ↔ signs (some mask) pos = true ∨ ∃ a, (a, pos) ∈ l ∧ p a := by
  induction l generalizing mask with
  | nil => simp
  | cons x l ih =>
    obtain ⟨hx, hl⟩ := List.forall_mem_cons.mp hl
    rw [List.foldl_cons]
    split_ifs with hv
    · obtain ⟨hln, hs⟩ := ih (mask.modify _ _) (by simpa using hl)
      refine ⟨hln.trans (List.length_modify ..), fun pos => (hs pos).trans ?_⟩
      rw [signs_setBit hx]
      grind
    · refine (ih mask hl).imp_right fun hs pos => (hs pos).trans ?_
      grind

theorem mem_overlappingBits {a b : Bytes} {pos : Nat} :
    pos ∈ overlappingBits a b ↔ signs (some a) pos = true ∧ signs (some b) pos = true := by
  rw [overlappingBits, mem_bitPositions, hasBit_and, Bool.and_eq_true]
  constructor
  · exact fun h => h.2
  · intro h
    exact ⟨(lt_length_of_hasBit h.1).trans_le (le_max_left _ _), h⟩

theorem hasOverlappingBits_of_signs {a b : Option Bytes} {pos : Nat} (ha : signs a pos = true) (hb : signs b pos = true) :
    hasOverlappingBits a b = true := by
  cases a with
  | none => cases ha
  | some a =>
    cases b with
    | none => cases hb
    | some b =>
      obtain ⟨hpos, hs⟩ := mem_bitPositions.mp (mem_overlappingBits.mpr ⟨ha, hb⟩)
      refine List.any_eq_true.mpr ⟨pos / 8, List.mem_range.mpr hpos, decide_eq_true fun hzr => ?_⟩
      rw [hzr, hasBit] at hs
      simp at hs

/-! ### Seniority -/

theorem nodup_bitPositions (n : Nat) (byte : Nat → UInt8) : (bitPositions n byte).Nodup := by
  rw [bitPositions, List.nodup_flatMap]
  refine ⟨fun i _ => (List.nodup_range.filter _).map fun a b h => by omega, List.nodup_range.imp fun hne pos hi hj => ?_⟩
  simp only [List.mem_map, List.mem_filter, List.mem_range] at hi hj
  obtain ⟨a, ⟨ha, -⟩, rfl⟩ := hi
  obtain ⟨b, ⟨hb, -⟩, heq⟩ := hj
  omega

section Seniority
variable {e e' : Equivocators} {number N : Nat} {mask mask' : Bytes}

theorem countedBits_length_le (h : countedBits e number mask ⊆ countedBits e' number mask') :
    (countedBits e number mask).length ≤ (countedBits e' number mask').length :=
  (((nodup_bitPositions ..).filter _).subperm h).length_le

theorem computeFrameSeniority_eq (h : (countedBits e number mask).length ≤ 64) :
    computeFrameSeniority e number (some mask) = (2 ^ 58 - 1) * (countedBits e number mask).length := by
  have hlt : (2 ^ 58 - 1) * (countedBits e number mask).length < 2 ^ 64 := by omega
  rw [computeFrameSeniority]
  split_ifs with hzr
  · rw [hzr, Nat.mul_zero]
  · exact Nat.mod_eq_of_lt hlt

theorem computeFrameSeniority_le (hN : (countedBits e' number mask').length ≤ 64)
    (h : (countedBits e number mask).length ≤ (countedBits e' number mask').length) :
    computeFrameSeniority e number (some mask) ≤ computeFrameSeniority e' number (some mask') := by
  rw [computeFrameSeniority_eq hN, computeFrameSeniority_eq (h.trans hN)]
  exact Nat.mul_le_mul_left _ h

/-- The seniority of frames with at most `N` signers that count grows with these signers. -/
structure SeniorityOrdered (N : Nat) : Prop where
  signers : ∀ {e e' number mask mask'}, (countedBits e' number mask').length ≤ N →
    countedBits e number mask ⊆ countedBits e' number mask' →
    computeFrameSeniority e number (some mask) ≤ computeFrameSeniority e' number (some mask')
  equivocators : ∀ {e e' : Equivocators} {number mask}, (countedBits e number mask).length ≤ N →
    (∀ pos, e number pos = true → e' number pos = true) →
    computeFrameSeniority e' number (some mask) ≤ computeFrameSeniority e number (some mask)
  more : ∀ {e e' number} {bitmask : Option Bytes} {mask}, (countedBits e' number mask).length ≤ N →
    (bitmask.elim [] (countedBits e number)).length < (countedBits e' number mask).length →
    computeFrameSeniority e number bitmask ≤ computeFrameSeniority e' number (some mask)

/-- The product wraps around from 65 signers on. -/
theorem seniorityOrdered_iff : SeniorityOrdered N ↔ N ≤ 64 := by
  constructor
  · intro h
    by_contra hgt
    have hcn : (countedBits (fun _ _ => false) 0 (List.replicate 8 255 ++ [1])).length = 65 := by decide +kernel
    have hle := @SeniorityOrdered.signers _ h (fun _ _ => false) (fun _ _ => false) 0 [1]
      (List.replicate 8 255 ++ [1]) (by omega) (by decide +kernel)
    revert hle
    decide +kernel
  · intro hN
    refine ⟨fun hc h => computeFrameSeniority_le (hc.trans hN) (countedBits_length_le h),
      fun hc h => computeFrameSeniority_le (hc.trans hN) (countedBits_length_le fun pos hpos => ?_), ?_⟩
    · simp only [countedBits, List.mem_filter, Bool.not_eq_true', Bool.eq_false_iff] at hpos ⊢
      exact ⟨hpos.1, mt (h pos) hpos.2⟩
    · intro e e' number bitmask mask hc hlt
      cases bitmask with
      | some mask => exact computeFrameSeniority_le (hc.trans hN) hlt.le
      | none =>
        rw [computeFrameSeniority_eq (hc.trans hN)]
        exact Nat.le_mul_of_pos_right _ hlt

/-- A 65th signer makes a frame lighter than one with a single signer. -/
theorem seniority_wraps : countedBits (fun _ _ => false) 0 [1] ⊆ countedBits (fun _ _ => false) 0 (List.replicate 8 255 ++ [1]) ∧
    computeFrameSeniority (fun _ _ => false) 0 (some (List.replicate 8 255 ++ [1])) <
      computeFrameSeniority (fun _ _ => false) 0 (some [1]) := by
  decide +kernel

end Seniority
end Quilibrium
