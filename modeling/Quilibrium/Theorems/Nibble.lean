import Quilibrium.Tries.Nibble

/-! Nibble paths of keys: keys of one length have paths of one length and are determined by them. -/

namespace Quilibrium
open Radix List Option

/-! ### Bits -/

/-- Bit `i` of the key, the first byte's highest bit being bit 0. -/
def keyBit (key : Bytes) (i : Nat) : Bool :=
  match key[i / 8]? with
  | some b => b.toNat.testBit (7 - i % 8)
  | none => false

variable {key1 key2 key : Bytes} {t d : Nat}

theorem toNibble_testBit (m : Nat) (ht : t < 6) : (toNibble m).val.testBit t = m.testBit t := by
  have hms : branchMask.testBit t = true := by
    have : branchMask = 2 ^ 6 - 1 := rfl
    rw [this, Nat.testBit_two_pow_sub_one]
    exact decide_eq_true ht
  rw [toNibble, Nat.testBit_and, hms, Bool.and_true]

theorem getNextNibble_eq_none {pos : Nat} : getNextNibble key pos = none ↔ 8 * key.length ≤ pos := by
  have hl : key[pos / 8]? = none ↔ 8 * key.length ≤ pos := by
    rw [getElem?_eq_none_iff]
    omega
  rw [← hl]
  unfold getNextNibble
  cases h : key[pos / 8]? with
  | none => simp [h]
  | some b =>
    simp only [h, reduceCtorEq, iff_false]
    split
    · exact some_ne_none _
    · cases key[pos / 8 + 1]? <;> exact some_ne_none _

theorem masked_testBit (c : UInt8) (b t : Nat) :
    (c.toNat &&& ((1 <<< b) - 1)).testBit t = (decide (t < b) && c.toNat.testBit t) := by
  rw [Nat.testBit_and, Nat.one_shiftLeft, Nat.testBit_two_pow_sub_one, Bool.and_comm]

theorem byte_testBit_eq_false (c : UInt8) (ht : 8 ≤ t) : c.toNat.testBit t = false :=
  Nat.testBit_lt_two_pow (lt_of_lt_of_le c.toNat_lt (Nat.pow_le_pow_right (by decide) ht))

theorem getNextNibble_testBit {pos : Nat} {nib : Nibble} (h : getNextNibble key pos = some nib) (ht : t < 6) : nib.val.testBit (5 - t) = keyBit key (pos + t) := by
  have hbt : branchBits = 6 := rfl
  unfold getNextNibble at h
  cases hc : key[pos / 8]? with
  | none => simp [hc] at h
  | some c =>
    simp only [hc] at h
    split at h
    · rename_i hb
      have hd : (pos + t) / 8 = pos / 8 := by omega
      rw [← some.inj h, toNibble_testBit _ (by omega), Nat.testBit_shiftRight, masked_testBit]
      unfold keyBit
      rw [hd, hc]
      have hlt : 8 - pos % 8 - branchBits + (5 - t) < 8 - pos % 8 := by omega
      have heq : 8 - pos % 8 - branchBits + (5 - t) = 7 - (pos + t) % 8 := by omega
      simp only [hlt, decide_true, Bool.true_and]
      rw [heq]
    · rename_i hb
      -- The bits of the current byte fill the top of the nibble.
      have top : ((c.toNat &&& ((1 <<< (8 - pos % 8)) - 1)) <<< (branchBits - (8 - pos % 8))).testBit (5 - t) =
          (decide (t < 8 - pos % 8) && c.toNat.testBit (7 - pos % 8 - t)) := by
        rw [Nat.testBit_shiftLeft, masked_testBit]
        by_cases hcs : t < 8 - pos % 8
        · have h1 : branchBits - (8 - pos % 8) ≤ 5 - t := by omega
          have h2 : 5 - t - (branchBits - (8 - pos % 8)) = 7 - pos % 8 - t := by omega
          have h3 : 7 - pos % 8 - t < 8 - pos % 8 := by omega
          simp [h1, h2, h3, hcs]
        · have h1 : ¬branchBits - (8 - pos % 8) ≤ 5 - t := by omega
          simp [h1, hcs]
      unfold keyBit
      by_cases hcs : t < 8 - pos % 8
      · have hd : (pos + t) / 8 = pos / 8 := by omega
        have heq : 7 - pos % 8 - t = 7 - (pos + t) % 8 := by omega
        rw [hd, hc]
        cases hn : key[pos / 8 + 1]? with
        | none =>
          simp only [hn] at h
          rw [← some.inj h, toNibble_testBit _ (by omega), top, heq]
          simp [hcs]
        | some next =>
          simp only [hn] at h
          rw [← some.inj h, toNibble_testBit _ (by omega), Nat.testBit_or, top, heq, Nat.testBit_shiftRight,
            byte_testBit_eq_false next (by omega)]
          simp [hcs]
      · have hd : (pos + t) / 8 = pos / 8 + 1 := by omega
        rw [hd]
        cases hn : key[pos / 8 + 1]? with
        | none =>
          simp only [hn] at h
          rw [← some.inj h, toNibble_testBit _ (by omega), top]
          simp [hcs]
        | some next =>
          simp only [hn] at h
          have heq : 8 - (branchBits - (8 - pos % 8)) + (5 - t) = 7 - (pos + t) % 8 := by omega
          rw [← some.inj h, toNibble_testBit _ (by omega), Nat.testBit_or, top, Nat.testBit_shiftRight, heq]
          simp [hcs]

/-! ### Full paths -/

theorem getFullPathFrom_getElem? : ∀ {fuel depth : Nat}, 8 * key.length ≤ depth + 6 * fuel →
    ∀ j, (getFullPathFrom key fuel depth)[j]? = getNextNibble key (depth + 6 * j)
  | 0, depth, h, j => by
    rw [getFullPathFrom, getElem?_nil, eq_comm, getNextNibble_eq_none]
    omega
  | fuel + 1, depth, h, j => by
    have hbt : branchBits = 6 := rfl
    rw [getFullPathFrom]
    cases hn : getNextNibble key depth with
    | none =>
      rw [getNextNibble_eq_none] at hn
      rw [getElem?_nil, eq_comm, getNextNibble_eq_none]
      omega
    | some nib =>
      cases j with
      | zero => simp [hn]
      | succ j =>
        rw [getElem?_cons_succ, getFullPathFrom_getElem? (by omega)]
        congr 1
        omega

theorem getFullPath_getElem? (key : Bytes) (j : Nat) : (getFullPath key)[j]? = getNextNibble key (6 * j) := by
  rw [getFullPath, getFullPathFrom_getElem? (by omega), Nat.zero_add]

def pathLength (len : Nat) : Nat := (8 * len + 5) / 6

theorem getFullPath_length (key : Bytes) : (getFullPath key).length = pathLength key.length := by
  have hiff : ∀ j, (getFullPath key).length ≤ j ↔ pathLength key.length ≤ j := by
    intro j
    rw [← getElem?_eq_none_iff, getFullPath_getElem?, getNextNibble_eq_none, pathLength]
    omega
  exact le_antisymm ((hiff _).mpr le_rfl) ((hiff _).mp le_rfl)

theorem keyBit_eq_of_path (hp : getFullPath key1 = getFullPath key2) (i : Nat) : keyBit key1 i = keyBit key2 i := by
  have hget : getNextNibble key1 (6 * (i / 6)) = getNextNibble key2 (6 * (i / 6)) := by
    rw [← getFullPath_getElem?, hp, getFullPath_getElem?]
  have hi : 6 * (i / 6) + i % 6 = i := by omega
  have ht : i % 6 < 6 := by omega
  cases hn : getNextNibble key1 (6 * (i / 6)) with
  | some nib =>
    have h1 := getNextNibble_testBit hn ht
    have h2 := getNextNibble_testBit (hget.symm.trans hn) ht
    rw [hi] at h1 h2
    rw [← h1, h2]
  | none =>
    have past : ∀ key : Bytes, getNextNibble key (6 * (i / 6)) = none → keyBit key i = false := by
      intro key hkey
      rw [getNextNibble_eq_none] at hkey
      unfold keyBit
      rw [getElem?_eq_none (by omega)]
    rw [past key1 hn, past key2 (hget.symm.trans hn)]

theorem getFullPath_inj (hl : key1.length = key2.length)
    (hp : getFullPath key1 = getFullPath key2) : key1 = key2 := by
  refine ext_getElem hl fun m h1 h2 => ?_
  rw [← UInt8.toNat_inj]
  refine Nat.eq_of_testBit_eq fun s => ?_
  by_cases hs : s < 8
  · have hb := keyBit_eq_of_path hp (8 * m + (7 - s))
    have hd : (8 * m + (7 - s)) / 8 = m := by omega
    have hm : 7 - (7 - s) % 8 = s := by omega
    simpa [keyBit, hd, hm, getElem?_eq_getElem h1, getElem?_eq_getElem h2] using hb
  · rw [byte_testBit_eq_false _ (by omega), byte_testBit_eq_false _ (by omega)]

theorem getFullPath_ne (hl : key1.length = key2.length) (hne : key1 ≠ key2) :
    getFullPath key1 ≠ getFullPath key2 := fun h => hne (getFullPath_inj hl h)

/-! ### The loops of the tree code -/

theorem getNextNibble_depth (key : Bytes) (d j : Nat) :
    getNextNibble key (6 * d + j * branchBits) = (getFullPath key)[d + j]? := by
  rw [getFullPath_getElem?, branchBits]
  congr 1
  omega

theorem getNibblesUntilDivergeFrom_eq {fuel : Nat} {s : List Nibble}
    (hs : s = shared ((getFullPath key1).drop d) ((getFullPath key2).drop d))
    (hne : (getFullPath key1)[d + s.length]? ≠ (getFullPath key2)[d + s.length]?) (hfl : s.length < fuel) :
    getNibblesUntilDivergeFrom key1 key2 fuel (6 * d) = .ok (s, 6 * (d + s.length)) := by
  induction fuel generalizing d s with
  | zero => omega
  | succ fuel ih =>
    have hbt : branchBits = 6 := rfl
    have read : ∀ key, getNextNibble key (6 * d) = (getFullPath key)[d]? := fun key =>
      (getFullPath_getElem? key d).symm
    simp only [getNibblesUntilDivergeFrom, read]
    by_cases heq : (getFullPath key1)[d]? = (getFullPath key2)[d]?
    · cases h1 : (getFullPath key1)[d]? with
      | none =>
        -- Both paths have ended, so they cannot part further down.
        exfalso
        rw [getElem?_eq_none_iff] at h1
        have h2 := heq.symm.trans (getElem?_eq_none h1)
        rw [getElem?_eq_none_iff] at h2
        rw [getElem?_eq_none (by omega), getElem?_eq_none (by omega)] at hne
        exact hne rfl
      | some nib =>
        have h2 : (getFullPath key2)[d]? = some nib := heq.symm.trans h1
        obtain ⟨l1, e1⟩ := List.getElem?_eq_some_iff.mp h1
        obtain ⟨l2, e2⟩ := List.getElem?_eq_some_iff.mp h2
        have hs' : s = nib :: shared ((getFullPath key1).drop (d + 1)) ((getFullPath key2).drop (d + 1)) := by
          rw [hs, drop_eq_getElem_cons l1, drop_eq_getElem_cons l2, e1, e2, shared_cons_cons, if_pos rfl]
        have hl := congrArg length hs'
        rw [length_cons] at hl
        have hd : 6 * d + branchBits = 6 * (d + 1) := by omega
        have hne' := hne
        rw [hl, Nat.add_comm (length _) 1, ← Nat.add_assoc] at hne'
        rw [h2]
        simp only [ne_eq, not_true_eq_false, if_false]
        rw [hd, ih rfl hne' (by omega)]
        show Except.ok (_, _) = _
        rw [← hs', hl]
        congr 3
        omega
    · have hnil : s = [] := by
        rw [hs]
        cases h1 : (getFullPath key1).drop d with
        | nil => simp
        | cons x xs =>
          cases h2 : (getFullPath key2).drop d with
          | nil => simp
          | cons y ys =>
            have e1 : (getFullPath key1)[d]? = some x := by
              rw [← head?_drop, h1, head?_cons]
            have e2 : (getFullPath key2)[d]? = some y := by
              rw [← head?_drop, h2, head?_cons]
            rw [shared_cons_cons, if_neg]
            rintro rfl
            exact heq (e1.trans e2.symm)
      rw [if_pos heq, hnil]
      rfl

theorem getNibblesUntilDiverge_eq
    (hne : (getFullPath key1)[d + (shared ((getFullPath key1).drop d) ((getFullPath key2).drop d)).length]? ≠
      (getFullPath key2)[d + (shared ((getFullPath key1).drop d) ((getFullPath key2).drop d)).length]?) :
    getNibblesUntilDiverge key1 key2 (6 * d) = .ok (shared ((getFullPath key1).drop d) ((getFullPath key2).drop d),
        6 * (d + (shared ((getFullPath key1).drop d) ((getFullPath key2).drop d)).length)) := by
  refine getNibblesUntilDivergeFrom_eq rfl hne ?_
  have h1 := (shared_prefix_left ((getFullPath key1).drop d) ((getFullPath key2).drop d)).length_le
  have h2 : ((getFullPath key1).drop d).length ≤ (getFullPath key1).length := by simp
  rw [getFullPath_length, pathLength] at h2
  omega

theorem prefixMismatch_eq (key : Bytes) (d : Nat) : ∀ (q : List Nibble) (i : Nat), prefixMismatch key (6 * d) q i =
      match q[(shared q ((getFullPath key).drop (d + i))).length]? with
      | none => none
      | some e => some (i + (shared q ((getFullPath key).drop (d + i))).length, e,
          (getFullPath key)[d + i + (shared q ((getFullPath key).drop (d + i))).length]?)
  | [], i => by simp [prefixMismatch]
  | x :: q, i => by
    simp only [prefixMismatch, getNextNibble_depth]
    cases hget : (getFullPath key)[d + i]? with
    | none =>
      have hdp : (getFullPath key).drop (d + i) = [] := drop_eq_nil_iff.mpr (getElem?_eq_none_iff.mp hget)
      simp [hdp, hget]
    | some y =>
      obtain ⟨hlt, hy⟩ := List.getElem?_eq_some_iff.mp hget
      rw [drop_eq_getElem_cons hlt, hy, shared_cons_cons]
      by_cases hxy : x = y
      · subst hxy
        simp only [ne_eq, not_true_eq_false, if_false, if_true, length_cons, getElem?_cons_succ]
        rw [prefixMismatch_eq key d q (i + 1), ← Nat.add_assoc]
        congr 1
        funext e
        congr 2
        · omega
        · congr 2
          omega
      · have hne : ¬some y = some x := fun h => hxy (some.inj h).symm
        simp [hne, hxy, hget]

theorem prefixMismatch_eq_none {q : List Nibble} :
    prefixMismatch key (6 * d) q 0 = none ↔ q <+: (getFullPath key).drop d := by
  rw [prefixMismatch_eq, Nat.add_zero, ← shared_length_eq]
  have hle := (shared_prefix_left q ((getFullPath key).drop d)).length_le
  cases h : q[(shared q ((getFullPath key).drop d)).length]? with
  | none =>
    rw [getElem?_eq_none_iff] at h
    simp only [true_iff]
    omega
  | some e =>
    have := (List.getElem?_eq_some_iff.mp h).1
    simp only [reduceCtorEq, false_iff]
    omega

end Quilibrium
