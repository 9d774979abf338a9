import Mathlib.Algebra.Order.BigOperators.Group.List
import Mathlib.Algebra.Order.Group.Nat
import Mathlib.Data.UInt
import Mathlib.Order.MinMax
import Quilibrium.Consensus.Fees

/-! Proposers vote for fees that voters accept, as long as no product of the adjustment wraps around. -/

namespace Quilibrium

/-- The deviation of the time between the frames is not so large that its percentage turns negative. -/
def FeeSource.Steady (source : FeeSource) : Prop :=
  ∀ timeDiff, source.timeDiff = some timeDiff → (timeDiff < targetTime → 0 ≤ percentOff (targetTime - timeDiff)) ∧
      (targetTime < timeDiff → 0 ≤ percentOff (timeDiff - targetTime))

theorem feeAcceptable_iff {base fee : Nat} (hbs : base < 2 ^ 64) : feeAcceptable base fee = true ↔
    base + base / 10 < 2 ^ 64 ∧ max 1 (base - base / 10) ≤ fee ∧ fee ≤ base + base / 10 := by
  simp only [feeAcceptable, Bool.not_eq_true', Bool.or_eq_false_iff, decide_eq_false_iff_not]
  omega

theorem percentOff_le (deviation : Int) : percentOff deviation ≤ 10 := min_le_left _ _

theorem feeAdjustment_le (base : Nat) {percent : Int} (hpos : 0 ≤ percent) (hle : percent ≤ 10) :
    feeAdjustment base percent ≤ base / 10 := by
  have hsm : toUint64 percent ≤ 10 := by
    rw [toUint64, Int.emod_eq_of_lt hpos (by omega)]
    omega
  calc feeAdjustment base percent
    _ ≤ base * toUint64 percent / 100 := Nat.div_le_div_right (Nat.mod_le _ _)
    _ ≤ base * 10 / 100 := Nat.div_le_div_right (Nat.mul_le_mul_left base hsm)
    _ = base / 10 := by omega

theorem feeAdjustment_negative {deviation : Int} (hneg : percentOff deviation < 0) :
    10 ^ 17 ≤ feeAdjustment 1 (percentOff deviation) ∧ feeAdjustment 1 (percentOff deviation) ≤ 2 ^ 64 / 100 := by
  have hl : -(10 ^ 15) ≤ percentOff deviation := by
    have hwr : -(2 ^ 63) ≤ wrapInt64 (wrapInt64 deviation * 100) := Int.le_bmod (by decide)
    have hd : Int.tdiv (-(2 ^ 63)) targetTime ≤ (wrapInt64 (wrapInt64 deviation * 100)).tdiv targetTime :=
      Int.tdiv_le_tdiv (by decide) hwr
    rw [percentOff, le_min_iff]
    exact ⟨by decide, le_trans (by decide) hd⟩
  rw [feeAdjustment, toUint64]
  omega

theorem feeAfter_bounds {base : Nat} {timeDiff : Int} (hpos : 1 ≤ base) (hft : base + base / 10 < 2 ^ 64)
    (hfs : timeDiff < targetTime → 0 ≤ percentOff (targetTime - timeDiff))
    (hsl : targetTime < timeDiff → 0 ≤ percentOff (timeDiff - targetTime)) :
    max 1 (base - base / 10) ≤ feeAfter base timeDiff ∧ feeAfter base timeDiff ≤ base + base / 10 := by
  rw [feeAfter]
  split_ifs with hls hmr
  · have hle := feeAdjustment_le base (hfs hls) (percentOff_le _)
    generalize feeAdjustment base (percentOff (targetTime - timeDiff)) = adjustment at hle ⊢
    have hm : (base + (2 ^ 64 - adjustment)) % 2 ^ 64 = base - adjustment := by omega
    omega
  · have hle := feeAdjustment_le base (hsl hmr) (percentOff_le _)
    omega
  · omega

/-- Every base that voters can work with leads to an acceptable vote iff the percentage is not negative. -/
theorem honest_fee_acceptable_iff (source : FeeSource) : (∀ base, 1 ≤ base → base < 2 ^ 64 →
      (feeAcceptable base (source.adjustFeeForTraffic base) = true ↔ base + base / 10 < 2 ^ 64)) ↔ source.Steady := by
  constructor
  · intro h timeDiff hdf
    have ho := ((feeAcceptable_iff (by decide)).mp ((h 1 le_rfl (by decide)).mpr (by decide))).2
    rw [FeeSource.adjustFeeForTraffic, hdf] at ho
    dsimp only at ho
    rw [feeAfter] at ho
    constructor
    · intro hls
      by_contra hneg
      have hb := feeAdjustment_negative (not_le.mp hneg)
      rw [if_pos hls] at ho
      omega
    · intro hmr
      by_contra hneg
      have hb := feeAdjustment_negative (not_le.mp hneg)
      rw [if_neg (by omega), if_pos hmr] at ho
      omega
  · intro h base hpos hbs
    refine ⟨fun hacc => ((feeAcceptable_iff hbs).mp hacc).1, fun hft => (feeAcceptable_iff hbs).mpr ⟨hft, ?_⟩⟩
    rw [FeeSource.adjustFeeForTraffic]
    cases hdf : source.timeDiff with
    | none =>
      dsimp only
      omega
    | some timeDiff => exact feeAfter_bounds hpos hft (h timeDiff hdf).1 (h timeDiff hdf).2

/-- Two frames that are `2 ^ 62` milliseconds apart: a slow frame raises the fee 1 by a hundredth of the range. -/
theorem honest_fee_refused : FeeSource.adjustFeeForTraffic ⟨true, some (2, 2 ^ 62), some 0⟩ 1 = 1 + (2 ^ 64 - 100) / 100 ∧
    feeAcceptable 1 (FeeSource.adjustFeeForTraffic ⟨true, some (2, 2 ^ 62), some 0⟩ 1) = false := by
  decide

/-! ### The fee manager -/

namespace DynamicFeeManager
open List Function

def total (votes : List FeeVote) : UInt64 := (votes.map (·.feeMultiplierVote)).sum

def Rising (votes : List FeeVote) : Prop := votes.Pairwise (·.frameNumber < ·.frameNumber)

/-- The window of the filter, with the sum of its votes. -/
def Window (d : DynamicFeeManager) (filter : Bytes) (w : List FeeVote) : Prop := (d filter).getD ⟨[], 0⟩ = ⟨w, total w⟩

variable {d : DynamicFeeManager} {filter : Bytes} {w kept newer chain votes : List FeeVote} {j m : Nat}

theorem total_append (w w' : List FeeVote) : total (w ++ w') = total w + total w' := by
  rw [total, map_append, sum_append, total, total]

theorem foldl_sub (s : UInt64) (w : List FeeVote) :
    w.foldl (fun sum vote => sum - vote.feeMultiplierVote) (s + total w) = s := by
  induction w with
  | nil => exact UInt64.add_zero s
  | cons vote w ih =>
    rw [foldl_cons, total, map_cons, sum_cons]
    have hst : s + (vote.feeMultiplierVote + total w) - vote.feeMultiplierVote = s + total w := by grind
    exact (congrArg (fun s => foldl _ s w) hst).trans ih

theorem Window.addFrameFeeVote (h : d.Window filter w) (hl : w.length ≤ maxWindowSize) {vote : FeeVote}
    (hnew : ∀ v ∈ w, v.frameNumber < vote.frameNumber) :
    (d.addFrameFeeVote filter vote).1.Window filter ((w ++ [vote]).drop (w.length + 1 - maxWindowSize)) := by
  have hls : (w.getLast?.filter fun last => vote.frameNumber ≤ last.frameNumber) = none := by
    refine Option.filter_eq_none_iff.mpr fun last hls => ?_
    simpa using hnew last (mem_of_getLast? hls)
  have hs : total w + vote.feeMultiplierVote = total (w ++ [vote]) := by
    rw [total_append]
    exact congrArg _ (UInt64.add_zero _).symm
  rw [DynamicFeeManager.addFrameFeeVote, h]
  simp only [hls, hs, Window, update_self, Option.getD_some]
  cases w with
  | nil => rfl
  | cons old w =>
    rw [cons_append, slide]
    split_ifs with hln
    · have ho : (old :: w).length + 1 - maxWindowSize = 1 := by grind
      have htt : total (old :: (w ++ [vote])) - old.feeMultiplierVote = total (w ++ [vote]) := by
        rw [total, map_cons, sum_cons, total]
        grind
      rw [ho, htt]
      rfl
    · have hzr : (old :: w).length + 1 - maxWindowSize = 0 := by grind
      rw [hzr]
      rfl

theorem Window.addVotes (h : d.Window filter (chain.drop j)) (hj : j ≤ chain.length)
    (hl : chain.length ≤ j + maxWindowSize) (hch : Rising (chain ++ votes)) : (d.addVotes filter votes).Window filter
      ((chain ++ votes).drop (max j (chain.length + votes.length - maxWindowSize))) := by
  induction votes generalizing d chain j with
  | nil =>
    rw [append_nil, length_nil, max_eq_left (by omega)]
    exact h
  | cons vote votes ih =>
    rw [append_cons] at hch ⊢
    have hnew : ∀ v ∈ chain.drop j, v.frameNumber < vote.frameNumber := fun v hv =>
      (pairwise_append.mp (pairwise_append.mp hch).1).2.2 v (mem_of_mem_drop hv) vote mem_cons_self
    have hnx := h.addFrameFeeVote (by rw [length_drop]; omega) hnew
    rw [← drop_append_of_le_length hj, drop_drop, length_drop] at hnx
    have hpos : 0 < maxWindowSize := by decide
    have hend := ih hnx (by rw [length_append, length_singleton]; omega) (by rw [length_append, length_singleton]; omega)
      hch
    have hdp : max (j + (chain.length - j + 1 - maxWindowSize)) (chain.length + 1 + votes.length - maxWindowSize) =
        max j (chain.length + (vote :: votes).length - maxWindowSize) := by
      rw [length_cons]
      omega
    rw [length_append, length_singleton, hdp] at hend
    exact hend

theorem keepIndex_append (hkept : ∀ v ∈ kept, v.frameNumber ≤ m) (hnw : ∀ v ∈ newer, m < v.frameNumber) :
    keepIndex (kept ++ newer) m = kept.length := by
  have hnn : (kept.findIdx? fun vote => m < vote.frameNumber) = none := by
    rw [findIdx?_eq_none_iff]
    exact fun v hv => decide_eq_false (not_lt.mpr (hkept v hv))
  rw [keepIndex, findIdx?_append, hnn, Option.none_or]
  cases newer with
  | nil =>
    rw [append_nil]
    cases hls : kept.getLast? with
    | none => rw [getLast?_eq_none_iff.mp hls]; rfl
    | some last => simp [hkept last (mem_of_getLast? hls)]
  | cons v newer =>
    have hfr : (findIdx? (fun vote : FeeVote => m < vote.frameNumber) (v :: newer)) = some 0 := by
      simp [findIdx?_cons, hnw v mem_cons_self]
    have hls : (kept ++ v :: newer).getLast?.any (·.frameNumber ≤ m) = false := by
      rw [getLast?_append_of_ne_nil _ (cons_ne_nil v newer), getLast?_eq_some_getLast (cons_ne_nil v newer)]
      exact decide_eq_false (not_le.mpr (hnw _ (getLast_mem _)))
    rw [hfr, hls]
    simp

theorem Window.rewindToFrame (h : d.Window filter (kept ++ newer)) (hkept : ∀ v ∈ kept, v.frameNumber ≤ m)
    (hnw : ∀ v ∈ newer, m < v.frameNumber) : (d.rewindToFrame filter m).1.Window filter kept := by
  rw [DynamicFeeManager.rewindToFrame, h]
  simp only [keepIndex_append hkept hnw]
  split_ifs with hall
  · have hnil : newer = [] := by
      rw [← length_eq_zero_iff]
      simp only [Bool.or_eq_true, List.isEmpty_iff, append_eq_nil_iff, decide_eq_true_eq, length_append] at hall
      rcases hall with ⟨-, rfl⟩ | hall
      · rfl
      · omega
    rwa [hnil, append_nil] at h
  · simp [Window, total_append, foldl_sub]

def average (w : List FeeVote) : UInt64 :=
  if w.isEmpty then defaultFeeMultiplier else total w / UInt64.ofNat w.length

theorem Window.getNextFeeMultiplier (h : d.Window filter w) : d.getNextFeeMultiplier filter = average w := by
  rw [DynamicFeeManager.getNextFeeMultiplier, h, average]

theorem rising_of_frames {first count : Nat} (h : votes.map (·.frameNumber) = range' first count) : Rising votes :=
  pairwise_map.mp (h ▸ pairwise_lt_range')

theorem window_new (h : Rising chain) :
    (new.addVotes filter chain).Window filter (chain.drop (chain.length - maxWindowSize)) := by
  have hnew : new.Window filter (drop 0 []) := rfl
  have hend := hnew.addVotes le_rfl (Nat.zero_le _) (show Rising ([] ++ chain) from h)
  rw [nil_append, length_nil, Nat.zero_add, Nat.zero_max] at hend
  exact hend

section
variable {undone continuation : List FeeVote} {n : Nat} (hkept : kept.map (·.frameNumber) = range' 1 m)
    (hundone : undone.map (·.frameNumber) = range' (1 + m) n) (hrising : Rising (kept ++ continuation))
include hkept hrising

theorem multiplier_new : (new.addVotes filter (kept ++ continuation)).getNextFeeMultiplier filter =
    average ((kept ++ continuation).drop (m + continuation.length - maxWindowSize)) := by
  have hm : kept.length = m := by simpa using congrArg length hkept
  rw [(window_new hrising).getNextFeeMultiplier, length_append, hm]

include hundone in
theorem multiplier_rewound :
    (((new.addVotes filter (kept ++ undone)).rewindToFrame filter m).1.addVotes filter continuation).getNextFeeMultiplier
      filter = average ((kept ++ continuation).drop
        (max (min (m + n - maxWindowSize) m) (m + continuation.length - maxWindowSize))) := by
  have hm : kept.length = m := by simpa using congrArg length hkept
  have hn : undone.length = n := by simpa using congrArg length hundone
  have ho : Rising (kept ++ undone) := rising_of_frames (by rw [map_append, hkept, hundone, range'_append_1])
  have hw : Window _ filter _ := window_new ho
  rw [drop_append] at hw
  have hbc := hw.rewindToFrame (m := m) (fun v hv => ?_) fun v hv => ?_
  · rw [drop_eq_drop_min, length_append, hm, hn] at hbc
    rw [(hbc.addVotes (by omega) (by omega) hrising).getNextFeeMultiplier, hm]
  · have hmem := mem_map_of_mem (f := (·.frameNumber)) (mem_of_mem_drop hv)
    rw [hkept, mem_range'_1] at hmem
    omega
  · have hmem := mem_map_of_mem (f := (·.frameNumber)) (mem_of_mem_drop hv)
    rw [hundone, mem_range'_1] at hmem
    omega

end

def spike (j frameNumber : Nat) : FeeVote := ⟨frameNumber, if frameNumber = j then 1000000 else 0⟩

theorem frames_spike (j first count : Nat) : ((range' first count).map (spike j)).map (·.frameNumber) = range' first count := by
  rw [map_map]
  exact map_id _

theorem total_spike {l : List Nat} (h : l.Nodup) : total (l.map (spike j)) = if j ∈ l then 1000000 else 0 := by
  induction l with
  | nil => rfl
  | cons i l ih =>
    rw [nodup_cons] at h
    rw [map_cons, total, map_cons, sum_cons, ← total, ih h.2]
    grind [spike]

theorem average_spike (j first : Nat) {count : Nat} (h : count ≤ maxWindowSize) :
    100 < (average ((range' first count).map (spike j))).toNat ↔ j ∈ range' first count := by
  rw [average, total_spike nodup_range', length_map, length_range']
  have hsz : maxWindowSize = 360 := rfl
  cases count with
  | zero => simp [defaultFeeMultiplier]
  | succ count =>
    rw [if_neg (by simp [range'_succ])]
    split_ifs with hm
    · rw [UInt64.toNat_div, UInt64.toNat_ofNat_of_lt' (by rw [UInt64.size]; omega)]
      refine iff_of_true ((Nat.le_div_iff_mul_le (by omega)).mpr ?_) hm
      change 101 * (count + 1) ≤ 1000000
      omega
    · rw [UInt64.zero_div]
      exact iff_of_false (by decide) hm

/-- After a rewind to frame `m` of `m + n` and `k` further votes the multiplier is that of the chain alone, whatever
    the votes are, exactly if the votes that were lost before the rewind would be out of the window anyway. -/
theorem multiplier_rewound_iff (filter : Bytes) (m n k : Nat) : (∀ kept undone continuation : List FeeVote,
      kept.map (·.frameNumber) = range' 1 m → undone.map (·.frameNumber) = range' (1 + m) n → continuation.length = k →
      Rising (kept ++ continuation) →
      (((new.addVotes filter (kept ++ undone)).rewindToFrame filter m).1.addVotes filter continuation).getNextFeeMultiplier
        filter = (new.addVotes filter (kept ++ continuation)).getNextFeeMultiplier filter) ↔
    min (m + n - maxWindowSize) m ≤ m + k - maxWindowSize := by
  constructor
  · intro h
    by_contra hlt
    generalize hj : min (m + n - maxWindowSize) m = j at hlt
    have hch : (range' 1 m).map (spike j) ++ (range' (1 + m) k).map (spike j) = (range' 1 (m + k)).map (spike j) := by
      rw [← map_append, range'_append_1]
    have hrising := rising_of_frames (frames_spike j 1 (m + k))
    rw [← hch] at hrising
    have hlg : ((range' (1 + m) k).map (spike j)).length = k := by simp
    have heq := h _ _ _ (frames_spike j 1 m) (frames_spike j (1 + m) n) hlg hrising
    have hm : max j (m + k - maxWindowSize) = j := by omega
    rw [multiplier_rewound (frames_spike j 1 m) (frames_spike j (1 + m) n) hrising,
      multiplier_new (frames_spike j 1 m) hrising, hch, hlg, hj, hm, ← map_drop, ← map_drop, drop_range', drop_range'] at heq
    -- the vote of frame `j` is in the second window only
    have hiff := average_spike j (1 + j * 1) (show m + k - j ≤ maxWindowSize by omega)
    rw [heq, average_spike _ _ (by omega), mem_range'_1, mem_range'_1] at hiff
    omega
  · rintro hle kept undone continuation hkept hundone rfl hrising
    rw [multiplier_rewound hkept hundone hrising, multiplier_new hkept hrising, max_eq_right hle]

/-- Frame 1 leaves the window with frame 361, and a rewind to frame 1 does not bring its vote back. -/
theorem multiplier_rewound_default : (((new.addVotes [] ([⟨1, 7⟩] ++ (range' 2 360).map (⟨·, 7⟩))).rewindToFrame [] 1).1.addVotes
      [] []).getNextFeeMultiplier [] = 100 ∧ (new.addVotes [] ([⟨1, 7⟩] ++ [])).getNextFeeMultiplier [] = 7 := by
  have hkept : [(⟨1, 7⟩ : FeeVote)].map (·.frameNumber) = range' 1 1 := rfl
  have hundone : ((range' 2 360).map (⟨·, 7⟩ : Nat → FeeVote)).map (·.frameNumber) = range' 2 360 := by
    rw [map_map]
    exact map_id _
  exact ⟨(multiplier_rewound hkept hundone (pairwise_singleton _ _)).trans (by decide), rfl⟩

/-! ### The window along a run -/

inductive Op where
  | add (vote : FeeVote)
  | rewind (frameNumber : Nat)

def Op.apply (filter : Bytes) (d : DynamicFeeManager) : Op → DynamicFeeManager
  | .add vote => (d.addFrameFeeVote filter vote).1
  | .rewind frameNumber => (d.rewindToFrame filter frameNumber).1

def run (calls : List (Bytes × Op)) : DynamicFeeManager := calls.foldl (fun d (filter, op) => op.apply filter d) new

def exactSum (votes : List FeeVote) : Nat := (votes.map (·.feeMultiplierVote.toNat)).sum

theorem toNat_total (w : List FeeVote) : (total w).toNat = exactSum w % 2 ^ 64 := by
  induction w with
  | nil => rfl
  | cons vote w ih =>
    have hs : exactSum (vote :: w) = vote.feeMultiplierVote.toNat + exactSum w := sum_cons
    rw [total, map_cons, sum_cons, ← total, UInt64.toNat_add, ih, hs, Nat.add_mod_mod]

theorem Rising.split (h : Rising w) (m : Nat) :
    ∃ kept newer, w = kept ++ newer ∧ (∀ v ∈ kept, v.frameNumber ≤ m) ∧ ∀ v ∈ newer, m < v.frameNumber := by
  induction w with
  | nil => exact ⟨[], [], rfl, nofun, nofun⟩
  | cons vote w ih =>
    obtain ⟨hlt, hw⟩ := pairwise_cons.mp h
    by_cases hm : vote.frameNumber ≤ m
    · obtain ⟨kept, newer, rfl, hkept, hnw⟩ := ih hw
      exact ⟨vote :: kept, newer, rfl, forall_mem_cons.mpr ⟨hm, hkept⟩, hnw⟩
    · have hm := not_le.mp hm
      exact ⟨[], vote :: w, rfl, nofun, forall_mem_cons.mpr ⟨hm, fun v hv => hm.trans (hlt v hv)⟩⟩

theorem Op.apply_of_ne {filter' : Bytes} (h : filter ≠ filter') (op : Op) : op.apply filter' d filter = d filter := by
  cases op with
  | add vote =>
    rw [apply, DynamicFeeManager.addFrameFeeVote]
    split
    · rfl
    · exact update_of_ne h ..
  | rewind m =>
    rw [apply, DynamicFeeManager.rewindToFrame]
    dsimp only
    split_ifs
    · rfl
    · exact update_of_ne h ..

theorem Window.apply (h : d.Window filter w) (hl : w.length ≤ maxWindowSize) (hr : Rising w) (op : Op) :
    ∃ w', (op.apply filter d).Window filter w' ∧ w'.length ≤ maxWindowSize ∧ Rising w' := by
  cases op with
  | add vote =>
    cases hls : w.getLast?.filter fun last => vote.frameNumber ≤ last.frameNumber with
    | some last =>
      refine ⟨w, ?_, hl, hr⟩
      rw [Op.apply, DynamicFeeManager.addFrameFeeVote, h]
      simpa only [hls] using h
    | none =>
      have hnew : ∀ v ∈ w, v.frameNumber < vote.frameNumber := by
        rcases eq_nil_or_concat w with rfl | ⟨init, last, rfl⟩
        · exact nofun
        · have hlt : last.frameNumber < vote.frameNumber := by simpa using hls
          rw [concat_eq_append] at hr ⊢
          refine forall_mem_append.mpr ⟨fun v hv => ?_, forall_mem_singleton.mpr hlt⟩
          exact ((pairwise_append.mp hr).2.2 v hv last mem_cons_self).trans hlt
      refine ⟨_, h.addFrameFeeVote hl hnew, by grind, ?_⟩
      exact (pairwise_append.mpr ⟨hr, pairwise_singleton _ _, by simpa using hnew⟩).drop
  | rewind m =>
    obtain ⟨kept, newer, rfl, hkept, hnw⟩ := hr.split m
    rw [length_append] at hl
    exact ⟨kept, h.rewindToFrame hkept hnw, by omega, (pairwise_append.mp hr).1⟩

theorem window_run (calls : List (Bytes × Op)) (filter : Bytes) :
    ∃ w, (run calls).Window filter w ∧ w.length ≤ maxWindowSize ∧ Rising w := by
  induction calls using reverseRecOn with
  | nil => exact ⟨[], rfl, Nat.zero_le _, .nil⟩
  | append_singleton calls call ih =>
    obtain ⟨w, h, hl, hr⟩ := ih
    rw [run, foldl_append]
    by_cases hf : filter = call.1
    · subst hf
      exact h.apply hl hr call.2
    · refine ⟨w, ?_, hl, hr⟩
      change (call.2.apply call.1 (run calls) filter).getD ⟨[], 0⟩ = _
      rw [call.2.apply_of_ne hf]
      exact h

theorem average_between (hne : w ≠ []) (hl : w.length ≤ maxWindowSize) (hs : exactSum w < 2 ^ 64) :
    ∃ lo ∈ w, ∃ hi ∈ w, lo.feeMultiplierVote ≤ average w ∧ average w ≤ hi.feeMultiplierVote := by
  have hav : (average w).toNat = exactSum w / w.length := by
    have hsz : maxWindowSize = 360 := rfl
    rw [average, if_neg (by simpa using hne), UInt64.toNat_div, toNat_total, Nat.mod_eq_of_lt hs,
      UInt64.toNat_ofNat_of_lt' (by rw [UInt64.size]; omega)]
  obtain ⟨lo, hlm, hlo⟩ := exists_lt_of_sum_lt (fun v : FeeVote => v.feeMultiplierVote.toNat) (fun _ => (average w).toNat + 1) (by
    rw [map_const', sum_replicate, hav]
    exact Nat.lt_mul_div_succ (exactSum w) (length_pos_of_ne_nil hne))
  obtain ⟨hi, hhm, hhi⟩ := exists_le_of_sum_le hne (fun _ => (average w).toNat)
    (fun v => v.feeMultiplierVote.toNat) (by
    rw [map_const', sum_replicate, hav]
    exact Nat.mul_div_le (exactSum w) w.length)
  exact ⟨lo, hlm, hi, hhm, UInt64.le_iff_toNat_le.mpr (Nat.lt_succ_iff.mp hlo), UInt64.le_iff_toNat_le.mpr hhi⟩

/-- The window is short and in order, its sum is exact, and the multiplier lies between two of its votes. -/
def Exact (d : DynamicFeeManager) (filter : Bytes) : Prop :=
  let data := (d filter).getD ⟨[], 0⟩
  data.sumVotes.toNat = exactSum data.votes ∧ data.votes.length ≤ maxWindowSize ∧ Rising data.votes ∧
    (data.votes ≠ [] → ∃ lo ∈ data.votes, ∃ hi ∈ data.votes,
      lo.feeMultiplierVote ≤ d.getNextFeeMultiplier filter ∧ d.getNextFeeMultiplier filter ≤ hi.feeMultiplierVote)

/-- After any calls the window is exact iff the sum of its votes fits into 64 bits. -/
theorem exact_iff (calls : List (Bytes × Op)) (filter : Bytes) :
    (run calls).Exact filter ↔ exactSum ((run calls filter).getD ⟨[], 0⟩).votes < 2 ^ 64 := by
  obtain ⟨w, h, hl, hr⟩ := window_run calls filter
  rw [Exact, h.getNextFeeMultiplier, h]
  constructor
  · rintro ⟨hs, -⟩
    rw [← hs]
    exact UInt64.toNat_lt _
  · intro hs
    exact ⟨(toNat_total w).trans (Nat.mod_eq_of_lt hs), hl, hr, fun hne => average_between hne hl hs⟩

/-- Two votes of `2 ^ 63` have the sum 0, and so has the multiplier. -/
theorem not_exact : (run [([], .add ⟨1, 2 ^ 63⟩), ([], .add ⟨2, 2 ^ 63⟩)]).getNextFeeMultiplier [] = 0 ∧
    ¬(run [([], .add ⟨1, 2 ^ 63⟩), ([], .add ⟨2, 2 ^ 63⟩)]).Exact [] := by
  refine ⟨by decide +kernel, fun h => ?_⟩
  exact absurd h.1 (by decide +kernel)

end DynamicFeeManager

end Quilibrium
