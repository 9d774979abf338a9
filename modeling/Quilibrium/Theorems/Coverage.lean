import Quilibrium.Consensus.Coverage
import Quilibrium.Lib.Except

/-! Which shards `checkShardCoverage` halts. -/

namespace Quilibrium
open Except List
namespace Coverage
open Provers

namespace Env

variable {e : Env} {s t u : Bytes} {range : List Bytes} {coverage : ShardCoverage}

def Named (e : Env) (s : Bytes) : Prop := ∃ prover ∈ e.proverCache, ∃ a ∈ prover.allocations, a.confirmationFilter = s

def activeIn (e : Env) (s : Bytes) : Nat := (e.proverCache.filter (activeWith fun filter => filter = s)).length

/-- The allocations for the shard, of any status, of provers with an active allocation for some shard. -/
def allocatedIn (e : Env) (s : Bytes) : Nat :=
  (e.getAllActiveAppShardProvers.map fun prover => prover.allocations.countP (·.confirmationFilter = s)).sum

def Readable (e : Env) (s : Bytes) : Prop := e.shardTries s ≠ 0 → s.length = 64 ∧ e.vertexData s ≠ some none

def Mergeable (e : Env) : Prop :=
  ∀ s, e.allocatedIn s = 4 → 32 < s.length → ∀ t, 0 < e.allocatedIn t → t ≠ s → t.take 32 = s.take 32 →
    e.Readable s ∧ e.Readable t

/-- For a named shard, the allocations are few if the active provers are. -/
def Counted (e : Env) : Prop :=
  ∀ s, e.Named s → e.isAddressBlacklisted s = false →
    0 < e.allocatedIn s ∧ (e.allocatedIn s ≤ haltThreshold ↔ e.activeIn s ≤ haltThreshold)

/-- There is no panic, and a halt for exactly the named shards outside the blacklist with few active provers. -/
def HaltsExactly (e : Env) (range : List Bytes) (siblings : Bytes → List Bytes) : Prop :=
  ∃ events, e.checkShardCoverage range siblings = .ok events ∧
    ∀ s, (∃ data, .coverageHalt data ∈ events ∧ data.shardAddress = s) ↔
      e.Named s ∧ e.isAddressBlacklisted s = false ∧ e.activeIn s ≤ haltThreshold

/-! ### The coverage map -/

theorem length_shardProvers : (e.shardProvers s).length = e.allocatedIn s := by
  simp [shardProvers, allocatedIn, length_flatMap, countP_eq_length_filter]

theorem mem_shards : s ∈ e.shards ↔ 0 < e.allocatedIn s := by
  rw [← length_shardProvers, length_pos_iff_exists_mem, shards, mem_dedup, mem_flatMap]
  simp only [shardProvers, mem_flatMap, mem_map, mem_filter, decide_eq_true_eq]
  exact ⟨fun ⟨prover, hm, a, ha, hs⟩ => ⟨prover, prover, hm, a, ⟨ha, hs⟩, rfl⟩,
    fun ⟨_, prover, hm, a, ⟨ha, hs⟩, _⟩ => ⟨prover, hm, a, ha, hs⟩⟩

theorem named_of_mem_shards (h : s ∈ e.shards) : e.Named s := by
  rw [shards, mem_dedup, mem_flatMap] at h
  obtain ⟨prover, hm, hs⟩ := h
  exact ⟨prover, (mem_filter.mp hm).1, mem_map.mp hs⟩

theorem allocatedIn_pos (h : 0 < e.activeIn s) (hs : 0 < s.length) : 0 < e.allocatedIn s := by
  obtain ⟨prover, hm⟩ := length_pos_iff_exists_mem.mp h
  obtain ⟨hcc, hact⟩ := mem_filter.mp hm
  obtain ⟨a, ha, hts⟩ := any_eq_true.mp hact
  simp only [Bool.and_eq_true, decide_eq_true_eq] at hts
  obtain ⟨hst, rfl⟩ := hts
  rw [← mem_shards, shards, mem_dedup, mem_flatMap]
  refine ⟨prover, mem_filter.mpr ⟨hcc, any_eq_true.mpr ⟨a, ha, ?_⟩⟩, mem_map_of_mem ha⟩
  simp [hst, hs]

theorem getShardCoverageMap_eq (h : ∀ s ∈ range, s.length ≤ 64) :
    e.getShardCoverageMap range = .ok (range.map fun s => (s, e.coverageOf s)) := by
  rw [getShardCoverageMap, mapM_ok_iff, map_map]
  exact map_congr_left fun s hs => if_neg (Nat.not_lt.mpr (h s hs))

/-! ### One shard -/

theorem getShardCoverage_ok_iff (hu : u.length ≤ 64) : (∃ c, e.getShardCoverage u = .ok c) ↔ e.Readable u := by
  unfold getShardCoverage Readable
  by_cases htr : e.shardTries u = 0
  · simp [htr]
  by_cases hlt : u.length < 64
  · simp [htr, hlt, hlt.ne]
  rw [if_neg htr, if_neg hlt, take_of_length_le hu]
  simp only [ne_eq, htr, not_false_eq_true, forall_const, show u.length = 64 by omega, true_and]
  split <;> simp_all

theorem findSiblingShards_ok (h : ∀ s ∈ range, 32 ≤ s.length ∧ s.length ≤ 64) :
    ∃ siblings, e.findSiblingShards range (s.take 32) s = .ok siblings ∧
      ∀ t, t ∈ siblings ↔ t ∈ range ∧ t ≠ s ∧ t.take 32 = s.take 32 := by
  rw [findSiblingShards, getShardCoverageMap_eq fun s hs => (h s hs).2]
  refine ⟨_, rfl, fun t => ?_⟩
  simp only [map_map, Function.comp_def, map_id', mem_filter, Bool.and_eq_true, decide_eq_true_eq]
  exact ⟨fun ⟨ht, ⟨hne, _⟩, htk⟩ => ⟨ht, hne, htk⟩, fun ⟨ht, hne, htk⟩ => ⟨ht, ⟨hne, (h t ht).1⟩, htk⟩⟩

theorem calculateRequiredStorage_ok_iff {shards : List Bytes} (h : ∀ u ∈ shards, u.length ≤ 64) :
    (∃ storage, e.calculateRequiredStorage shards = .ok storage) ↔ ∀ u ∈ shards, e.Readable u := by
  rw [forall₂_congr fun u hu => (getShardCoverage_ok_iff (h u hu)).symm, ← exists_mapM_ok, calculateRequiredStorage]
  cases shards.mapM e.getShardCoverage <;> simp [pure, Except.pure]

theorem handleLowCoverage_ok_iff (h : ∀ s ∈ range, 32 ≤ s.length ∧ s.length ≤ 64) (hs : s ∈ range) :
    (∃ ev, e.handleLowCoverage range s coverage = .ok ev) ↔
      (32 < s.length → ∀ t ∈ range, t ≠ s → t.take 32 = s.take 32 → e.Readable s ∧ e.Readable t) := by
  unfold handleLowCoverage
  by_cases h32 : s.length = 32
  · simp [h32, pure, Except.pure]
  obtain ⟨siblings, hfn, hm⟩ := findSiblingShards_ok (e := e) (s := s) h
  have hl : ∀ u ∈ s :: siblings, u.length ≤ 64 :=
    forall_mem_cons.mpr ⟨(h s hs).2, fun t ht => (h t ((hm t).mp ht).1).2⟩
  simp only [h32, if_false, hfn, ok_bind, lt_of_le_of_ne (h s hs).1 (Ne.symm h32), forall_const]
  refine ⟨fun ⟨ev, hev⟩ t ht hne htk => ?_, fun hrd => ?_⟩
  · have hsib := (hm t).mpr ⟨ht, hne, htk⟩
    rw [if_neg (by simpa using ne_nil_of_mem hsib), bind_eq_ok] at hev
    obtain ⟨_, -, hev⟩ := hev
    obtain ⟨storage, hsto, -⟩ := bind_eq_ok.mp hev
    have hall := (calculateRequiredStorage_ok_iff hl).mp ⟨storage, hsto⟩
    exact ⟨hall s mem_cons_self, hall t (mem_cons_of_mem _ hsib)⟩
  · cases siblings with
    | nil => exact ⟨_, rfl⟩
    | cons t siblings =>
      have hall : ∀ u ∈ s :: t :: siblings, e.Readable u := by
        have hof : ∀ u ∈ t :: siblings, e.Readable s ∧ e.Readable u := fun u hu =>
          hrd u ((hm u).mp hu).1 ((hm u).mp hu).2.1 ((hm u).mp hu).2.2
        exact forall_mem_cons.mpr ⟨(hof t mem_cons_self).1, fun u hu => (hof u hu).2⟩
      obtain ⟨coverages, hc⟩ := exists_mapM_ok.mpr fun u hu =>
        (getShardCoverage_ok_iff (e := e) (hl u (mem_cons_of_mem _ hu))).mpr (hall u (mem_cons_of_mem _ hu))
      obtain ⟨storage, hsto⟩ := (calculateRequiredStorage_ok_iff hl).mpr hall
      rw [hc, hsto]
      simp only [isEmpty_cons, Bool.false_eq_true, if_false, ok_bind]
      split <;> exact ⟨_, rfl⟩

theorem handleLowCoverage_ne_halt (data : CoverageEventData) :
    e.handleLowCoverage range s coverage ≠ .ok (.coverageHalt data) := by
  intro h
  simp only [handleLowCoverage, pure, pure] at h
  split at h
  · cases h
  obtain ⟨siblings, -, h⟩ := bind_eq_ok.mp h
  split at h
  · cases h
  obtain ⟨_, -, h⟩ := bind_eq_ok.mp h
  obtain ⟨_, -, h⟩ := bind_eq_ok.mp h
  split at h <;> cases h

theorem checkShard_ok_iff (hs : 32 ≤ s.length ∧ s.length ≤ 64) : (∃ events, e.checkShard range s coverage = .ok events) ↔
    (coverage.proverCount = 4 → ∃ ev, e.handleLowCoverage range s coverage = .ok ev) := by
  rw [checkShard, if_neg (by omega)]
  by_cases hhl : coverage.proverCount ≤ haltThreshold
  · have hne : coverage.proverCount ≠ 4 := by simp only [haltThreshold] at hhl; omega
    rw [if_pos hhl]
    split <;> simp [hne]
  by_cases hl : coverage.proverCount < minProvers
  · have h4 : coverage.proverCount = 4 := by simp only [haltThreshold, minProvers] at hhl hl; omega
    rw [if_neg hhl, if_pos hl]
    cases e.handleLowCoverage range s coverage <;> simp [h4, Except.map]
  · have hne : coverage.proverCount ≠ 4 := by simp only [minProvers] at hl; omega
    simp [hhl, hl, hne, Except.map]

theorem checkShard_halts_iff (hs : 32 ≤ s.length ∧ s.length ≤ 64) {events : List ControlEvent}
    (h : e.checkShard range s coverage = .ok events) : (∃ data, .coverageHalt data ∈ events ∧ data.shardAddress = t) ↔
      t = s ∧ coverage.proverCount ≤ haltThreshold ∧ e.isAddressBlacklisted s = false := by
  rw [checkShard, if_neg (by omega)] at h
  by_cases hhl : coverage.proverCount ≤ haltThreshold
  · rw [if_pos hhl] at h
    split at h <;> rename_i hbl <;> cases h <;> simp [hbl, hhl, eq_comm]
  have hhg : ∀ data, .coverageHalt data ∉ if maxProvers < coverage.proverCount then handleHighCoverage s coverage else [] := by
    unfold handleHighCoverage
    intro data
    split
    · split <;> simp
    · simp
  simp only [hhl, false_and, and_false, iff_false, not_exists, not_and]
  rintro data hm -
  rw [if_neg hhl] at h
  by_cases hl : coverage.proverCount < minProvers
  · rw [if_pos hl] at h
    cases hev : e.handleLowCoverage range s coverage with
    | error f => simp [hev, Except.map] at h
    | ok ev =>
      simp only [hev, Except.map, ok.injEq] at h
      rcases mem_append.mp (h ▸ hm) with hm | hm
      · exact handleLowCoverage_ne_halt data (hev.trans (congrArg _ (mem_singleton.mp hm).symm))
      · exact hhg data hm
  · simp only [hl, if_false, Except.map, nil_append, ok.injEq] at h
    exact hhg data (h ▸ hm)

/-! ### The whole check -/

section
variable {siblings : Bytes → List Bytes} (hsize : ∀ s, e.Named s → 32 ≤ s.length ∧ s.length ≤ 64)
  (hrange : range.Perm e.shards)
include hsize hrange

theorem checkShardCoverage_ok_iff {events : List ControlEvent} : e.checkShardCoverage range siblings = .ok events ↔
    ∃ rounds, (range.map fun s => (s, e.coverageOf s)).mapM
      (fun entry => e.checkShard (siblings entry.1) entry.1 entry.2) = .ok rounds ∧ rounds.flatten = events := by
  rw [checkShardCoverage, getShardCoverageMap_eq fun s hs => (hsize s (named_of_mem_shards (hrange.mem_iff.mp hs))).2,
    ok_bind, bind_eq_ok]
  simp [pure, Except.pure]

theorem runs_iff (hsb : ∀ s, (siblings s).Perm e.shards) :
    (∃ events, e.checkShardCoverage range siblings = .ok events) ↔ e.Mergeable := by
  have hrn : ∀ s ∈ range, ((∃ events, e.checkShard (siblings s) s (e.coverageOf s) = .ok events) ↔ (e.allocatedIn s = 4 →
      32 < s.length → ∀ t, 0 < e.allocatedIn t → t ≠ s → t.take 32 = s.take 32 → e.Readable s ∧ e.Readable t)) := by
    intro s hs
    have hs' := hrange.mem_iff.mp hs
    rw [checkShard_ok_iff (hsize s (named_of_mem_shards hs')), handleLowCoverage_ok_iff
      (fun u hu => hsize u (named_of_mem_shards ((hsb s).mem_iff.mp hu))) ((hsb s).mem_iff.mpr hs')]
    simp [coverageOf, length_shardProvers, (hsb s).mem_iff, mem_shards]
  simp only [checkShardCoverage_ok_iff hsize hrange]
  rw [exists_comm]
  simp only [exists_and_left, exists_eq', and_true, exists_mapM_ok, forall_mem_map]
  exact ⟨fun h s h4 => (hrn s (hrange.mem_iff.mpr (mem_shards.mpr (by omega)))).mp
    (h s (hrange.mem_iff.mpr (mem_shards.mpr (by omega)))) h4, fun h s hs => (hrn s hs).mpr (h s)⟩

theorem halts_iff {events : List ControlEvent} (h : e.checkShardCoverage range siblings = .ok events) :
    (∃ data, .coverageHalt data ∈ events ∧ data.shardAddress = s) ↔
      0 < e.allocatedIn s ∧ e.allocatedIn s ≤ haltThreshold ∧ e.isAddressBlacklisted s = false := by
  obtain ⟨rounds, hr, rfl⟩ := (checkShardCoverage_ok_iff hsize hrange).mp h
  have hhl : ∀ u ∈ range, ∀ events, e.checkShard (siblings u) u (e.coverageOf u) = .ok events →
      ((∃ data, .coverageHalt data ∈ events ∧ data.shardAddress = s) ↔
        s = u ∧ e.allocatedIn u ≤ haltThreshold ∧ e.isAddressBlacklisted u = false) := by
    intro u hu events hevs
    rw [checkShard_halts_iff (hsize u (named_of_mem_shards (hrange.mem_iff.mp hu))) hevs, coverageOf, length_shardProvers]
  have hm := mem_of_mapM_ok hr
  simp only [mem_map, exists_exists_and_eq_and] at hm
  rw [← mem_shards, ← hrange.mem_iff]
  constructor
  · rintro ⟨data, hdt, hs⟩
    obtain ⟨events, hevs, hdt⟩ := mem_flatten.mp hdt
    obtain ⟨u, hu, hrn⟩ := (hm events).mp hevs
    obtain ⟨rfl, hfew⟩ := (hhl u hu events hrn).mp ⟨data, hdt, hs⟩
    exact ⟨hu, hfew⟩
  · rintro ⟨hs, hfew⟩
    obtain ⟨events, hrn⟩ := exists_mapM_ok.mp ⟨rounds, hr⟩ _ (mem_map_of_mem hs)
    obtain ⟨data, hdt, had⟩ := (hhl s hs events hrn).mpr ⟨rfl, hfew⟩
    exact ⟨data, mem_flatten.mpr ⟨events, (hm events).mpr ⟨s, hs, hrn⟩, hdt⟩, had⟩

/-- **Halts are exact where the counts are and siblings can be read.** -/
theorem haltsExactly_iff (hsiblings : ∀ s, (siblings s).Perm e.shards) :
    e.HaltsExactly range siblings ↔ e.Mergeable ∧ e.Counted := by
  rw [HaltsExactly, ← runs_iff hsize hrange hsiblings]
  constructor
  · rintro ⟨events, hok, hec⟩
    refine ⟨⟨events, hok⟩, fun s hnm hbl => ?_⟩
    have hiff := (halts_iff hsize hrange hok).symm.trans (hec s)
    have hpos := allocatedIn_pos (e := e) (s := s)
    simp only [hnm, hbl, true_and, and_true] at hiff
    have := (hsize s hnm).1
    omega
  · rintro ⟨⟨events, hok⟩, hc⟩
    refine ⟨events, hok, fun s => ?_⟩
    rw [halts_iff hsize hrange hok]
    constructor
    · rintro ⟨hpos, hfew, hbl⟩
      have hnm := named_of_mem_shards (mem_shards.mpr hpos)
      exact ⟨hnm, hbl, (hc s hnm hbl).2.mp hfew⟩
    · rintro ⟨hnm, hbl, hfew⟩
      exact ⟨(hc s hnm hbl).1, (hc s hnm hbl).2.mpr hfew, hbl⟩

end

def oneProver (statuses : List ProverStatus) : Env where
  proverCache := [⟨[], [], .active, 0, statuses.map fun status =>
    ⟨status, List.replicate 32 1, [], 0, 0, 0, 0, 0, 0, 0, 0, 0, 0⟩, 0, 0, []⟩]
  shardTries _ := 0
  vertexData _ := none
  blacklistMap := []

theorem oneProver_named {statuses : List ProverStatus} (h : (oneProver statuses).Named s) : s = replicate 32 1 := by
  obtain ⟨prover, hprv, a, ha, rfl⟩ := h
  obtain rfl := mem_singleton.mp hprv
  obtain ⟨_, _, rfl⟩ := mem_map.mp ha
  rfl

theorem haltsExactly_one_active : (oneProver [.active]).HaltsExactly [replicate 32 1] fun _ => [replicate 32 1] := by
  refine (haltsExactly_iff (fun s hs => ?_) (by decide +kernel) fun _ => by decide +kernel).mpr
    ⟨fun s _ _ _ _ _ _ => ⟨absurd rfl, absurd rfl⟩, fun s hs _ => ?_⟩
  · rw [oneProver_named hs]
    decide
  · rw [oneProver_named hs]
    decide +kernel

/-- One active prover, whose paused allocations are counted as provers too. -/
theorem paused_allocations_counted : [replicate 32 1].Perm (oneProver [.active, .paused, .paused, .paused]).shards ∧
      ¬ (oneProver [.active, .paused, .paused, .paused]).HaltsExactly [replicate 32 1]
        fun _ => [replicate 32 1] := by
  refine ⟨by decide +kernel, fun ⟨events, hok, hec⟩ => ?_⟩
  have hhl := (hec (replicate 32 1)).mpr ⟨⟨_, mem_cons_self, _, mem_cons_self, rfl⟩, rfl, by decide +kernel⟩
  rw [halts_iff (fun s hs => by rw [oneProver_named hs]; decide) (by decide +kernel) hok] at hhl
  exact absurd hhl (by decide +kernel)

end Env
end Coverage
end Quilibrium
