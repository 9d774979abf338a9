import Quilibrium.Theorems.Provers

/-! The prover registry that follows state transitions, compared with the one that `Refresh` builds from the committed
    vertices. -/

namespace Quilibrium
open Function List Option
namespace Provers

open Registry

/-! ### Sequences of vertices -/

def Registry.Reading.isAllocation : Reading → Bool
  | .allocation _ _ => true
  | _ => false

def Registry.absorbAll (r : Registry) (readings : List (Bytes × Reading)) : Registry :=
  readings.foldl (fun r entry => r.absorb entry.1 entry.2) r

section AbsorbAll
variable {r : Registry} {address a : Bytes} {p : Pointer} {reading : Reading} {readings : List (Bytes × Reading)}
  {fields : ProverFields}

theorem absorbAll_append (l : List (Bytes × Reading)) :
    r.absorbAll (readings ++ l) = (r.absorbAll readings).absorbAll l := foldl_append

theorem absorbAll_cons (entry : Bytes × Reading) :
    r.absorbAll (entry :: readings) = (r.absorb entry.1 entry.2).absorbAll readings := rfl

theorem absorbAll_induct {P : Registry → Prop} (h : P r)
    (hst : ∀ entry ∈ readings, ∀ r, P r → P (r.absorb entry.1 entry.2)) : P (r.absorbAll readings) := by
  induction readings generalizing r with
  | nil => exact h
  | cons entry readings ih =>
    exact ih (hst entry mem_cons_self r h) fun e he => hst e (mem_cons_of_mem _ he)

theorem Sound.absorbAll (h : Sound r) (readings : List (Bytes × Reading)) : Sound (r.absorbAll readings) :=
  absorbAll_induct h fun entry _ _ h => h.absorb entry.2

theorem Sound.absorbAll_provers {P : (Bytes → Option ProverInfo) → Prop} (hsn : Sound r) (h : P r.view.provers)
    (hst : ∀ entry ∈ readings, ∀ provers, P provers → P (entry.2.apply entry.1 provers)) :
    P (r.absorbAll readings).view.provers := by
  refine (absorbAll_induct (P := fun r => Sound r ∧ P r.view.provers) ⟨hsn, h⟩ fun entry hen r hr => ?_).2
  refine ⟨hr.1.absorb entry.2, ?_⟩
  rw [hr.1.provers_absorb]
  exact hst entry hen _ hr.2

theorem absorbAll_comm {T : Registry → Registry} {P : Registry → Prop} (h : P r)
    (hkp : ∀ entry ∈ readings, ∀ r, P r → P (r.absorb entry.1 entry.2))
    (hcm : ∀ entry ∈ readings, ∀ r, P r → (T r).absorb entry.1 entry.2 = T (r.absorb entry.1 entry.2)) :
    (T r).absorbAll readings = T (r.absorbAll readings) := by
  induction readings generalizing r with
  | nil => rfl
  | cons entry readings ih =>
    rw [absorbAll_cons, absorbAll_cons, hcm entry mem_cons_self r h]
    exact ih (hkp entry mem_cons_self r h) (fun e he => hkp e (mem_cons_of_mem _ he))
      fun e he => hcm e (mem_cons_of_mem _ he)

theorem local_currentFrame (frameNumber : Nat) : Local address (fun r => { r with currentFrame := frameNumber }) where
  proverCache _ := rfl
  infos _ := rfl
  newInfo _ := rfl
  modifyInfo _ := rfl
  insertFiltered {r filter p a} _ := by
    have hls := @insertSorted_congr r { r with currentFrame := frameNumber } (fun _ => rfl) p a (r.filterCache filter)
    rw [insertFiltered, hls, insertFiltered]
  addProverToTrie {r a filter n} := by
    by_cases hfil : filter = []
    · simp [addProverToTrie, hfil]
    · simp [addProverToTrie, hfil]

theorem absorbAll_currentFrame (h : Sound r) (frameNumber : Nat) :
    { r with currentFrame := frameNumber }.absorbAll readings =
      { r.absorbAll readings with currentFrame := frameNumber } := by
  refine absorbAll_comm (T := fun r => { r with currentFrame := frameNumber }) h (fun entry _ r h => h.absorb _) ?_
  intro entry _ r h
  -- The frame number belongs to no prover, so any address that the vertex is not about will do.
  obtain ⟨address, hadr⟩ : ∃ address, entry.2.about entry.1 ≠ some address := by
    cases hab : entry.2.about entry.1 with
    | none => exact ⟨[], by simp⟩
    | some about => exact ⟨0 :: about, by simp⟩
  exact (local_currentFrame frameNumber).absorb h hadr

/-! ### A prover vertex that is replaced -/

theorem absorb_proverCache (h : r.proverCache address = some p) : (r.absorb a reading).proverCache address = some p := by
  have hnew : ∀ {b info}, r.proverCache b = none → (r.newInfo b info).proverCache address = some p := by
    rintro b info hb
    have hne : address ≠ b := by
      rintro rfl
      exact absurd (h.symm.trans hb) (some_ne_none _)
    exact (update_of_ne hne _ _).trans h
  cases reading with
  | skipped => exact h
  | prover pk fields =>
    rw [absorb, extractProver]
    cases hcd : r.proverCache a with
    | none => exact hnew hcd
    | some q => exact (congrFun extractKnown_keeps.1 address).trans h
  | allocation ref info =>
    have hens : (r.ensureProver ref).proverCache address = some p := by
      rcases @ensureProver_cases r ref with ⟨q, -, heq⟩ | ⟨hnc, heq⟩
      · rwa [heq]
      · rw [heq]
        exact hnew hnc
    rw [absorb, extractAllocation]
    cases (r.ensureProver ref).proverCache ref with
    | none => exact hens
    | some q => exact (congrFun addAllocation_keeps.1 address).trans hens

theorem absorb_update (h : Sound r) (hcd : r.proverCache address = some p) (ha : a ≠ address) :
    (r.modifyInfo p fields.update).absorb a reading = (r.absorb a reading).modifyInfo p fields.update := by
  obtain rfl := h.named hcd
  have hlc := @local_update p fields
  by_cases hab : reading.about a = some p.address
  · cases reading with
    | skipped => cases hab
    | prover pk fields => exact absurd (some.inj hab) ha
    | allocation ref info =>
      obtain rfl := some.inj hab
      rw [absorb, absorb, extractAllocation_cached hcd, extractAllocation_cached (r := r.modifyInfo p fields.update) hcd]
      refine hlc.addAllocation h ?_ fun r => ?_
      · simp [modifyInfo, ProverInfo.withAllocation, ProverFields.update]
      · simp [modifyInfo, ProverFields.update]
  · exact hlc.absorb h hab

theorem replaced_prover (h : Sound r) {pk : Bytes} {old : ProverFields}
    (hky : ∀ entry ∈ readings, entry.1 ≠ address) :
    ((r.absorb address (.prover pk fields)).absorbAll readings).view =
      ((r.absorb address (.prover pk old)).absorbAll readings).view.update address fields := by
  obtain ⟨p, hcd, heq⟩ : ∃ p, (r.absorb address (.prover pk old)).proverCache address = some p ∧
      r.absorb address (.prover pk fields) =
        (r.absorb address (.prover pk old)).modifyInfo p fields.update := by
    simp only [absorb, extractProver]
    cases hcd : r.proverCache address with
    | none =>
      refine ⟨⟨address, r.created address⟩, update_self .., ?_⟩
      simp [newInfo, modifyInfo, ProverFields.newInfo, ProverFields.update]
    | some p =>
      obtain rfl := h.named hcd
      refine ⟨p, (congrFun extractKnown_keeps.1 _).trans hcd, ?_⟩
      refine Eq.trans ?_ ((local_update fields).extractKnown (h.modifyInfo (fun _ => rfl) fun _ => id) hcd ?_)
      · simp [modifyInfo, ProverFields.update]
      · simp [modifyInfo, ProverFields.update]
  have hkp : ∀ entry ∈ readings, ∀ r, Sound r ∧ r.proverCache address = some p →
      Sound (r.absorb entry.1 entry.2) ∧ (r.absorb entry.1 entry.2).proverCache address = some p :=
    fun entry _ r hr => ⟨hr.1.absorb _, absorb_proverCache hr.2⟩
  have hst : Sound (r.absorb address (.prover pk old)) := h.absorb _
  obtain ⟨hsn, hls⟩ := absorbAll_induct ⟨hst, hcd⟩ hkp
  have hcm := absorbAll_comm (T := fun r => r.modifyInfo p fields.update) ⟨hst, hcd⟩ hkp
    fun entry hen r hr => absorb_update hr.1 hr.2 (hky entry hen)
  rw [heq, hcm, hsn.view_update hls]

/-! ### A prover vertex that is new -/

variable {provers : Bytes → Option ProverInfo}

theorem apply_of_about_ne (h : reading.about a ≠ some address) : reading.apply a provers address = provers address := by
  cases reading with
  | skipped => rfl
  | prover pk fields | allocation ref info =>
    exact update_of_ne (fun heq => h (congrArg some heq.symm)) _ _

theorem uncached_absorbAll (h : Sound r) (hnc : r.view.provers address = none)
    (hab : ∀ entry ∈ readings, entry.2.about entry.1 ≠ some address) :
    (r.absorbAll readings).view.provers address = none :=
  h.absorbAll_provers (P := fun provers => provers address = none) hnc
    fun entry hen _ hpr => (apply_of_about_ne (hab entry hen)).trans hpr

theorem new_prover (h : Sound r) (hnc : r.view.provers address = none) {pk : Bytes}
    (hab : ∀ entry ∈ readings, entry.2.about entry.1 ≠ some address) :
    ((r.absorb address (.prover pk fields)).absorbAll readings).view =
      (r.absorbAll readings).view.put address (some (fields.newInfo pk address)) := by
  have hnew : r.absorb address (.prover pk fields) = r.newInfo address (fields.newInfo pk address) := by
    rw [absorb, extractProver, map_eq_none_iff.mp hnc]
  have hlc : Local address fun r => r.newInfo address (fields.newInfo pk address) := local_newInfo rfl
  have hcm := absorbAll_comm (T := fun r => r.newInfo address (fields.newInfo pk address)) h
    (fun entry _ r h => h.absorb entry.2) fun entry hen r h => hlc.absorb h (hab entry hen)
  rw [hnew, hcm]
  exact (h.absorbAll readings).view_newInfo (map_eq_none_iff.mp (uncached_absorbAll h hnc hab))

/-! ### Provers that have allocations -/

def Allocated (address : Bytes) (provers : Bytes → Option ProverInfo) : Prop :=
  ∃ info, provers address = some info ∧ info.allocations ≠ []

theorem Allocated.apply (h : Allocated address provers) : Allocated address (reading.apply a provers) := by
  by_cases hab : reading.about a = some address
  · obtain ⟨info, hin, hal⟩ := h
    cases reading with
    | skipped => cases hab
    | prover pk fields =>
      obtain rfl := some.inj hab
      refine ⟨_, update_self .., ?_⟩
      rwa [hin]
    | allocation ref info =>
      obtain rfl := some.inj hab
      exact ⟨_, update_self .., by simp [ProverInfo.withAllocation]⟩
  · obtain ⟨info, hin, hal⟩ := h
    exact ⟨info, (apply_of_about_ne hab).trans hin, hal⟩

theorem allocated_of_about (h : reading.about a = some address)
    (ha : a ≠ address) : Allocated address (reading.apply a provers) := by
  cases reading with
  | skipped => cases h
  | prover pk fields => exact absurd (some.inj h) ha
  | allocation ref info =>
    obtain rfl := some.inj h
    exact ⟨_, update_self .., by simp [ProverInfo.withAllocation]⟩

theorem allocated_absorbAll (h : Sound r) (hky : ∀ entry ∈ readings, entry.1 ≠ address) {entry : Bytes × Reading}
    (hen : entry ∈ readings) (hab : entry.2.about entry.1 = some address) :
    Allocated address (r.absorbAll readings).view.provers := by
  obtain ⟨before, after, rfl⟩ := append_of_mem hen
  have hb := h.absorbAll before
  rw [absorbAll_append, absorbAll_cons]
  refine Sound.absorbAll_provers (hb.absorb entry.2) ?_ fun _ _ _ h => h.apply
  rw [hb.provers_absorb]
  exact allocated_of_about hab (hky entry hen)

theorem publicKey_apply (ha : a ≠ address) : ((reading.apply a provers address).getD (.blank address)).publicKey =
      ((provers address).getD (.blank address)).publicKey := by
  by_cases hab : reading.about a = some address
  · cases reading with
    | skipped => rfl
    | prover pk fields => exact absurd (some.inj hab) ha
    | allocation ref info =>
      obtain rfl := some.inj hab
      simp [Reading.apply, ProverInfo.withAllocation]
  · rw [apply_of_about_ne hab]

theorem publicKey_absorbAll (h : Sound r) (hky : ∀ entry ∈ readings, entry.1 ≠ address) :
    (((r.absorbAll readings).view.provers address).getD (.blank address)).publicKey =
      ((r.view.provers address).getD (.blank address)).publicKey :=
  h.absorbAll_provers (P := fun provers => ((provers address).getD (.blank address)).publicKey = _) rfl
    fun entry hen _ hpr => (publicKey_apply (hky entry hen)).trans hpr

theorem about_ne_of_not_allocated (h : Sound r) {before after : List (Bytes × Reading)}
    (hky : ∀ entry ∈ before ++ after, entry.1 ≠ address)
    (hnot : ¬Allocated address (((r.absorbAll before).absorb address reading).absorbAll after).view.provers) :
    ∀ entry ∈ before ++ after, entry.2.about entry.1 ≠ some address := by
  have hb := h.absorbAll before
  have hst : Sound ((r.absorbAll before).absorb address reading) := hb.absorb reading
  intro entry hen hab
  refine hnot ?_
  rcases mem_append.mp hen with hm | hm
  · refine hst.absorbAll_provers ?_ fun _ _ _ h => h.apply
    rw [hb.provers_absorb]
    exact (allocated_absorbAll h (fun e he => hky e (mem_append_left _ he)) hm hab).apply
  · exact allocated_absorbAll hst (fun e he => hky e (mem_append_right _ he)) hm hab

theorem View.put_none {view : View} (h : view.provers address = none) : view.put address none = view := by
  rw [View.put, update_eq_self_iff.mpr h.symm]

theorem forgotten_prover (h : Sound r) (hnc : r.view.provers address = none)
    (hab : ∀ entry ∈ readings, entry.2.about entry.1 ≠ some address) (hr : reading.isAllocation = false) :
    ((r.absorb address reading).absorbAll readings).view.put address none = (r.absorbAll readings).view := by
  have hls := uncached_absorbAll h hnc hab
  cases reading with
  | skipped => exact View.put_none hls
  | prover pk fields =>
    rw [new_prover h hnc hab]
    simp only [View.put, update_idem]
    exact View.put_none hls
  | allocation ref info => cases hr

end AbsorbAll

/-! ### Refresh -/

section Refresh
variable (typeHash : RdfClass → Bytes)

def VertexTree.Typed (t : VertexTree) : Prop :=
  t.getType typeHash = .ok .prover ∨ t.getType typeHash = .ok .allocation

def VertexTree.reading (t : VertexTree) : Reading := (readVertex typeHash t).toOption.getD .skipped

namespace Vertices

def Typed (v : Vertices) : Prop := ∀ entry ∈ v.data.entries, entry.2.Typed typeHash

def reading (v : Vertices) (address : Bytes) : Reading :=
  ((v.data.get address).map (VertexTree.reading typeHash)).getD .skipped

def readings (v : Vertices) : List (Bytes × Reading) :=
  v.data.entries.map fun entry => (entry.1, entry.2.reading typeHash)

def rebuilt (v : Vertices) (frameNumber : Nat) : Registry := (Registry.empty frameNumber).absorbAll (v.readings typeHash)

end Vertices

variable {typeHash} {v : Vertices} {t : VertexTree}

theorem VertexTree.Typed.readVertex_eq (h : t.Typed typeHash) : readVertex typeHash t = .ok (t.reading typeHash) := by
  rw [VertexTree.reading, readVertex]
  rcases h with h | h
  · rw [h]
    rfl
  · rw [h]
    rfl

theorem rebuilt_view (m n : Nat) : (v.rebuilt typeHash m).view = (v.rebuilt typeHash n).view := by
  have hem : empty m = { empty n with currentFrame := m } := rfl
  rw [Vertices.rebuilt, hem, absorbAll_currentFrame (Sound.empty n)]
  rfl

theorem iterator_eq (v : Vertices) :
    v.iterator = v.data.entries.map fun entry => (GLOBAL_INTRINSIC_ADDRESS ++ entry.1, some entry.2) := by
  refine map_congr_left fun entry _ => ?_
  have hnot : hypergraphVertexDataKey (GLOBAL_INTRINSIC_ADDRESS ++ entry.1) ∉
      v.removed.map (GLOBAL_INTRINSIC_ADDRESS ++ ·) := by
    simp [hypergraphVertexDataKey, GLOBAL_INTRINSIC_ADDRESS, HYPERGRAPH_SHARD]
  dsimp only
  rw [if_neg hnot]

theorem extractGlobalState_eq {entries : List (Bytes × VertexTree)} (h : ∀ entry ∈ entries, entry.2.Typed typeHash)
    (r : Registry) :
    r.extractGlobalState typeHash (entries.map fun entry => (GLOBAL_INTRINSIC_ADDRESS ++ entry.1, some entry.2)) =
      (r.absorbAll (entries.map fun entry => (entry.1, entry.2.reading typeHash)), none) := by
  induction entries generalizing r with
  | nil => rfl
  | cons entry entries ih =>
    have hread := (h entry mem_cons_self).readVertex_eq
    have hdp : (GLOBAL_INTRINSIC_ADDRESS ++ entry.1).drop 32 = entry.1 := drop_left' length_replicate
    simp only [map_cons, extractGlobalState, hread, hdp]
    exact ih (fun e he => h e (mem_cons_of_mem _ he)) _

theorem refresh_eq (h : v.Typed typeHash) (r : Registry) :
    r.refresh typeHash v = (v.rebuilt typeHash r.currentFrame, none) := by
  rw [refresh, iterator_eq]
  exact extractGlobalState_eq h _

variable (typeHash) in
theorem rebuilt_set (v : Vertices) (address : Bytes) (t : VertexTree) :
    ∃ before after : List (Bytes × Reading), (∀ entry ∈ before ++ after, entry.1 ≠ address) ∧ ∀ frameNumber,
      v.rebuilt typeHash frameNumber =
        (((empty frameNumber).absorbAll before).absorb address (v.reading typeHash address)).absorbAll after ∧
      Vertices.rebuilt typeHash { v with data := v.data.set address t } frameNumber =
        (((empty frameNumber).absorbAll before).absorb address (t.reading typeHash)).absorbAll after := by
  obtain ⟨l₁, l₂, hky, ho, hnew⟩ := v.data.entries_set address t
  let read := fun entry : Bytes × VertexTree => (entry.1, entry.2.reading typeHash)
  refine ⟨l₁.map read, l₂.map read, ?_, fun frameNumber => ⟨?_, ?_⟩⟩
  · rw [← map_append]
    intro _ hm
    obtain ⟨entry, hen, rfl⟩ := mem_map.mp hm
    exact hky entry hen
  · rw [Vertices.rebuilt, Vertices.readings, ho, Vertices.reading]
    cases v.data.get address with
    | none => simp [read, absorbAll_append, absorb]
    | some t => simp [read, absorbAll_append, absorbAll_cons]
  · rw [Vertices.rebuilt, Vertices.readings, hnew]
    simp [read, absorbAll_append, absorbAll_cons]

end Refresh

/-! ### Changes that the registry follows -/

/-- A vertex that the registry follows, by what is stored and cached before it. -/
inductive VertexFollowed (typeHash : RdfClass → Bytes) (frameNumber : Nat) (r : Registry) (v : Vertices)
    (address : Bytes) (data : VertexTree) : Prop
  /-- A vertex that both paths skip, where nothing was found before. -/
  | ignored : data.bytesField .prover "PublicKey" = [] ∨ data.firstByte .prover "Status" = none →
      data.reading typeHash = .skipped → v.reading typeHash address = .skipped → VertexFollowed ..
  /-- A prover that has left and had no allocation. -/
  | left : data.getType typeHash = .ok .prover → data.bytesField .prover "PublicKey" ≠ [] →
      data.firstByte .prover "Status" = some 4 → (v.reading typeHash address).isAllocation = false →
      (∀ info ∈ r.view.provers address, info.allocations = []) → VertexFollowed ..
  /-- A prover that is new or keeps its public key, and whose entry in the global trie is already the one of its status. -/
  | prover (byte : UInt8) (status : ProverStatus) : data.getType typeHash = .ok .prover →
      data.bytesField .prover "PublicKey" ≠ [] → data.firstByte .prover "Status" = some byte →
      proverStatus byte = some status → (v.reading typeHash address).isAllocation = false →
      (∀ info ∈ r.view.provers address, info.publicKey = data.bytesField .prover "PublicKey") →
      (status = .active → ∃ value, r.globalTrie address = some value ∧ value.latestFrame = frameNumber) →
      (status ≠ .active → r.globalTrie address = none) → VertexFollowed ..

/-- A change that the registry follows. The removal of a vertex that it knows as a prover is not one. -/
def Followed (typeHash : RdfClass → Bytes) (frameNumber : Nat) (r : Registry) (v : Vertices) (change : Change) : Prop :=
  change.domain = GLOBAL_INTRINSIC_ADDRESS → match change.stateChange, change.data with
    | .delete, _ => r.proverCache change.address = none
    | _, none => True
    | _, some data => VertexFollowed typeHash frameNumber r v change.address data

section Steps
variable {typeHash : RdfClass → Bytes} {frameNumber : Nat} {r : Registry} {v : Vertices} {address : Bytes}
  {data : VertexTree}

structure Mirrors (typeHash : RdfClass → Bytes) (r : Registry) (v : Vertices) : Prop where
  sound : Sound r
  view : ∀ frameNumber, r.view = (v.rebuilt typeHash frameNumber).view

theorem Sound.withFilters (h : Sound r) (filters : Bytes → Option (List Bytes)) :
    Sound { r with addressToFilters := filters } := ⟨h.addressed, h.named, h.linked, h.listed⟩

theorem addProverToTrie_same {value : FrecencyValue} (hvl : r.globalTrie address = some value)
    (hl : value.latestFrame = frameNumber) :
    ∃ filters, r.addProverToTrie address [] frameNumber = { r with addressToFilters := filters } := by
  have hsm : r.globalTrie.add address frameNumber = r.globalTrie := by
    rw [FrecencyTrie.add, hvl]
    subst hl
    exact update_eq_self_iff.mpr hvl.symm
  rw [addProverToTrie, if_pos rfl, hsm]
  exact ⟨_, rfl⟩

theorem removeProverFromTrie_none (hnn : r.globalTrie address = none) :
    ∃ filters, r.removeProverFromTrie address [] = { r with addressToFilters := filters } := by
  have hsm : r.globalTrie.remove address = r.globalTrie := update_eq_self_iff.mpr hnn.symm
  rw [removeProverFromTrie, if_pos rfl, hsm, untrackFilter]
  split
  · exact ⟨_, rfl⟩
  · exact ⟨_, rfl⟩

theorem not_allocated_iff {provers : Bytes → Option ProverInfo} :
    ¬Allocated address provers ↔ ∀ info ∈ provers address, info.allocations = [] := by
  simp [Allocated]

theorem not_allocated_of_none (h : r.view.provers address = none) : ¬Allocated address r.view.provers := by
  rintro ⟨info, hin, -⟩
  exact absurd (hin.symm.trans h) (some_ne_none _)

theorem Sound.removeProver (h : Sound r) (hnot : ¬Allocated address r.view.provers) :
    Sound (r.removeProver address) ∧ (r.removeProver address).view = r.view.put address none := by
  have hal : ∀ ptr, r.proverCache address = some ptr → (r.infos ptr).allocations = [] :=
    fun ptr hcd => not_allocated_iff.mp hnot _ (mem_map_of_mem r.infos hcd)
  have htr : r.globalTrie address = none := by
    by_contra hne
    obtain ⟨ptr, hcd, hsm⟩ := h.listed hne
    exact hsm (hal ptr hcd)
  have heq : ∃ filters, r.removeProver address =
      { r with proverCache := update r.proverCache address none, addressToFilters := filters } := by
    rw [Registry.removeProver]
    cases hcd : r.proverCache address with
    | none => exact ⟨_, rfl⟩
    | some ptr =>
      obtain ⟨filters, hr⟩ := removeProverFromTrie_none htr
      dsimp only
      rw [hal ptr hcd, foldl_nil, hr]
      exact ⟨_, rfl⟩
  obtain ⟨filters, heq⟩ := heq
  have hne : ∀ {p : Pointer}, r.proverCache p.address = some p → (r.infos p).allocations ≠ [] → p.address ≠ address := by
    rintro p hcd hsm rfl
    exact hsm (hal p hcd)
  rw [heq]
  constructor
  · refine ⟨h.addressed, fun {a p} hp => ?_, fun hl p hp => ?_, fun {a} ha => ?_⟩
    · by_cases ha : a = address
      · subst ha
        simp at hp
      · exact h.named ((update_of_ne ha _ _).symm.trans hp)
    · obtain ⟨hcd, hsm⟩ := h.linked hl p hp
      exact ⟨(update_of_ne (hne hcd hsm) _ _).trans hcd, hsm⟩
    · obtain ⟨p, hcd, hsm⟩ := h.listed ha
      obtain rfl := h.named hcd
      exact ⟨p, (update_of_ne (hne hcd hsm) _ _).trans hcd, hsm⟩
  · rw [View.mk.injEq]
    refine ⟨rfl, rfl, ?_, rfl⟩
    funext a
    by_cases ha : a = address
    · subst ha
      simp [view, View.put]
    · simp [view, View.put, update_of_ne ha]

/-! ### Vertices that are read -/

theorem rdfGet_of_bytesField (h : data.bytesField .prover "PublicKey" ≠ []) :
    data.rdfGet .prover "PublicKey" = some (data.bytesField .prover "PublicKey") := by
  rw [VertexTree.bytesField] at h ⊢
  cases hget : data.rdfGet .prover "PublicKey" with
  | none => exact absurd (hget ▸ rfl) h
  | some pk => rfl

theorem reading_prover {byte : UInt8} (hty : data.getType typeHash = .ok .prover)
    (hkey : data.bytesField .prover "PublicKey" ≠ []) (hby : data.firstByte .prover "Status" = some byte) :
    data.reading typeHash = (proverStatus byte).elim .skipped
      fun status => .prover (data.bytesField .prover "PublicKey") (data.proverFields status) := by
  rw [VertexTree.reading, readVertex, hty]
  dsimp only [Except.toOption, Option.getD]
  rw [readProver, rdfGet_of_bytesField hkey, hby]
  cases hst : proverStatus byte with
  | none => simp [hst]
  | some status => simp [hst]

theorem processVertex_prover {byte : UInt8} (hkey : data.bytesField .prover "PublicKey" ≠ [])
    (hbt : data.firstByte .prover "Status" = some byte) :
    r.processVertex address data frameNumber = (proverStatus byte).elim (r.removeProver address)
      fun status => r.updateProver address (data.bytesField .prover "PublicKey") (data.proverFields status) frameNumber := by
  rw [processVertex, rdfGet_of_bytesField hkey]
  cases hby : data.bytesField .prover "PublicKey" with
  | nil => exact absurd hby hkey
  | cons b bs =>
    rw [hbt]
    cases hst : proverStatus byte with
    | none => simp [hst]
    | some status => simp [hst]

theorem processVertex_ignored (h : data.bytesField .prover "PublicKey" = [] ∨ data.firstByte .prover "Status" = none) :
    r.processVertex address data frameNumber = r := by
  rw [processVertex]
  split
  · rename_i b bs hget
    rcases h with h | h
    · rw [VertexTree.bytesField, hget] at h
      cases h
    · rw [h]
  · rfl

/-! ### One change -/

theorem Mirrors.removeProver (h : Mirrors typeHash r v) (hread : data.reading typeHash = .skipped)
    (ho : (v.reading typeHash address).isAllocation = false) (hnot : ¬Allocated address r.view.provers) :
    Mirrors typeHash (r.removeProver address) { v with data := v.data.set address data } := by
  obtain ⟨before, after, hky, hr⟩ := rebuilt_set typeHash v address data
  obtain ⟨hsn, hvw⟩ := h.sound.removeProver hnot
  refine ⟨hsn, fun n => ?_⟩
  obtain ⟨hb, haf⟩ := hr n
  rw [h.view n, hb] at hnot
  have hab := about_ne_of_not_allocated (Sound.empty n) hky hnot
  have hnc := uncached_absorbAll (Sound.empty n) rfl fun e he => hab e (mem_append_left _ he)
  rw [hvw, h.view n, hb, haf, hread]
  exact forgotten_prover ((Sound.empty n).absorbAll before) hnc
    (fun e he => hab e (mem_append_right _ he)) ho

variable {pk : Bytes} {fields : ProverFields}

section
variable (h : Mirrors typeHash r v)
include h

section
variable (hread : data.reading typeHash = .prover pk fields)
include hread

theorem Mirrors.newProver (hcd : r.proverCache address = none)
    (ho : (v.reading typeHash address).isAllocation = false) :
    Mirrors typeHash (r.newInfo address (fields.newInfo pk address))
      { v with data := v.data.set address data } := by
  obtain ⟨before, after, hky, hr⟩ := rebuilt_set typeHash v address data
  refine ⟨h.sound.newInfo hcd rfl, fun n => ?_⟩
  obtain ⟨hb, haf⟩ := hr n
  have hnn : r.view.provers address = none := map_eq_none_iff.mpr hcd
  have hnot := not_allocated_of_none hnn
  rw [h.view n, hb] at hnot
  have hab := about_ne_of_not_allocated (Sound.empty n) hky hnot
  have hsn := (Sound.empty n).absorbAll before
  have hnc := uncached_absorbAll (Sound.empty n) rfl fun e he => hab e (mem_append_left _ he)
  have habo : ∀ e ∈ after, e.2.about e.1 ≠ some address := fun e he => hab e (mem_append_right _ he)
  have hsm : r.view = (((empty n).absorbAll before).absorbAll after).view := by
    rw [← View.put_none hnn, h.view n, hb]
    exact forgotten_prover hsn hnc habo ho
  rw [h.sound.view_newInfo hcd, haf, hread, new_prover hsn hnc habo, hsm]

theorem Mirrors.knownProver {ptr : Pointer} (hnon : pk ≠ [])
    (hcd : r.proverCache address = some ptr) (hkey : (r.infos ptr).publicKey = pk)
    (ho : (v.reading typeHash address).isAllocation = false) :
    Mirrors typeHash (r.modifyInfo ptr fields.update) { v with data := v.data.set address data } := by
  obtain ⟨before, after, hky, hr⟩ := rebuilt_set typeHash v address data
  refine ⟨h.sound.modifyInfo (fun _ => rfl) fun _ => id, fun n => ?_⟩
  obtain ⟨hb, haf⟩ := hr n
  have hsn := (Sound.empty n).absorbAll before
  have hin : r.view.provers address = some (r.infos ptr) := by simp [Registry.view, hcd]
  have hv : Sound (((empty n).absorbAll before).absorb address (v.reading typeHash address)) := hsn.absorb _
  have hls := publicKey_absorbAll hv fun e he => hky e (mem_append_right before he)
  rw [← hb, ← h.view n, hin, getD_some, hkey, hsn.provers_absorb] at hls
  rw [h.sound.view_update hcd, h.view n, hb, haf, hread]
  cases hpr : v.reading typeHash address with
  | skipped =>
    have hfr := publicKey_absorbAll (Sound.empty n) fun e he => hky e (mem_append_left after he)
    rw [hpr, Reading.apply, hfr] at hls
    exact absurd hls hnon
  | prover oldKey oldFields =>
    obtain rfl : pk = oldKey := by simpa [hpr, Reading.apply, ProverFields.update] using hls
    exact (replaced_prover hsn fun e he => hky e (mem_append_right _ he)).symm
  | allocation ref info =>
    rw [hpr] at ho
    cases ho

theorem Mirrors.upsertProver (hnon : pk ≠ []) (ho : (v.reading typeHash address).isAllocation = false)
    (hkey : ∀ info ∈ r.view.provers address, info.publicKey = pk) :
    Mirrors typeHash (r.upsertProver address pk fields) { v with data := v.data.set address data } := by
  rw [Registry.upsertProver]
  cases hcd : r.proverCache address with
  | none => exact h.newProver hread hcd ho
  | some ptr => exact h.knownProver hread hnon hcd (hkey _ (mem_map_of_mem r.infos hcd)) ho

end

theorem Mirrors.withFilters (filters : Bytes → Option (List Bytes)) :
    Mirrors typeHash { r with addressToFilters := filters } v := ⟨h.sound.withFilters filters, h.view⟩

theorem Mirrors.processVertex (hfl : VertexFollowed typeHash frameNumber r v address data) :
    Mirrors typeHash (r.processVertex address data frameNumber) { v with data := v.data.set address data } := by
  cases hfl with
  | ignored hsk hread ho =>
    obtain ⟨before, after, -, hr⟩ := rebuilt_set typeHash v address data
    rw [processVertex_ignored hsk]
    refine ⟨h.sound, fun n => ?_⟩
    rw [h.view n, (hr n).1, (hr n).2, hread, ho]
  | left hty hkey hby ho hal =>
    rw [processVertex_prover hkey hby]
    exact h.removeProver (reading_prover hty hkey hby) ho (not_allocated_iff.mpr hal)
  | prover byte status hty hkey hby hst ho hsm hact hina =>
    have hread := reading_prover hty hkey hby
    rw [hst] at hread
    have hu := h.upsertProver hread hkey ho hsm
    have htr : (r.upsertProver address (data.bytesField .prover "PublicKey") (data.proverFields status)).globalTrie =
        r.globalTrie := by
      rw [Registry.upsertProver]
      split <;> rfl
    rw [processVertex_prover hkey hby, hst, elim_some, updateProver]
    split
    · rename_i hst
      obtain ⟨value, hvl, hl⟩ := hact hst
      obtain ⟨filters, heq⟩ := addProverToTrie_same (htr ▸ hvl) hl
      rw [heq]
      exact hu.withFilters filters
    · rename_i hst
      obtain ⟨filters, heq⟩ := removeProverFromTrie_none (htr ▸ hina hst)
      rw [heq]
      exact hu.withFilters filters

theorem Mirrors.delete (hnc : r.proverCache address = none) :
    Mirrors typeHash (r.removeProver address) { v with removed := address :: v.removed } := by
  have hnn : r.view.provers address = none := map_eq_none_iff.mpr hnc
  obtain ⟨hsn, hvw⟩ := h.sound.removeProver (not_allocated_of_none hnn)
  refine ⟨hsn, fun n => ?_⟩
  rw [hvw, View.put_none hnn]
  exact h.view n

theorem Mirrors.processChange {change : Change} (hfl : Followed typeHash frameNumber r v change) :
    Mirrors typeHash (r.processChange frameNumber change) (v.commit change) := by
  obtain ⟨domain, address, stateChange, data⟩ := change
  rw [Registry.processChange, Vertices.commit]
  by_cases hd : domain = GLOBAL_INTRINSIC_ADDRESS
  · have hl : domain.length = 32 := hd ▸ length_replicate
    have hfl := hfl hd
    rw [if_pos ⟨hl, hd⟩, if_pos hd, processProverChange]
    cases stateChange with
    | delete => exact h.delete hfl
    | create | update =>
      cases data with
      | none => exact h
      | some data => exact h.processVertex hfl
  · rw [if_neg hd, if_neg fun hand => hd hand.2]
    exact h

end

end Steps

/-! ### Runs -/

structure Transition where
  frameNumber : Nat
  changes : List Change

/-- The registry processes a transition, and its changes are committed. -/
def transit (s : Registry × Vertices) (t : Transition) : Registry × Vertices :=
  (s.1.processStateTransition t.changes t.frameNumber, t.changes.foldl Vertices.commit s.2)

/-- The registry follows each change from the state that the changes before it have left. -/
def ChangesFollowed (typeHash : RdfClass → Bytes) (frameNumber : Nat) : Registry × Vertices → List Change → Prop
  | _, [] => True
  | s, change :: changes =>
    Followed typeHash frameNumber s.1 s.2 change ∧
      ChangesFollowed typeHash frameNumber (s.1.processChange frameNumber change, s.2.commit change) changes

def TransitionsFollowed (typeHash : RdfClass → Bytes) : Registry × Vertices → List Transition → Prop
  | _, [] => True
  | s, t :: ts =>
    ChangesFollowed typeHash t.frameNumber ({ s.1 with currentFrame := t.frameNumber }, s.2) t.changes ∧
      TransitionsFollowed typeHash (transit s t) ts

/-- A change of a prover or an allocation, or of nothing under the global address. -/
def Registry.Change.Typed (typeHash : RdfClass → Bytes) (change : Change) : Prop :=
  change.domain = GLOBAL_INTRINSIC_ADDRESS → ∀ data ∈ change.data, data.Typed typeHash

section Runs
variable {typeHash : RdfClass → Bytes} {r : Registry} {v : Vertices}

theorem typed_set {address : Bytes} {data : VertexTree} (h : v.Typed typeHash) (hdt : data.Typed typeHash) :
    Vertices.Typed typeHash { v with data := v.data.set address data } := by
  intro entry hen
  rcases OrdMap.mem_insertEntry hen with rfl | ho
  · exact hdt
  · exact h entry ho

theorem typed_commit {change : Change} (h : v.Typed typeHash) (hc : change.Typed typeHash) :
    (v.commit change).Typed typeHash := by
  obtain ⟨domain, address, stateChange, data⟩ := change
  rw [Vertices.commit]
  by_cases hd : domain = GLOBAL_INTRINSIC_ADDRESS
  · rw [if_pos hd]
    cases data with
    | none => cases stateChange <;> exact h
    | some data =>
      have hdt := hc hd data rfl
      cases stateChange with
      | delete => exact h
      | create | update => exact typed_set h hdt
  · rwa [if_neg hd]

theorem Mirrors.changes (h : Mirrors typeHash r v) {frameNumber : Nat} {changes : List Change}
    (hfl : ChangesFollowed typeHash frameNumber (r, v) changes) :
    Mirrors typeHash (changes.foldl (Registry.processChange frameNumber) r) (changes.foldl Vertices.commit v) := by
  induction changes generalizing r v with
  | nil => exact h
  | cons change changes ih => exact ih (h.processChange hfl.1) hfl.2

theorem Mirrors.run {s : Registry × Vertices} (h : Mirrors typeHash s.1 s.2) {ts : List Transition}
    (hfl : TransitionsFollowed typeHash s ts) : Mirrors typeHash (ts.foldl transit s).1 (ts.foldl transit s).2 := by
  induction ts generalizing s with
  | nil => exact h
  | cons t ts ih =>
    have hfr : Mirrors typeHash { s.1 with currentFrame := t.frameNumber } s.2 :=
      ⟨⟨h.sound.addressed, h.sound.named, h.sound.linked, h.sound.listed⟩, h.view⟩
    exact ih (hfr.changes hfl.1) hfl.2

theorem typed_run {s : Registry × Vertices} {ts : List Transition} (h : s.2.Typed typeHash)
    (hch : ∀ t ∈ ts, ∀ change ∈ t.changes, change.Typed typeHash) : (ts.foldl transit s).2.Typed typeHash := by
  have hfl : ∀ (changes : List Change) (v : Vertices), v.Typed typeHash →
      (∀ change ∈ changes, change.Typed typeHash) → (changes.foldl Vertices.commit v).Typed typeHash := by
    intro changes
    induction changes with
    | nil => exact fun _ h _ => h
    | cons change changes ih =>
      intro v h hch
      exact ih _ (typed_commit h (hch change mem_cons_self)) fun c hc => hch c (mem_cons_of_mem _ hc)
  induction ts generalizing s with
  | nil => exact h
  | cons t ts ih =>
    exact ih (hfl t.changes s.2 h (hch t mem_cons_self)) fun t ht => hch t (mem_cons_of_mem _ ht)

def started (typeHash : RdfClass → Bytes) (v : Vertices) (frameNumber : Nat) : Registry × Vertices :=
  (((Registry.empty frameNumber).refresh typeHash v).1, v)

end Runs

/-! ### Sample runs -/

def sampleHash : RdfClass → Bytes
  | .prover => [0]
  | .allocation => [1]
  | .reward => [2]

def sampleTree (fields : List (Bytes × Bytes)) : VectorCommitmentTree :=
  fields.foldl (fun tree field => ((tree.insert ⟨field.1, field.2, [], 1⟩).toOption.map Prod.fst).getD tree) .empty

def sampleProver (status : UInt8) (h : ∀ key ∈ schemaKeys,
    ((sampleTree [(typeKey, [0]), ([0], [1]), ([4], [status])]).get key).isOk) : VertexTree := ⟨_, h⟩

def joiningProver : VertexTree := sampleProver 0 (by decide +kernel)

def pausedProver : VertexTree := sampleProver 2 (by decide +kernel)

/-- An active allocation of the prover at the address 7, with a filter. -/
def activeAllocation : VertexTree where
  tree := sampleTree [(typeKey, [1]), ([0], [7]), ([4], [1]), ([8], [5])]
  readable := by decide +kernel

def sampleChange (address : Bytes) (stateChange : StateChangeEvent) (data : VertexTree) : Change :=
  ⟨GLOBAL_INTRINSIC_ADDRESS, address, stateChange, some data⟩

def pausingRun : List Transition :=
  [⟨1, [sampleChange [7] .create joiningProver]⟩, ⟨2, [sampleChange [7] .update pausedProver]⟩]

def allocatingRun : List Transition :=
  [⟨1, [sampleChange [7] .create joiningProver, sampleChange [8] .create activeAllocation]⟩]

def noVertices : Vertices := ⟨.empty, []⟩

/-! ### The registry against its refresh -/

/-- A registry that was refreshed from typed vertices and follows every change of its transitions holds what `Refresh`
    gives again. -/
theorem incremental_eq_rebuilt (typeHash : RdfClass → Bytes) (start : Vertices) (hstart : start.Typed typeHash) (frameNumber : Nat)
    (ts : List Transition) (hchanges : ∀ t ∈ ts, ∀ change ∈ t.changes, change.Typed typeHash)
    (hfollowed : TransitionsFollowed typeHash (started typeHash start frameNumber) ts) :
    ∃ r', (ts.foldl transit (started typeHash start frameNumber)).1.refresh typeHash
        (ts.foldl transit (started typeHash start frameNumber)).2 = (r', none) ∧
      r'.view = (ts.foldl transit (started typeHash start frameNumber)).1.view := by
  have hr := refresh_eq hstart (empty frameNumber)
  have hm : Mirrors typeHash (started typeHash start frameNumber).1 (started typeHash start frameNumber).2 := by
    rw [started, hr]
    exact ⟨(Sound.empty _).absorbAll _, fun n => rebuilt_view _ n⟩
  have hty : (ts.foldl transit (started typeHash start frameNumber)).2.Typed typeHash := typed_run hstart hchanges
  exact ⟨_, refresh_eq hty _, ((hm.run hfollowed).view _).symm⟩

theorem pausing_followed : TransitionsFollowed sampleHash (started sampleHash noVertices 0) pausingRun := by
  refine ⟨⟨fun _ => ?_, trivial⟩, ⟨fun _ => ?_, trivial⟩, trivial⟩
  · refine .prover 0 .joining rfl (by decide +kernel) (by decide +kernel) rfl (by decide +kernel) (by decide +kernel) ?_ ?_
    · exact fun h => absurd h (by decide)
    · exact fun _ => by decide +kernel
  · refine .prover 2 .paused rfl (by decide +kernel) (by decide +kernel) rfl (by decide +kernel) (by decide +kernel) ?_ ?_
    · exact fun h => absurd h (by decide)
    · exact fun _ => by decide +kernel

theorem sampleChange_typed {address : Bytes} {stateChange : StateChangeEvent} {data : VertexTree}
    (h : data.Typed sampleHash) : (sampleChange address stateChange data).Typed sampleHash :=
  fun _ _ hdt => some.inj hdt ▸ h

theorem incremental_eq_rebuilt_pausing :
    ∃ r', (pausingRun.foldl transit (started sampleHash noVertices 0)).1.refresh sampleHash
        (pausingRun.foldl transit (started sampleHash noVertices 0)).2 = (r', none) ∧
      r'.view = (pausingRun.foldl transit (started sampleHash noVertices 0)).1.view := by
  refine incremental_eq_rebuilt sampleHash noVertices nofun 0 pausingRun ?_ pausing_followed
  simp only [pausingRun, forall_mem_cons, not_mem_nil, false_imp_iff, implies_true, and_true]
  exact ⟨sampleChange_typed (.inl rfl), sampleChange_typed (.inl rfl)⟩

/-- The vertex of an allocation becomes a prover of its own, and its filter stays unknown. -/
theorem allocation_taken_for_prover : (∀ t ∈ allocatingRun, ∀ change ∈ t.changes, change.Typed sampleHash) ∧
      ((allocatingRun.foldl transit (started sampleHash noVertices 0)).1.refresh sampleHash
        (allocatingRun.foldl transit (started sampleHash noVertices 0)).2).1.view ≠
        (allocatingRun.foldl transit (started sampleHash noVertices 0)).1.view := by
  constructor
  · simp only [allocatingRun, forall_mem_cons, not_mem_nil, false_imp_iff, implies_true, and_true]
    exact ⟨sampleChange_typed (.inl rfl), sampleChange_typed (.inr rfl)⟩
  · intro heq
    have hpr := congrArg (fun view => (view.provers [8]).isSome) heq
    revert hpr
    decide +kernel

end Provers
end Quilibrium
