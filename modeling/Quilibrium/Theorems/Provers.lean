import Quilibrium.Consensus.Provers

/-! The prover registry that follows the changes one by one, compared with the one that is rebuilt from the committed
    vertices. -/

namespace Quilibrium
open Function List Option
namespace Provers

open Registry

/-! ### Views -/

/-- What the registry holds, without its pointers. -/
structure View where
  globalTrie : FrecencyTrie
  shardTries : Bytes → Option FrecencyTrie
  provers : Bytes → Option ProverInfo
  filtered : Bytes → Option (List ProverInfo)

def Registry.view (r : Registry) : View where
  globalTrie := r.globalTrie
  shardTries := r.shardTries
  provers address := (r.proverCache address).map r.infos
  filtered filter := (r.filterCache filter).map (List.map r.infos)

namespace View

def update (v : View) (address : Bytes) (fields : ProverFields) : View where
  globalTrie := v.globalTrie
  shardTries := v.shardTries
  provers := Function.update v.provers address ((v.provers address).map fields.update)
  filtered filter := (v.filtered filter).map (List.map fun info => if info.address = address then fields.update info else info)

def put (v : View) (address : Bytes) (info : Option ProverInfo) : View :=
  { v with provers := Function.update v.provers address info }

end View

/-- Pointers lead to infos of their address. The filter caches hold pointers of the cache; they and the global trie
    hold provers with allocations only. -/
structure Sound (r : Registry) : Prop where
  addressed : ∀ pointer, (r.infos pointer).address = pointer.address
  named : ∀ {address pointer}, r.proverCache address = some pointer → pointer.address = address
  linked : ∀ {filter list}, r.filterCache filter = some list → ∀ pointer ∈ list,
    r.proverCache pointer.address = some pointer ∧ (r.infos pointer).allocations ≠ []
  listed : ∀ {address}, r.globalTrie address ≠ none →
    ∃ pointer, r.proverCache address = some pointer ∧ (r.infos pointer).allocations ≠ []

section Updates
variable {r : Registry} {address : Bytes} {pointer : Pointer} {fields : ProverFields} {info : ProverInfo}

theorem Sound.pointer_eq_iff (h : Sound r) (hcd : r.proverCache address = some pointer) {p : Pointer}
    (hp : r.proverCache p.address = some p) : (r.infos p).address = address ↔ p = pointer := by
  rw [h.addressed]
  constructor
  · rintro rfl
    exact some.inj (hp.symm.trans hcd)
  · rintro rfl
    exact h.named hcd

theorem Sound.provers_modifyInfo (h : Sound r) (hcd : r.proverCache address = some pointer)
    (f : ProverInfo → ProverInfo) : (r.modifyInfo pointer f).view.provers =
      update r.view.provers address ((r.view.provers address).map f) := by
  funext a
  by_cases ha : a = address
  · subst ha
    simp [view, modifyInfo, hcd]
  · simp only [view, modifyInfo, update_of_ne ha]
    cases hp : r.proverCache a with
    | none => rfl
    | some p =>
      have hne : p ≠ pointer := by
        rintro rfl
        exact ha ((h.named hp).symm.trans (h.named hcd))
      simp [update_of_ne hne]

theorem Sound.view_update (h : Sound r) (hcd : r.proverCache address = some pointer) :
    (r.modifyInfo pointer fields.update).view = r.view.update address fields := by
  have hfil : (r.modifyInfo pointer fields.update).view.filtered = (r.view.update address fields).filtered := by
    funext f
    simp only [view, View.update, modifyInfo]
    cases hls : r.filterCache f with
    | none => rfl
    | some list =>
      simp only [map_some, List.map_map, some.injEq]
      refine map_congr_left fun p hp => ?_
      have hiff := h.pointer_eq_iff hcd (h.linked hls p hp).1
      by_cases heq : p = pointer
      · subst heq
        simp [hiff.mpr rfl]
      · simp [update_of_ne heq, mt hiff.mp heq]
  rw [View.mk.injEq]
  exact ⟨rfl, rfl, h.provers_modifyInfo hcd _, hfil⟩

theorem Sound.view_newInfo (h : Sound r) (hnc : r.proverCache address = none) :
    (r.newInfo address info).view = r.view.put address (some info) := by
  have hne : ∀ {a p}, r.proverCache a = some p → p ≠ ⟨address, r.created address⟩ := by
    rintro a p hp rfl
    obtain rfl := h.named hp
    exact absurd (hp.symm.trans hnc) (some_ne_none _)
  have hpr : (r.newInfo address info).view.provers = (r.view.put address (some info)).provers := by
    funext a
    by_cases ha : a = address
    · subst ha
      simp [view, View.put, newInfo]
    · simp only [view, View.put, newInfo, update_of_ne ha]
      cases hp : r.proverCache a with
      | none => rfl
      | some p => simp [update_of_ne (hne hp)]
  have hfil : (r.newInfo address info).view.filtered = r.view.filtered := by
    funext f
    simp only [view, newInfo]
    cases hls : r.filterCache f with
    | none => rfl
    | some list =>
      simp only [map_some, some.injEq]
      exact map_congr_left fun p hp => update_of_ne (hne (h.linked hls p hp).1) _ _
  rw [View.mk.injEq]
  exact ⟨rfl, rfl, hpr, hfil⟩

/-! ### Steps that keep a registry sound -/

theorem Sound.empty (frameNumber : Nat) : Sound (empty frameNumber) :=
  ⟨fun _ => rfl, nofun, nofun, fun h => absurd rfl h⟩

theorem Sound.newInfo (h : Sound r) (hnc : r.proverCache address = none) (hin : info.address = address) :
    Sound (r.newInfo address info) := by
  have hne : ∀ {p : Pointer}, r.proverCache p.address = some p → p ≠ ⟨address, r.created address⟩ := by
    rintro p hp rfl
    exact absurd (hp.symm.trans hnc) (some_ne_none _)
  have hkp : ∀ {p : Pointer}, r.proverCache p.address = some p →
      (r.newInfo address info).proverCache p.address = some p ∧ (r.newInfo address info).infos p = r.infos p := by
    intro p hp
    have ha : p.address ≠ address := fun heq => absurd ((heq ▸ hp).symm.trans hnc) (some_ne_none _)
    exact ⟨(update_of_ne ha _ _).trans hp, update_of_ne (hne hp) _ _⟩
  refine ⟨fun p => ?_, fun {a p} hp => ?_, fun {f l} hl p hp => ?_, fun {a} ha => ?_⟩
  · by_cases hp : p = ⟨address, r.created address⟩
    · subst hp
      simpa [Registry.newInfo] using hin
    · simpa [Registry.newInfo, update_of_ne hp] using h.addressed p
  · by_cases ha : a = address
    · subst ha
      simp only [newInfo, update_self, some.injEq] at hp
      exact hp ▸ rfl
    · simp only [Registry.newInfo, update_of_ne ha] at hp
      exact h.named hp
  · obtain ⟨hcd, hal⟩ := h.linked hl p hp
    exact ⟨(hkp hcd).1, (hkp hcd).2 ▸ hal⟩
  · obtain ⟨p, hp, hal⟩ := h.listed ha
    obtain rfl := h.named hp
    exact ⟨p, (hkp hp).1, (hkp hp).2 ▸ hal⟩

theorem Sound.modifyInfo (h : Sound r) {f : ProverInfo → ProverInfo} (hadr : ∀ info, (f info).address = info.address)
    (hal : ∀ info, info.allocations ≠ [] → (f info).allocations ≠ []) : Sound (r.modifyInfo pointer f) := by
  have hkp : ∀ p, (r.infos p).allocations ≠ [] → ((r.modifyInfo pointer f).infos p).allocations ≠ [] := by
    intro p hp
    by_cases heq : p = pointer
    · subst heq
      simpa [modifyInfo] using hal _ hp
    · simpa [Registry.modifyInfo, update_of_ne heq] using hp
  refine ⟨fun p => ?_, fun hp => h.named hp, fun hl p hp => ?_, fun ha => ?_⟩
  · by_cases heq : p = pointer
    · subst heq
      simp [modifyInfo, hadr, h.addressed]
    · simp [Registry.modifyInfo, update_of_ne heq, h.addressed]
  · exact (h.linked hl p hp).imp_right (hkp p)
  · exact (h.listed ha).imp fun p hp => hp.imp_right (hkp p)

end Updates

section Tries
variable {r : Registry} {address filter : Bytes} {frameNumber : Nat} {pointer : Pointer}

@[simp] theorem addProverToTrie_proverCache :
    (r.addProverToTrie address filter frameNumber).proverCache = r.proverCache := by
  rw [addProverToTrie]
  split <;> rfl

@[simp] theorem addProverToTrie_infos : (r.addProverToTrie address filter frameNumber).infos = r.infos := by
  rw [addProverToTrie]
  split <;> rfl

@[simp] theorem addProverToTrie_filterCache :
    (r.addProverToTrie address filter frameNumber).filterCache = r.filterCache := by
  rw [addProverToTrie]
  split <;> rfl

theorem addProverToTrie_globalTrie {a : Bytes} (h : (r.addProverToTrie address filter frameNumber).globalTrie a ≠ none) :
    a = address ∨ r.globalTrie a ≠ none := by
  by_cases ha : a = address
  · exact .inl ha
  · refine .inr ?_
    rw [addProverToTrie] at h
    split at h
    · simpa [FrecencyTrie.add, update_of_ne ha] using h
    · exact h

theorem Sound.addProverToTrie (h : Sound r) (hcd : r.proverCache address = some pointer)
    (hal : (r.infos pointer).allocations ≠ []) : Sound (r.addProverToTrie address filter frameNumber) := by
  refine ⟨fun p => ?_, fun hp => ?_, fun hl p hp => ?_, fun {a} ha => ?_⟩
  · rw [addProverToTrie_infos]
    exact h.addressed p
  · rw [addProverToTrie_proverCache] at hp
    exact h.named hp
  · rw [addProverToTrie_proverCache, addProverToTrie_infos]
    rw [addProverToTrie_filterCache] at hl
    exact h.linked hl p hp
  · rw [addProverToTrie_proverCache, addProverToTrie_infos]
    rcases addProverToTrie_globalTrie ha with rfl | ha
    · exact ⟨pointer, hcd, hal⟩
    · exact h.listed ha

theorem mem_insertSorted {list : Option (List Pointer)} {p : Pointer} (hp : p ∈ r.insertSorted pointer address list) :
    p = pointer ∨ ∃ l, list = some l ∧ p ∈ l := by
  cases list with
  | none => exact .inl (mem_singleton.mp hp)
  | some l =>
    rw [insertSorted, mem_append, mem_cons] at hp
    rcases hp with hp | rfl | hp
    · exact .inr ⟨l, rfl, (takeWhile_sublist _).mem hp⟩
    · exact .inl rfl
    · exact .inr ⟨l, rfl, (dropWhile_sublist _).mem hp⟩

theorem Sound.insertFiltered (h : Sound r) (hcd : r.proverCache pointer.address = some pointer)
    (hal : (r.infos pointer).allocations ≠ []) : Sound (r.insertFiltered filter pointer address) := by
  refine ⟨h.addressed, h.named, fun {f l} hl p hp => ?_, h.listed⟩
  by_cases hf : f = filter
  · subst hf
    simp only [insertFiltered, update_self, some.injEq] at hl
    subst hl
    rcases mem_insertSorted hp with rfl | ⟨l, hl, hp⟩
    · exact ⟨hcd, hal⟩
    · exact h.linked hl p hp
  · simp only [Registry.insertFiltered, update_of_ne hf] at hl
    exact h.linked hl p hp

theorem extractKnownAllocation_keeps (alloc : ProverAllocationInfo) :
    (extractKnownAllocation address pointer r alloc).proverCache = r.proverCache ∧
      (extractKnownAllocation address pointer r alloc).infos = r.infos := by
  rw [extractKnownAllocation]
  split
  · exact ⟨addProverToTrie_proverCache, addProverToTrie_infos⟩
  · exact ⟨rfl, rfl⟩

theorem Sound.extractKnownAllocation (h : Sound r) (hcd : r.proverCache address = some pointer)
    (hal : (r.infos pointer).allocations ≠ []) (alloc : ProverAllocationInfo) :
    Sound (extractKnownAllocation address pointer r alloc) := by
  obtain rfl := h.named hcd
  rw [extractKnownAllocation]
  split
  · refine (h.addProverToTrie hcd hal).insertFiltered ?_ ?_
    · rwa [addProverToTrie_proverCache]
    · rwa [addProverToTrie_infos]
  · exact h.insertFiltered hcd hal

theorem Sound.foldl_extractKnownAllocation (h : Sound r) (hcd : r.proverCache address = some pointer)
    (hal : (r.infos pointer).allocations ≠ []) (allocs : List ProverAllocationInfo) :
    Sound (allocs.foldl (Registry.extractKnownAllocation address pointer) r) := by
  induction allocs generalizing r with
  | nil => exact h
  | cons alloc allocs ih =>
    obtain ⟨hcc, hin⟩ := @extractKnownAllocation_keeps r address pointer alloc
    exact ih (h.extractKnownAllocation hcd hal alloc) (hcc ▸ hcd) (hin ▸ hal)

theorem Sound.extractKnown (h : Sound r) (hcd : r.proverCache address = some pointer) :
    Sound (r.extractKnown address pointer) := by
  rw [Registry.extractKnown]
  cases hal : (r.infos pointer).allocations with
  | nil => exact h
  | cons alloc allocs =>
    exact h.foldl_extractKnownAllocation hcd (hal ▸ cons_ne_nil _ _) _

theorem Sound.extractProver (h : Sound r) (publicKey : Bytes) (fields : ProverFields) :
    Sound (r.extractProver address publicKey fields) := by
  rw [Registry.extractProver]
  split
  · exact h.newInfo ‹_› rfl
  · refine Sound.extractKnown (h.modifyInfo ?_ ?_) ‹_›
    · exact fun _ => rfl
    · exact fun _ => id

theorem ensureProver_cases (ref : Bytes) :
    (∃ pointer, r.proverCache ref = some pointer ∧ r.ensureProver ref = r) ∨
      (r.proverCache ref = none ∧ r.ensureProver ref = r.newInfo ref (.blank ref)) := by
  rw [ensureProver]
  cases hcd : r.proverCache ref with
  | none => exact .inr ⟨rfl, rfl⟩
  | some pointer => exact .inl ⟨pointer, rfl, rfl⟩

theorem extractAllocation_cached (hcd : r.proverCache address = some pointer) (info : ProverAllocationInfo) :
    r.extractAllocation address info = r.addAllocation pointer address info := by
  have hens : r.ensureProver address = r := by
    rw [ensureProver, hcd]
    rfl
  rw [extractAllocation, hens, hcd]

theorem extractAllocation_new (hnc : r.proverCache address = none) (info : ProverAllocationInfo) :
    r.extractAllocation address info =
      (r.newInfo address (.blank address)).addAllocation ⟨address, r.created address⟩ address info := by
  have hens : r.ensureProver address = r.newInfo address (.blank address) := by
    rw [ensureProver, hnc]
    rfl
  rw [extractAllocation, hens]
  simp [newInfo]

theorem Sound.ensureProver (h : Sound r) (ref : Bytes) : Sound (r.ensureProver ref) := by
  rcases ensureProver_cases (r := r) ref with ⟨pointer, -, heq⟩ | ⟨hnc, heq⟩
  · rwa [heq]
  · rw [heq]
    exact h.newInfo hnc rfl

theorem Sound.addAllocation (h : Sound r) (hcd : r.proverCache address = some pointer)
    (allocationInfo : ProverAllocationInfo) : Sound (r.addAllocation pointer address allocationInfo) := by
  obtain rfl := h.named hcd
  have hm : Sound (r.modifyInfo pointer fun info => info.withAllocation allocationInfo) :=
    h.modifyInfo (fun _ => rfl) fun _ _ => by simp [ProverInfo.withAllocation]
  have hal : ((r.modifyInfo pointer fun info => info.withAllocation allocationInfo).infos pointer).allocations ≠
      [] := by
    simp [Registry.modifyInfo, ProverInfo.withAllocation]
  have hins : ∀ filter, Sound ((r.modifyInfo pointer fun info => info.withAllocation allocationInfo).insertFiltered
      filter pointer pointer.address) := fun _ => hm.insertFiltered hcd hal
  simp only [addAllocation]
  split
  · exact (hins _).addProverToTrie hcd hal
  · exact hins _

theorem Sound.absorb (h : Sound r) (reading : Reading) : Sound (r.absorb address reading) := by
  cases reading with
  | skipped => exact h
  | prover publicKey fields => exact h.extractProver publicKey fields
  | allocation ref info =>
    rw [Registry.absorb, extractAllocation]
    split
    · exact h.ensureProver ref
    · exact (h.ensureProver ref).addAllocation ‹_› info

end Tries

/-! ### Steps beside a prover -/

/-- A change of the registry that concerns one prover. -/
structure Local (address : Bytes) (T : Registry → Registry) : Prop where
  proverCache : ∀ {r a}, a ≠ address → (T r).proverCache a = r.proverCache a
  infos : ∀ {r} {p : Pointer}, p.address ≠ address → (T r).infos p = r.infos p
  newInfo : ∀ {r a info}, a ≠ address → (T r).newInfo a info = T (r.newInfo a info)
  modifyInfo : ∀ {r f} {p : Pointer}, p.address ≠ address → (T r).modifyInfo p f = T (r.modifyInfo p f)
  insertFiltered : ∀ {r filter p a}, Sound r → (T r).insertFiltered filter p a = T (r.insertFiltered filter p a)
  addProverToTrie : ∀ {r a filter n}, (T r).addProverToTrie a filter n = T (r.addProverToTrie a filter n)

def Registry.Reading.about (address : Bytes) : Reading → Option Bytes
  | .skipped => none
  | .prover _ _ => some address
  | .allocation proverRef _ => some proverRef

section Local
variable {r : Registry} {address a : Bytes} {T : Registry → Registry} {p : Pointer}

section
variable (hT : Local address T)
include hT

theorem Local.foldl_extractKnownAllocation (h : Sound r) (hcd : r.proverCache a = some p)
    (hal : (r.infos p).allocations ≠ []) (allocs : List ProverAllocationInfo) :
    allocs.foldl (extractKnownAllocation a p) (T r) = T (allocs.foldl (extractKnownAllocation a p) r) := by
  induction allocs generalizing r with
  | nil => rfl
  | cons alloc allocs ih =>
    have hst : extractKnownAllocation a p (T r) alloc = T (extractKnownAllocation a p r alloc) := by
      simp only [extractKnownAllocation]
      split
      · rw [hT.addProverToTrie, hT.insertFiltered (h.addProverToTrie hcd hal)]
      · rw [hT.insertFiltered h]
    have hkp := @extractKnownAllocation_keeps r a p alloc
    rw [foldl_cons, foldl_cons, hst]
    exact ih (h.extractKnownAllocation hcd hal alloc) (hkp.1 ▸ hcd) (hkp.2 ▸ hal)

theorem Local.extractKnown (h : Sound r) (hcd : r.proverCache a = some p)
    (hal : ((T r).infos p).allocations = (r.infos p).allocations) :
    (T r).extractKnown a p = T (r.extractKnown a p) := by
  rw [Registry.extractKnown, Registry.extractKnown, hal]
  cases hls : (r.infos p).allocations with
  | nil => rfl
  | cons alloc allocs =>
    exact hT.foldl_extractKnownAllocation h hcd (hls ▸ cons_ne_nil _ _) _

theorem Local.addAllocation (h : Sound r) {info : ProverAllocationInfo}
    (hm : (T r).modifyInfo p (fun i => i.withAllocation info) = T (r.modifyInfo p fun i => i.withAllocation info))
    (hkey : ∀ r, ((T r).infos p).publicKey = (r.infos p).publicKey) :
    (T r).addAllocation p a info = T (r.addAllocation p a info) := by
  have hmod : Sound (r.modifyInfo p fun i => i.withAllocation info) :=
    h.modifyInfo (fun _ => rfl) fun _ _ => by simp [ProverInfo.withAllocation]
  simp only [Registry.addAllocation, hm, hT.insertFiltered hmod, hkey]
  split
  · rw [hT.addProverToTrie]
  · rfl

theorem Local.absorb (h : Sound r) {reading : Reading} (hab : reading.about a ≠ some address) :
    (T r).absorb a reading = T (r.absorb a reading) := by
  cases reading with
  | skipped => rfl
  | prover publicKey fields =>
    have ha : a ≠ address := fun heq => hab (congrArg some heq)
    rw [Registry.absorb, Registry.absorb, extractProver, extractProver, hT.proverCache ha]
    cases hcd : r.proverCache a with
    | none => exact hT.newInfo ha
    | some p =>
      have hp : p.address ≠ address := h.named hcd ▸ ha
      dsimp only
      rw [hT.modifyInfo hp]
      refine hT.extractKnown (h.modifyInfo (fun _ => rfl) fun _ => id) hcd ?_
      rw [hT.infos hp]
  | allocation ref info =>
    have hr : ref ≠ address := fun heq => hab (congrArg some heq)
    have hens : (T r).ensureProver ref = T (r.ensureProver ref) := by
      rw [ensureProver, ensureProver, hT.proverCache hr]
      split
      · rfl
      · exact hT.newInfo hr
    rw [Registry.absorb, Registry.absorb, extractAllocation, extractAllocation, hens, hT.proverCache hr]
    cases hcd : (r.ensureProver ref).proverCache ref with
    | none => rfl
    | some p =>
      have hsn := h.ensureProver ref
      have hp : p.address ≠ address := hsn.named hcd ▸ hr
      exact hT.addAllocation hsn (hT.modifyInfo hp) fun r => by rw [hT.infos hp]

end

theorem insertSorted_congr {r r' : Registry} (h : ∀ q, (r'.infos q).address = (r.infos q).address) (p : Pointer)
    (a : Bytes) (list : Option (List Pointer)) : r'.insertSorted p a list = r.insertSorted p a list := by
  cases list with
  | none => rfl
  | some l => simp [insertSorted, h]

theorem local_update (fields : ProverFields) : Local p.address (fun r => r.modifyInfo p fields.update) where
  proverCache _ := rfl
  infos hq := update_of_ne (fun heq => hq (congrArg Pointer.address heq)) _ _
  newInfo {r a info} ha := by
    have hne : (⟨a, r.created a⟩ : Pointer) ≠ p := fun heq => ha (congrArg Pointer.address heq)
    simp [newInfo, modifyInfo, update_of_ne hne.symm, update_comm hne]
  modifyInfo {r f q} hq := by
    have hne : q ≠ p := fun heq => hq (congrArg Pointer.address heq)
    simp [modifyInfo, update_of_ne hne, update_of_ne hne.symm, update_comm hne]
  insertFiltered {r filter q a} _ := by
    have hadr : ∀ q, ((r.modifyInfo p fields.update).infos q).address = (r.infos q).address := by
      intro q
      by_cases hq : q = p
      · subst hq
        simp [modifyInfo, ProverFields.update]
      · simp [modifyInfo, update_of_ne hq]
    simp only [insertFiltered, insertSorted_congr hadr]
    rfl
  addProverToTrie {r a filter n} := by
    by_cases hflt : filter = []
    · simp [addProverToTrie, modifyInfo, hflt]
    · simp [addProverToTrie, modifyInfo, hflt]

theorem local_newInfo {info : ProverInfo} (hin : info.address = address) :
    Local address (fun r => r.newInfo address info) where
  proverCache ha := update_of_ne ha _ _
  infos hq := update_of_ne (fun heq => hq (congrArg Pointer.address heq)) _ _
  newInfo {r a info'} ha := by
    have hne : (⟨a, r.created a⟩ : Pointer) ≠ ⟨address, r.created address⟩ := fun heq => ha (congrArg Pointer.address heq)
    simp [newInfo, update_of_ne ha, update_of_ne ha.symm, update_comm hne, update_comm ha]
  modifyInfo {r f q} hq := by
    have hne : q ≠ ⟨address, r.created address⟩ := fun heq => hq (congrArg Pointer.address heq)
    simp [modifyInfo, newInfo, update_of_ne hne, update_comm hne]
  insertFiltered {r filter q a} h := by
    have hadr : ∀ q, ((r.newInfo address info).infos q).address = (r.infos q).address := by
      intro q
      by_cases hq : q = ⟨address, r.created address⟩
      · subst hq
        simp [newInfo, hin, h.addressed]
      · simp [newInfo, update_of_ne hq]
    simp only [insertFiltered, insertSorted_congr hadr]
    rfl
  addProverToTrie {r a filter n} := by
    by_cases hflt : filter = []
    · simp [addProverToTrie, newInfo, hflt]
    · simp [addProverToTrie, newInfo, hflt]

end Local

/-! ### What a vertex leaves of the prover cache -/

section Absorb
variable {r : Registry} {address a b publicKey : Bytes} {p : Pointer} {reading : Reading} {fields : ProverFields}

theorem extractKnown_keeps : (r.extractKnown a p).proverCache = r.proverCache ∧ (r.extractKnown a p).infos = r.infos := by
  have hfl : ∀ (allocs : List ProverAllocationInfo) (r : Registry),
      (allocs.foldl (extractKnownAllocation a p) r).proverCache = r.proverCache ∧
        (allocs.foldl (extractKnownAllocation a p) r).infos = r.infos := by
    intro allocs
    induction allocs with
    | nil => exact fun _ => ⟨rfl, rfl⟩
    | cons alloc allocs ih =>
      intro r
      obtain ⟨hcc, hin⟩ := ih (extractKnownAllocation a p r alloc)
      have hkp := @extractKnownAllocation_keeps r a p alloc
      exact ⟨hcc.trans hkp.1, hin.trans hkp.2⟩
  exact hfl _ r

theorem addAllocation_keeps {info : ProverAllocationInfo} : (r.addAllocation p a info).proverCache = r.proverCache ∧
    (r.addAllocation p a info).infos = update r.infos p ((r.infos p).withAllocation info) := by
  simp only [addAllocation]
  split
  · exact ⟨addProverToTrie_proverCache, addProverToTrie_infos⟩
  · exact ⟨rfl, rfl⟩

/-- What a vertex does to the prover cache. -/
def Registry.Reading.apply (address : Bytes) (provers : Bytes → Option ProverInfo) : Reading → Bytes → Option ProverInfo
  | .skipped => provers
  | .prover publicKey fields =>
    Function.update provers address
      (some (fields.update { (provers address).getD (.blank address) with publicKey := publicKey }))
  | .allocation proverRef info =>
    Function.update provers proverRef (some (((provers proverRef).getD (.blank proverRef)).withAllocation info))

theorem Sound.provers_absorb (h : Sound r) : (r.absorb a reading).view.provers = reading.apply a r.view.provers := by
  cases reading with
  | skipped => rfl
  | prover publicKey fields =>
    rw [Registry.absorb, Registry.extractProver, Reading.apply]
    cases hcd : r.proverCache a with
    | none =>
      have hvw : r.view.provers a = none := by simp [view, hcd]
      rw [h.view_newInfo hcd, hvw]
      rfl
    | some p =>
      have hvw : r.view.provers a = some (r.infos p) := by simp [view, hcd]
      have hkn : ∀ r : Registry, (r.extractKnown a p).view.provers = r.view.provers := fun r => by
        simp [view, extractKnown_keeps.1, extractKnown_keeps.2]
      rw [hkn, h.provers_modifyInfo hcd, hvw]
      rfl
  | allocation ref info =>
    have hadd : ∀ {r : Registry} {p : Pointer}, Sound r → r.proverCache ref = some p →
        (r.addAllocation p ref info).view.provers =
          update r.view.provers ref (some ((r.infos p).withAllocation info)) := by
      intro r p h hcd
      have hm := h.provers_modifyInfo hcd fun i => i.withAllocation info
      have heq : (r.addAllocation p ref info).view.provers =
          (r.modifyInfo p fun i => i.withAllocation info).view.provers := by
        simp [view, addAllocation_keeps.1, addAllocation_keeps.2, Registry.modifyInfo]
      rw [heq, hm]
      simp [view, hcd]
    rw [Registry.absorb, Reading.apply]
    cases hcd : r.proverCache ref with
    | some p =>
      have hvw : r.view.provers ref = some (r.infos p) := by simp [view, hcd]
      rw [extractAllocation_cached hcd, hadd h hcd, hvw]
      rfl
    | none =>
      have hvw : r.view.provers ref = none := by simp [view, hcd]
      rw [extractAllocation_new hcd, hadd (h.newInfo hcd rfl) (update_self ..), h.view_newInfo hcd, hvw]
      simp [View.put, Registry.newInfo]

end Absorb

end Provers
end Quilibrium
