import Quilibrium.Consensus.Messages
import Quilibrium.Theorems.Validator

/-! Both engines put the signature of a confirmation into the stored frame before they validate it. -/

namespace Quilibrium
open Except List Option

variable {Header Bundle : Type}

/-! ### The store -/

theorem find?_map_of_same {α : Type} {p : α → Bool} {f : α → α} {l : List α} (h : ∀ a ∈ l, p (f a) = p a) :
    (l.map f).find? p = (l.find? p).map f := by
  induction l with
  | nil => rfl
  | cons a l ih =>
    rw [map_cons, find?_cons, find?_cons, h a mem_cons_self, ih fun b hb => h b (mem_cons_of_mem _ hb)]
    cases p a <;> rfl

namespace FrameStore

variable {store store' : FrameStore Header Bundle} {id : Bytes} {frame frame' : FrameMessage Header Bundle}

theorem ext_entries (h : store.entries = store'.entries) : store = store' := by
  obtain ⟨entries, _⟩ := store
  obtain ⟨entries', _⟩ := store'
  cases h
  rfl

section
variable (h : (id, frame) ∈ store.entries)
include h

theorem eq_of_mem {entry : Bytes × FrameMessage Header Bundle} (hen : entry ∈ store.entries) (hid : entry.1 = id) :
    entry = (id, frame) :=
  inj_on_of_nodup_map store.nodup hen h hid

theorem update_self : store.update id frame = store := by
  apply ext_entries
  refine (map_congr_left fun entry hen => ?_).trans (map_id _)
  split_ifs with hid
  · rw [eq_of_mem h hen hid, id_eq]
  · rfl

theorem update_eq_iff : store.update id frame' = store ↔ frame' = frame := by
  constructor
  · intro heq
    have hm : (id, frame') ∈ store.entries := heq ▸ mem_map.mpr ⟨(id, frame), h, if_pos rfl⟩
    exact (Prod.mk.inj (eq_of_mem h hm rfl)).2
  · rintro rfl
    exact update_self h

end

theorem find?_update {p : Bytes × FrameMessage Header Bundle → Bool} (h : store.entries.find? p = some (id, frame))
    (hp : p (id, frame') = true) : (store.update id frame').entries.find? p = some (id, frame') := by
  have hm := mem_of_find?_eq_some h
  have hsm : ∀ entry ∈ store.entries, p (if entry.1 = id then (entry.1, frame') else entry) = p entry := by
    intro entry hen
    split_ifs with hid
    · rw [eq_of_mem hm hen hid, hp, find?_some h]
    · rfl
  rw [update, find?_map_of_same hsm, h, map_some, if_pos rfl]

end FrameStore

/-! ### What is asked of a handler -/

theorem FrameConfirmation.signature_of_validate {c : FrameConfirmation} (h : c.validate = none) :
    ∃ s, c.aggregateSignature = some s := by
  rw [validate] at h
  split_ifs at h with _ hnn
  rwa [isNone_iff_eq_none, ← ne_eq, ne_none_iff_exists'] at hnn

/-- A handler of confirmations with what it looks at. -/
structure ConfirmationHandler (Header Bundle : Type) where
  handle : FrameStore Header Bundle → Option FrameConfirmation →
    Except Fault (FrameStore Header Bundle × List (ConfirmationCall (FrameMessage Header Bundle)))
  isConfirmed : FrameConfirmation → Bytes × FrameMessage Header Bundle → Bool
  withSignature : FrameMessage Header Bundle → Option AggregateSignature → FrameMessage Header Bundle
  signature : FrameMessage Header Bundle → Option AggregateSignature
  accepts : FrameMessage Header Bundle → Except Fault Bool

namespace ConfirmationHandler

def Names (H : ConfirmationHandler Header Bundle) (store : FrameStore Header Bundle) (c : FrameConfirmation) (id : Bytes)
    (frame : FrameMessage Header Bundle) : Prop :=
  store.entries.find? (H.isConfirmed c) = some (id, frame)

/-- The handler returns. A frame that fails under the signature leaves the store alone, one that passes under a new
    one is confirmed and inserted, and a second time nothing happens. -/
def Confirms (H : ConfirmationHandler Header Bundle) (store : FrameStore Header Bundle) (c : FrameConfirmation) : Prop :=
  ∃ store' calls, H.handle store (some c) = .ok (store', calls) ∧ (∀ id frame, H.Names store c id frame →
      (H.accepts (H.withSignature frame c.aggregateSignature) = .ok false → store' = store) ∧
      (H.accepts (H.withSignature frame c.aggregateSignature) = .ok true → H.signature frame ≠ c.aggregateSignature →
        (∃ proposer, .receiveConfirmation proposer (H.withSignature frame c.aggregateSignature) ∈ calls) ∧
        .insert (H.withSignature frame c.aggregateSignature) ∈ calls)) ∧
    H.handle store' (some c) = .ok (store', [])

structure Lawful (H : ConfirmationHandler Header Bundle) : Prop where
  unnamed : ∀ store c, (∀ id frame, ¬ H.Names store c id frame) → H.handle store (some c) = .ok (store, [])
  isConfirmed_withSignature : ∀ c id frame s, H.isConfirmed c (id, H.withSignature frame s) = H.isConfirmed c (id, frame)
  signature_withSignature : ∀ c id frame s, H.isConfirmed c (id, frame) = true → H.signature (H.withSignature frame s) = s
  withSignature_self : ∀ frame s, H.signature frame = s → H.withSignature frame s = frame

variable {H : ConfirmationHandler Header Bundle} {store : FrameStore Header Bundle} {c : FrameConfirmation} {id : Bytes}
  {frame : FrameMessage Header Bundle}

section
variable (h : H.Names store c id frame)
include h

theorem Names.signed (hH : H.Lawful) :
    H.signature (H.withSignature frame c.aggregateSignature) = c.aggregateSignature :=
  hH.signature_withSignature c id frame _ (find?_some h)

theorem Names.again (hH : H.Lawful) :
    H.Names (store.update id (H.withSignature frame c.aggregateSignature)) c id (H.withSignature frame c.aggregateSignature) :=
  FrameStore.find?_update h ((hH.isConfirmed_withSignature c id frame _).trans (find?_some h))

theorem Names.update_eq_iff (hH : H.Lawful) :
    store.update id (H.withSignature frame c.aggregateSignature) = store ↔ H.signature frame = c.aggregateSignature := by
  rw [FrameStore.update_eq_iff (mem_of_find?_eq_some h)]
  constructor
  · intro heq
    rw [← heq, h.signed hH]
  · exact hH.withSignature_self frame _

theorem Names.unique {id' : Bytes} {frame' : FrameMessage Header Bundle} (h' : H.Names store c id' frame') :
    id' = id ∧ frame' = frame :=
  Prod.mk.inj (some.inj (h'.symm.trans h))

end

end ConfirmationHandler

/-! ### The global engine -/

namespace GlobalConsensusEngine

variable {env : EngineEnv} {store : FrameStore GlobalFrameHeader Bundle} {c : FrameConfirmation} {id : Bytes}
  {frame : FrameMessage GlobalFrameHeader Bundle}

def confirmationHandler (env : EngineEnv) : ConfirmationHandler GlobalFrameHeader Bundle where
  handle := handleConfirmation env
  isConfirmed := isConfirmed
  withSignature := withSignature
  signature := signature
  accepts frame := .ok (accepts env frame)

theorem confirmationHandler_lawful : (@confirmationHandler Bundle env).Lawful where
  unnamed store c h := by
    have hnn : store.entries.find? (isConfirmed c) = none := by
      cases hfn : store.entries.find? (isConfirmed c) with
      | none => rfl
      | some entry => exact absurd hfn (h entry.1 entry.2)
    simp [confirmationHandler, handleConfirmation, hnn, ite_self]
  isConfirmed_withSignature c id frame s := by
    simp [confirmationHandler, isConfirmed, withSignature, Option.any_map]
  signature_withSignature c id frame s h := by
    obtain ⟨_ | hdr, reqs⟩ := frame
    · cases h
    · rfl
  withSignature_self frame s h := by
    obtain ⟨_ | hdr, reqs⟩ := frame
    · rfl
    · cases h
      rfl

theorem handleConfirmation_malformed (h : c.validate.isSome) : handleConfirmation env store (some c) = .ok (store, []) := by
  simp [handleConfirmation, h]

theorem handleConfirmation_named (hvl : c.validate = none) (h : (confirmationHandler env).Names store c id frame) :
    handleConfirmation env store (some c) = .ok (store.update id (withSignature frame c.aggregateSignature), []) := by
  have hsgd : signature (withSignature frame c.aggregateSignature) = c.aggregateSignature :=
    h.signed confirmationHandler_lawful
  have hfn : store.entries.find? (isConfirmed c) = some (id, frame) := h
  obtain ⟨s, hs⟩ := FrameConfirmation.signature_of_validate hvl
  rw [hs] at hsgd
  simp [handleConfirmation, hvl, isSome_none, hfn, hs, hsgd, ite_self]

theorem confirms_iff : (confirmationHandler env).Confirms store c ↔
    ∀ id frame, (confirmationHandler env).Names store c id frame → signature frame = c.aggregateSignature ∨
      c.validate.isSome ∧ accepts env (withSignature frame c.aggregateSignature) = false := by
  constructor
  · rintro ⟨store', calls, hh, hna, -⟩ id frame hnm
    obtain ⟨hfl, hpas⟩ := hna id frame hnm
    rw [or_iff_not_imp_left]
    intro hot
    cases hacc : accepts env (withSignature frame c.aggregateSignature) with
    | true =>
      have hins := (hpas (congrArg ok hacc) hot).2
      cases hvl : c.validate with
      | none =>
        obtain ⟨-, rfl⟩ := Prod.mk.inj (ok.inj ((handleConfirmation_named hvl hnm).symm.trans hh))
        exact absurd hins not_mem_nil
      | some e =>
        have hm : c.validate.isSome := hvl ▸ rfl
        obtain ⟨-, rfl⟩ := Prod.mk.inj (ok.inj ((handleConfirmation_malformed hm).symm.trans hh))
        exact absurd hins not_mem_nil
    | false =>
      refine ⟨?_, rfl⟩
      by_contra hvl
      have hna := handleConfirmation_named (not_isSome_iff_eq_none.mp hvl) hnm
      obtain ⟨rfl, -⟩ := Prod.mk.inj (ok.inj (hna.symm.trans hh))
      exact hot ((hnm.update_eq_iff confirmationHandler_lawful).mp (hfl (congrArg ok hacc)))
  · intro h
    have hu : handleConfirmation env store (some c) = .ok (store, []) := by
      cases hvl : c.validate with
      | some e => exact handleConfirmation_malformed (hvl ▸ rfl)
      | none =>
        by_cases hnm : ∃ id frame, (confirmationHandler env).Names store c id frame
        · obtain ⟨id, frame, hnm⟩ := hnm
          have hsm : signature frame = c.aggregateSignature :=
            (h id frame hnm).resolve_right fun hm => by simp [hvl] at hm
          have hst : store.update id (withSignature frame c.aggregateSignature) = store :=
            (hnm.update_eq_iff confirmationHandler_lawful).mpr hsm
          rw [handleConfirmation_named hvl hnm, hst]
        · exact confirmationHandler_lawful.unnamed store c fun id frame hne => hnm ⟨id, frame, hne⟩
    refine ⟨store, [], hu, fun id frame hnm => ⟨fun _ => rfl, fun hacc hot => ?_⟩, hu⟩
    obtain hsm | ⟨-, hfl⟩ := h id frame hnm
    · exact absurd hsm hot
    · exact absurd (hfl.symm.trans (ok.inj hacc)) Bool.false_ne_true

end GlobalConsensusEngine

/-! ### The engine of app shards -/

namespace AppConsensusEngine

variable {env : EngineEnv} {store : FrameStore FrameHeader Bundle} {c : FrameConfirmation} {id : Bytes}
  {frame : FrameMessage FrameHeader Bundle}

def confirmationHandler (env : EngineEnv) : ConfirmationHandler FrameHeader Bundle where
  handle := handleConfirmation env
  isConfirmed := isConfirmed env
  withSignature := withSignature
  signature := signature
  accepts := accepts env

theorem confirmationHandler_lawful : (@confirmationHandler Bundle env).Lawful where
  unnamed store c h := by
    have hnn : store.entries.find? (isConfirmed env c) = none := by
      cases hfn : store.entries.find? (isConfirmed env c) with
      | none => rfl
      | some entry => exact absurd hfn (h entry.1 entry.2)
    simp [confirmationHandler, handleConfirmation, hnn]
  isConfirmed_withSignature c id frame s := by
    simp [confirmationHandler, isConfirmed, withSignature, Option.any_map, calculateFrameSelector]
  signature_withSignature c id frame s h := by
    obtain ⟨_ | hdr, reqs⟩ := frame
    · cases h
    · rfl
  withSignature_self frame s h := by
    obtain ⟨_ | hdr, reqs⟩ := frame
    · rfl
    · cases h
      rfl

theorem prover_of_accepts (h : accepts env frame = .ok true) : AppVotingProvider.prover frame ≠ [] := by
  obtain ⟨_ | hdr, reqs⟩ := frame
  · cases h
  · intro hprv
    have hem : hdr.prover.isEmpty = true := isEmpty_iff.mpr hprv
    have hv : ∃ e, hdr.verifyFrameHeader env.toFrameCrypto = .ok (.error e) := by
      simp only [FrameHeader.verifyFrameHeader, hem, if_true]
      split_ifs <;> exact ⟨_, rfl⟩
    obtain ⟨e, hv⟩ := hv
    simp only [accepts, BLSAppFrameValidator.validate, bind_some, hv] at h
    split_ifs at h <;> cases h

theorem handleConfirmation_named (h : (confirmationHandler env).Names store c id frame) :
    handleConfirmation env store (some c) = (accepts env (withSignature frame c.aggregateSignature)).map fun valid =>
      (store.update id (withSignature frame c.aggregateSignature), if valid then
        [.receiveConfirmation (AppVotingProvider.prover (withSignature frame c.aggregateSignature))
          (withSignature frame c.aggregateSignature), .insert (withSignature frame c.aggregateSignature)] else []) := by
  have hfn : store.entries.find? (isConfirmed env c) = some (id, frame) := h
  simp only [handleConfirmation, hfn]
  cases hacc : accepts env (withSignature frame c.aggregateSignature) with
  | error e => rfl
  | ok valid =>
    cases valid with
    | false => rfl
    | true =>
      have hprv := isEmpty_eq_false_iff.mpr (prover_of_accepts hacc)
      simp only [ok_bind, Bool.not_true, Bool.false_eq_true, if_false, hprv]
      rfl

theorem confirms_iff : (confirmationHandler env).Confirms store c ↔
    ∀ id frame, (confirmationHandler env).Names store c id frame →
      signature frame = c.aggregateSignature ∧ accepts env (withSignature frame c.aggregateSignature) = .ok false := by
  constructor
  · rintro ⟨store', calls, hh, hna, hag⟩ id frame hnm
    obtain ⟨hfl, -⟩ := hna id frame hnm
    have hfr := (handleConfirmation_named hnm).symm.trans hh
    cases hacc : accepts env (withSignature frame c.aggregateSignature) with
    | error e =>
      rw [hacc] at hfr
      cases hfr
    | ok valid =>
      rw [hacc] at hfr
      obtain ⟨rfl, -⟩ := Prod.mk.inj (ok.inj hfr)
      cases valid with
      | false => exact ⟨(hnm.update_eq_iff confirmationHandler_lawful).mp (hfl hacc), rfl⟩
      | true =>
        have hsl : withSignature (withSignature frame c.aggregateSignature) c.aggregateSignature =
            withSignature frame c.aggregateSignature :=
          confirmationHandler_lawful.withSignature_self _ _ (hnm.signed confirmationHandler_lawful)
        have hnm' : (confirmationHandler env).Names (store.update id (withSignature frame c.aggregateSignature)) c id
            (withSignature frame c.aggregateSignature) := hnm.again confirmationHandler_lawful
        have hs := (handleConfirmation_named hnm').symm.trans hag
        rw [hsl, hacc] at hs
        cases congrArg Prod.snd (ok.inj hs)
  · intro h
    by_cases hnm : ∃ id frame, (confirmationHandler env).Names store c id frame
    · obtain ⟨id, frame, hnm⟩ := hnm
      obtain ⟨hsm, hfl⟩ := h id frame hnm
      have hst : store.update id (withSignature frame c.aggregateSignature) = store :=
        (hnm.update_eq_iff confirmationHandler_lawful).mpr hsm
      have hu : handleConfirmation env store (some c) = .ok (store, []) := by
        rw [handleConfirmation_named hnm, hfl, hst]
        rfl
      refine ⟨store, [], hu, fun id' frame' hnm' => ⟨fun _ => rfl, fun _ hot => ?_⟩, hu⟩
      obtain ⟨rfl, rfl⟩ := hnm.unique hnm'
      exact absurd hsm hot
    · have hun := confirmationHandler_lawful.unnamed store c fun id frame hne => hnm ⟨id, frame, hne⟩
      exact ⟨store, [], hun, fun id frame hne => (hnm ⟨id, frame, hne⟩).elim, hun⟩

end AppConsensusEngine

/-! ### Both engines -/

def sampleEngine : EngineEnv where
  toValidatorEnv := sampleEnv (fun _ => true) soleProver
  poseidon := .zeros 32

def soleFrame {Header : Type} (header : Header) : FrameStore Header Unit where
  entries := [(List.replicate 32 0, ⟨some header, []⟩)]
  nodup := List.nodup_singleton _

theorem names_soleFrame {H : ConfirmationHandler Header Unit} {hdr : Header} {c : FrameConfirmation}
    (h : H.isConfirmed c (replicate 32 0, ⟨some hdr, []⟩) = true) :
    H.Names (soleFrame hdr) c (replicate 32 0) ⟨some hdr, []⟩ :=
  find?_cons_of_pos h

def sampleConfirmation (key mask : Bytes) : FrameConfirmation := ⟨1, List.replicate 32 0, some (sampleSignature key mask)⟩

end Quilibrium
