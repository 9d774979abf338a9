import Quilibrium.Lib.Except
import Quilibrium.Theorems.Reel

/-! The ways an `Insert` can go, for both reels, and the states that runs of `Insert` pass through. -/

namespace Quilibrium
open FrameTree

variable {F S : Type}

namespace TimeReel

variable {R : Reel F S} {W : World F} {st : TimeReel F S} {f : F}

theorem noteEquivocations_eq (R : Reel F S) (st : TimeReel F S) (f : F) :
    ∃ equivocators events, noteEquivocations R st f = { st with equivocators, events } := by
  rw [noteEquivocations]
  generalize st.framesByNumber (R.frameNumber f) = ids
  induction ids generalizing st with
  | nil => exact ⟨_, _, rfl⟩
  | cons id ids ih =>
    have ho : ∃ equivocators events, noteEquivocation R f st id = { st with equivocators, events } := by
      rw [noteEquivocation]
      split
      · exact ⟨_, _, rfl⟩
      · split_ifs
        · exact ⟨_, _, rfl⟩
        · exact ⟨_, _, rfl⟩
    obtain ⟨e, ev, heq⟩ := ho
    obtain ⟨e', ev', heq'⟩ := ih (noteEquivocation R f st id)
    refine ⟨e', ev', ?_⟩
    rw [List.foldl_cons, heq', heq]

@[simp] theorem frameOf_noteEquivocations : (noteEquivocations R st f).frameOf = st.frameOf := by
  obtain ⟨e, ev, heq⟩ := noteEquivocations_eq R st f
  rw [heq]
  rfl

@[simp] theorem has_noteEquivocations {id : Bytes} : (noteEquivocations R st f).Has id ↔ st.Has id := by
  rw [has_iff_frameOf, has_iff_frameOf, frameOf_noteEquivocations]

theorem Sound.noteEquivocations (h : st.Sound R) (f : F) : (noteEquivocations R st f).Sound R := by
  obtain ⟨e, ev, heq⟩ := noteEquivocations_eq R st f
  rw [heq]
  exact h.congr rfl rfl rfl

variable (R W st) in
theorem findNodeBySelector_spec (sel : Bytes) :
    (∃ p g, (findNodeBySelector R W st sel).1 = some p ∧ st.frameOf p = some g ∧ R.selector g = sel) ∨
      ((findNodeBySelector R W st sel).1 = none ∧ ∀ id g, st.frameOf id = some g → R.selector g ≠ sel) := by
  cases hfn : (st.visit W).1.find? fun id => ((st.visit W).2.frameOf id).any fun f => R.selector f = sel with
  | none =>
    refine .inr ⟨hfn, fun id g hg heq => ?_⟩
    have hm : id ∈ (st.visit W).1 := mem_visit.mpr (has_iff_frameOf.mpr ⟨g, hg⟩)
    have hnot := List.find?_eq_none.mp hfn id hm
    have hv : (st.visit W).2.frameOf id = some g := hg
    simp [hv, heq] at hnot
  | some p =>
    have hsm := List.find?_some hfn
    change (st.frameOf p).any (fun f => R.selector f = sel) = true at hsm
    cases hg : st.frameOf p with
    | none =>
      rw [hg] at hsm
      cases hsm
    | some g =>
      rw [hg] at hsm
      exact .inl ⟨p, g, hfn, hg, of_decide_eq_true hsm⟩

def connect (R : Reel F S) (W : World F) (now : Int) (st : TimeReel F S) (f : F) (parent : Bytes) : TimeReel F S :=
  let st := releasePending R W (st.withTree (st.attach R f parent)) (R.frameId f)
  let st := pruneOldFrames R W (evaluateForkChoice R W st (R.frameId f))
  st.withTree (st.pruneOldPendingFrames R now)

theorem insertBelow_eq {now : Int} {p : Bytes} {g : F} (hp : st.frameOf p = some g)
    (hs : R.selector g = R.parentSelector f) : insertBelow R W now st f p = (none, connect R W now st f p) := by
  rw [insertBelow, if_pos]
  · rfl
  · rw [hp]
    exact decide_eq_true hs

section
variable {Known : F → Prop} {I : List Bytes → TimeReel F S → Prop} (hr : Releases R W Known I)
include hr

theorem Releases.release (waiting : List Bytes) (h : I waiting st) (id : Bytes) : I waiting (releasePending R W st id) :=
  (hr.processPendingFrames waiting _ h id).1

theorem Releases.connect (h : I [] st) (hf : Known f) {p : Bytes} {g : F} (now : Int) (hfr : ¬st.Has (R.frameId f))
    (hp : st.frameOf p = some g) (hs : R.selector g = R.parentSelector f) (hpr : ∀ {st}, I [] st →
      I [] ((pruneOldFrames R W st).withTree ((pruneOldFrames R W st).pruneOldPendingFrames R now))) :
    I [] (connect R W now st f p) := by
  have hpH : st.Has p := has_iff_frameOf.mpr ⟨g, hp⟩
  obtain ⟨hrel, hext⟩ := hr.processPendingFrames [R.frameId f]
    ((st.withTree (st.attach R f p)).pendingCount + 1) (hr.attach h hf hfr hp hs) (R.frameId f)
  have hnew := hext _ _ ((frameOf_attach hfr hpH).trans (if_pos rfl))
  exact hpr (hr.evaluate hrel (has_iff_frameOf.mpr ⟨f, hnew⟩))

end

/-! ### States of a run -/

/-- The states that the code of a reel passes through. The fork choice may be evaluated in any of them. -/
inductive Reached (R : Reel F S) (W : World F) : TimeReel F S → Prop
  | new (store : S) : Reached R W (new store)
  | note {s} (f : F) : Reached R W s → Reached R W (noteEquivocations R s f)
  | stage {s} (store : S) : Reached R W s → Reached R W { s with store }
  | visit {s} : Reached R W s → Reached R W (s.visit W).2
  | send {s} (event : TimeReelEvent F) : Reached R W s → Reached R W (s.sendEvent event)
  | persist {s} (frames : List F) : Reached R W s → Reached R W (persistCanonicalFrames R W s frames).2
  | plant {s} (f : F) : Reached R W s → ¬s.Has (R.frameId f) → Reached R W (plantHead R s f)
  | wait {s} (f : F) : Reached R W s → Reached R W (s.withTree (s.addPendingFrame R f))
  | take {s} (sel : Bytes) : Reached R W s → Reached R W (s.withTree (s.takePending R sel))
  | attach {s} (f g : F) (p : Bytes) : Reached R W s → ¬s.Has (R.frameId f) → s.frameOf p = some g →
      R.selector g = R.parentSelector f → Reached R W (s.withTree (s.attach R f p))
  | evaluate {s} (id : Bytes) : Reached R W s → s.Has id → Reached R W (evaluateForkChoice R W s id)
  | prune {s} : Reached R W s → Reached R W (pruneOldFrames R W s)
  | expire {s} (now : Int) : Reached R W s → Reached R W (s.withTree (s.pruneOldPendingFrames R now))

namespace Reached

theorem sound (h : Reached R W st) : st.Sound R := by
  induction h with
  | new store => exact sound_new R store
  | note f _ ih => exact ih.noteEquivocations f
  | stage store _ ih | visit _ ih | send event _ ih => exact ih.congr rfl rfl rfl
  | persist frames _ ih =>
    have htr := persist_tree R W ‹_› frames
    exact ih.congr (congrArg nodes htr) (congrArg pendingFrames htr) (persist_head R W _ frames)
  | plant f _ hfr ih => exact ih.plantHead hfr
  | wait f _ ih => exact ih.addPendingFrame f
  | take sel _ ih => exact ih.takePending sel
  | attach f g p _ hfr hp hs ih =>
    refine ih.attach hfr (has_iff_frameOf.mpr ⟨g, hp⟩) fun g' hg' => ?_
    rw [Option.some.inj (hg'.symm.trans hp)]
    exact hs
  | evaluate id _ hid ih => exact ih.evaluate W hid
  | prune _ ih => exact ih.pruneOldFrames W
  | expire now _ ih => exact ih.pruneOldPendingFrames now

theorem releases (R : Reel F S) (W : World F) : Releases R W (fun _ => True) fun _ st => Reached R W st where
  sound h := h.sound
  known _ _ := trivial
  take sel h := h.take sel
  attach h _ hfr hp hs := h.attach _ _ _ hfr hp hs
  evaluate h hid := h.evaluate _ hid

theorem release (h : Reached R W st) (id : Bytes) : Reached R W (releasePending R W st id) :=
  (releases R W).release [] h id

theorem connect (h : Reached R W st) {g : F} {p : Bytes} (now : Int) (hfr : ¬st.Has (R.frameId f))
    (hp : st.frameOf p = some g) (hs : R.selector g = R.parentSelector f) : Reached R W (connect R W now st f p) :=
  (releases R W).connect h trivial now hfr hp hs fun h => h.prune.expire now

end Reached

end TimeReel

/-! ### The global reel -/

namespace GlobalTimeReel

open TimeReel

variable (cfg : GlobalConfig) (W : World GlobalFrame) (now : Int) (st : TimeReel GlobalFrame GlobalClock) (f : GlobalFrame)

def RootFrame : Prop :=
  f.frameNumber = genesisFrameNumber cfg ∨ (cfg.archiveMode = false ∧ st.root = none ∧ st.nodes.entries = [])

def planted : TimeReel GlobalFrame GlobalClock :=
  let st := (persistCanonicalFrames (reel cfg) W (plantHead (reel cfg) st f) [f]).2
  pruneOldFrames (reel cfg) W (releasePending (reel cfg) W (st.sendEvent (.newHead f none)) ((reel cfg).frameId f))

inductive Inserted : TimeReel GlobalFrame GlobalClock → Prop
  | known (has : st.Has ((reel cfg).frameId f)) : Inserted st
  | rejected (fresh : ¬st.Has ((reel cfg).frameId f)) (root : RootFrame cfg st f) (taken : st.root ≠ none) :
      Inserted (noteEquivocations (reel cfg) st f)
  | unpersisted (fresh : ¬st.Has ((reel cfg).frameId f)) (root : RootFrame cfg st f)
      (free : st.root = none ∨ cfg.archiveMode = false ∧ ∀ r, st.root.bind st.frameOf = some r → f.frameNumber < r.frameNumber)
      (fails : W.materialize f = false) : Inserted (plantHead (reel cfg) (noteEquivocations (reel cfg) st f) f)
  | root (fresh : ¬st.Has ((reel cfg).frameId f)) (root : RootFrame cfg st f)
      (free : st.root = none ∨ cfg.archiveMode = false ∧ ∀ r, st.root.bind st.frameOf = some r → f.frameNumber < r.frameNumber)
      (succeeds : W.materialize f = true) : Inserted (planted cfg W (noteEquivocations (reel cfg) st f) f)
  | dropped (fresh : ¬st.Has ((reel cfg).frameId f)) (inner : ¬RootFrame cfg st f) (pruning : cfg.archiveMode = false)
      (unknown : ∀ id g, st.frameOf id = some g → (reel cfg).selector g ≠ f.parentSelector) :
      Inserted ((noteEquivocations (reel cfg) st f).visit W).2
  | pending (fresh : ¬st.Has ((reel cfg).frameId f)) (inner : ¬RootFrame cfg st f)
      (unknown : ∀ id g, st.frameOf id = some g → (reel cfg).selector g ≠ f.parentSelector) :
      Inserted (((noteEquivocations (reel cfg) st f).visit W).2.withTree
        (((noteEquivocations (reel cfg) st f).visit W).2.addPendingFrame (reel cfg) f))
  | connected (p : Bytes) (g : GlobalFrame) (fresh : ¬st.Has ((reel cfg).frameId f)) (inner : ¬RootFrame cfg st f)
      (parent : st.frameOf p = some g) (selector : (reel cfg).selector g = f.parentSelector) :
      Inserted (connect (reel cfg) W now ((noteEquivocations (reel cfg) st f).visit W).2 f p)

theorem inserted : Inserted cfg W now st f (insert cfg W now st f).2 := by
  obtain ⟨e, ev, hnt⟩ := noteEquivocations_eq (reel cfg) st f
  have hrt : (noteEquivocations (reel cfg) st f).root = st.root := by rw [hnt]
  have hnd : (noteEquivocations (reel cfg) st f).nodes = st.nodes := by rw [hnt]
  have hfm : (noteEquivocations (reel cfg) st f).frameOf = st.frameOf := frameOf_noteEquivocations
  have hpl : RootFrame cfg st f → ¬st.Has ((reel cfg).frameId f) →
      Inserted cfg W now st f (insertGenesisFrame cfg W (noteEquivocations (reel cfg) st f) f).2 := by
    intro hroo hfr
    rw [insertGenesisFrame]
    rw [hrt, hfm]
    split_ifs with htk ho
    · refine .rejected hfr hroo fun hnn => ?_
      rw [hnn] at htk
      cases htk
    · refine .rejected hfr hroo fun hnn => ?_
      rw [hnn] at ho
      cases ho
    · have hfree : st.root = none ∨
          cfg.archiveMode = false ∧ ∀ r, st.root.bind st.frameOf = some r → f.frameNumber < r.frameNumber := by
        cases hr : st.root with
        | none => exact .inl rfl
        | some r =>
          rw [hr] at htk ho
          refine .inr ⟨by simpa using htk, fun root hrt => ?_⟩
          rw [hrt] at ho
          simpa using ho
      cases hm : W.materialize f with
      | true =>
        have hok : persistCanonicalFrames (reel cfg) W (plantHead (reel cfg) (noteEquivocations (reel cfg) st f) f) [f] =
            (true, (persistCanonicalFrames (reel cfg) W
              (plantHead (reel cfg) (noteEquivocations (reel cfg) st f) f) [f]).2) := by
          rw [persistCanonicalFrames]
          simp [hm]
        rw [hok]
        exact .root hfr hroo hfree hm
      | false =>
        have hfl : persistCanonicalFrames (reel cfg) W (plantHead (reel cfg) (noteEquivocations (reel cfg) st f) f) [f] =
            (false, plantHead (reel cfg) (noteEquivocations (reel cfg) st f) f) := by
          rw [persistCanonicalFrames]
          simp [hm]
        rw [hfl]
        exact .unpersisted hfr hroo hfree hm
  rw [insert]
  dsimp only
  rw [hnd, hrt]
  split_ifs with hh hgen hpse
  · exact .known hh
  · exact hpl (.inl hgen) hh
  · refine hpl (.inr ?_) hh
    simpa [and_assoc] using hpse
  · have hin : ¬RootFrame cfg st f := by
      rintro (h | ⟨harc, hr, hn⟩)
      · exact hgen h
      · exact hpse (by simp [harc, hr, hn])
    have hsp := findNodeBySelector_spec (reel cfg) W (noteEquivocations (reel cfg) st f) f.parentSelector
    rw [hfm] at hsp
    rcases hsp with ⟨p, g, hfn, hp, hs⟩ | ⟨hfn, hu⟩
    · have hres : findNodeBySelector (reel cfg) W (noteEquivocations (reel cfg) st f) f.parentSelector =
          (some p, ((noteEquivocations (reel cfg) st f).visit W).2) := Prod.ext hfn rfl
      rw [hres]
      have hp' : ((noteEquivocations (reel cfg) st f).visit W).2.frameOf p = some g := by
        rw [← hp, ← hfm]
        rfl
      dsimp only
      rw [insertBelow_eq hp' hs]
      exact .connected p g hh hin hp hs
    · have hres : findNodeBySelector (reel cfg) W (noteEquivocations (reel cfg) st f) f.parentSelector =
          (none, ((noteEquivocations (reel cfg) st f).visit W).2) := Prod.ext hfn rfl
      rw [hres]
      dsimp only
      split_ifs with ho
      · refine .dropped hh hin ?_ hu
        rw [isTooOld] at ho
        simp only [Bool.and_eq_true, Bool.not_eq_true'] at ho
        exact ho.1
      · exact .pending hh hin hu

theorem reached_insert (h : Reached (reel cfg) W st) : Reached (reel cfg) W (insert cfg W now st f).2 := by
  have hins := inserted cfg W now st f
  generalize (insert cfg W now st f).2 = st' at hins ⊢
  cases hins with
  | known => exact h
  | rejected => exact h.note f
  | unpersisted fresh => exact (h.note f).plant f (has_noteEquivocations.not.mpr fresh)
  | root fresh =>
    exact ((((h.note f).plant f (has_noteEquivocations.not.mpr fresh)).persist [f]).send _ |>.release _).prune
  | dropped => exact (h.note f).visit
  | pending => exact (h.note f).visit.wait f
  | connected p g fresh _ parent selector =>
    exact (h.note f).visit.connect now (has_noteEquivocations.not.mpr fresh)
      ((congrFun frameOf_noteEquivocations p).trans parent) selector

theorem reached_run (calls : List (Int × GlobalFrame)) : Reached (reel cfg) W (run cfg W calls) :=
  List.foldlRecOn calls _ (.new _) fun _ hst call _ => reached_insert cfg W call.1 _ call.2 hst

end GlobalTimeReel

/-! ### The reel of an app shard -/

namespace AppTimeReel

open TimeReel

variable (cfg : AppConfig) (W : World AppShardFrame) (now : Int) (st : TimeReel AppShardFrame ShardClock)
  (f : AppShardFrame)

/-- The state after the checks, with the frame staged. -/
def noted : TimeReel AppShardFrame ShardClock := stageFrame (noteEquivocations (reel cfg) st f) f

def planted : TimeReel AppShardFrame ShardClock :=
  let st := (plantHead (reel cfg) st f).sendEvent (.newHead f none)
  (persistCanonicalFrames (reel cfg) W
    (pruneOldFrames (reel cfg) W (releasePending (reel cfg) W st ((reel cfg).frameId f))) [f]).2

inductive Inserted : TimeReel AppShardFrame ShardClock → Prop
  | foreign (address : f.address ≠ cfg.address) : Inserted st
  | known (has : st.Has ((reel cfg).frameId f)) : Inserted st
  | rejected (address : f.address = cfg.address) (fresh : ¬st.Has ((reel cfg).frameId f)) (genesis : f.frameNumber = 0)
      (taken : st.root ≠ none) : Inserted (noted cfg st f)
  | root (address : f.address = cfg.address) (fresh : ¬st.Has ((reel cfg).frameId f)) (genesis : f.frameNumber = 0)
      (free : st.root = none) : Inserted (planted cfg W (noted cfg st f) f)
  | pending (address : f.address = cfg.address) (fresh : ¬st.Has ((reel cfg).frameId f)) (inner : f.frameNumber ≠ 0)
      (unknown : ∀ id g, st.frameOf id = some g → (reel cfg).selector g ≠ f.parentSelector) :
      Inserted (((noted cfg st f).visit W).2.withTree (((noted cfg st f).visit W).2.addPendingFrame (reel cfg) f))
  | connected (p : Bytes) (g : AppShardFrame) (address : f.address = cfg.address)
      (fresh : ¬st.Has ((reel cfg).frameId f)) (inner : f.frameNumber ≠ 0) (parent : st.frameOf p = some g)
      (selector : (reel cfg).selector g = f.parentSelector) :
      Inserted (connect (reel cfg) W now ((noted cfg st f).visit W).2 f p)

theorem noted_eq : ∃ equivocators events,
    noted cfg st f = { st with equivocators, events, store := st.store.stage f } := by
  obtain ⟨e, ev, hnt⟩ := noteEquivocations_eq (reel cfg) st f
  exact ⟨e, ev, by rw [noted, hnt]; rfl⟩

variable {cfg st f} in
@[simp] theorem frameOf_noted : (noted cfg st f).frameOf = st.frameOf := frameOf_noteEquivocations (R := reel cfg)

variable {cfg st f} in
@[simp] theorem has_noted {id : Bytes} : (noted cfg st f).Has id ↔ st.Has id := has_noteEquivocations (R := reel cfg)

theorem inserted : Inserted cfg W now st f (insert cfg W now st f).2 := by
  obtain ⟨e, ev, hnt⟩ := noted_eq cfg st f
  have hrt : (noted cfg st f).root = st.root := by rw [hnt]
  have hfr : (noted cfg st f).frameOf = st.frameOf := frameOf_noted
  have hu : stageFrame (noteEquivocations (reel cfg) st f) f = noted cfg st f := rfl
  rw [insert]
  dsimp only
  rw [hu]
  split_ifs with hadr hh hgen
  · exact .foreign hadr
  · exact .known hh
  · rw [insertGenesisFrame]
    rw [hrt]
    split_ifs with htk
    · refine .rejected (not_not.mp hadr) hh hgen fun hnn => ?_
      rw [hnn] at htk
      cases htk
    · exact .root (not_not.mp hadr) hh hgen (by simpa using htk)
  · have hsp := findNodeBySelector_spec (reel cfg) W (noted cfg st f) f.parentSelector
    rw [hfr] at hsp
    rcases hsp with ⟨p, g, hfn, hp, hs⟩ | ⟨hfn, hunk⟩
    · have hres : findNodeBySelector (reel cfg) W (noted cfg st f) f.parentSelector =
          (some p, ((noted cfg st f).visit W).2) := Prod.ext hfn rfl
      rw [hres]
      have hp' : ((noted cfg st f).visit W).2.frameOf p = some g := by
        rw [← hp, ← hfr]
        rfl
      dsimp only
      rw [insertBelow_eq hp' hs]
      exact .connected p g (not_not.mp hadr) hh hgen hp hs
    · have hres : findNodeBySelector (reel cfg) W (noted cfg st f) f.parentSelector =
          (none, ((noted cfg st f).visit W).2) := Prod.ext hfn rfl
      rw [hres]
      exact .pending (not_not.mp hadr) hh hgen hunk

theorem reached_insert (h : Reached (reel cfg) W st) : Reached (reel cfg) W (insert cfg W now st f).2 := by
  have hn : Reached (reel cfg) W (noted cfg st f) := (h.note f).stage _
  have hins := inserted cfg W now st f
  generalize (insert cfg W now st f).2 = st' at hins ⊢
  cases hins with
  | foreign => exact h
  | known => exact h
  | rejected => exact hn
  | root _ fresh =>
    exact (((hn.plant f (has_noted.not.mpr fresh)).send _).release _).prune.persist [f]
  | pending => exact hn.visit.wait f
  | connected p g _ fresh _ parent selector =>
    exact hn.visit.connect now (has_noted.not.mpr fresh) ((congrFun frameOf_noted p).trans parent) selector

theorem reached_run (calls : List (Int × AppShardFrame)) : Reached (reel cfg) W (run cfg W calls) :=
  List.foldlRecOn calls _ (.new _) fun _ hst call _ => reached_insert cfg W call.1 _ call.2 hst

end AppTimeReel

/-- Whatever is inserted, links, depths and selectors of the nodes agree, and the head is one of them. -/
theorem reels_linked (global : GlobalConfig) (globalWorld : World GlobalFrame) (app : AppConfig)
    (appWorld : World AppShardFrame) :
    (∀ calls, (GlobalTimeReel.run global globalWorld calls).Sound (GlobalTimeReel.reel global)) ∧
      ∀ calls, (AppTimeReel.run app appWorld calls).Sound (AppTimeReel.reel app) :=
  ⟨fun calls => (GlobalTimeReel.reached_run _ _ calls).sound, fun calls => (AppTimeReel.reached_run _ _ calls).sound⟩

end Quilibrium
