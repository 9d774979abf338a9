import Mathlib.Data.List.TakeWhile
import Quilibrium.Theorems.ReelInsert

/-! A reorganisation: the old branch is reverted up to and including the last common ancestor. -/

namespace Quilibrium
open List FrameTree

variable {F S : Type}

/-! ### The last common ancestor -/

namespace FrameTree

/-- The deepest node that is on both lineages. -/
def LastCommon (t : FrameTree F) (o n a : Bytes) : Prop :=
  a ∈ t.lineage o ∧ a ∈ t.lineage n ∧ ∀ c, c ∈ t.lineage o → c ∈ t.lineage n → c ∈ t.lineage a

def below (t : FrameTree F) (a x : Bytes) : List Bytes := (t.lineage x).takeWhile (· ≠ a)

variable {R : Reel F S} {t : FrameTree F} {o n a x c : Bytes} {f : F}

theorem notMem_below : a ∉ t.below a x := fun h => by simpa using mem_takeWhile_imp h

theorem self_mem_below (h : t.WF R) (hne : x ≠ a) : x ∈ t.below a x := by
  rw [below, lineage]
  cases hp : t.parentOf x with
  | none => simp [Lineage.lineage_none hp, hne]
  | some p => simp [Lineage.lineage_some h.graded hp, hne]

theorem LastCommon.unique (h : t.WF R) {a' : Bytes} (ha : t.LastCommon o n a) (ha' : t.LastCommon o n a') : a = a' := by
  rcases Lineage.eq_or_depth_lt h.graded (ha'.2.2 a ha.1 ha.2.1) with heq | hlt
  · exact heq
  · have := Lineage.depth_le h.graded (ha.2.2 a' ha'.1 ha'.2.1)
    omega

/-- `findCommonAncestor` finds the last common ancestor, and the way from the first node up to it. -/
theorem findCommonAncestor_spec (h : t.WF R) (o n : Bytes) :
    (∃ a, t.LastCommon o n a ∧ t.findCommonAncestor o n = (some a, t.below a o ++ [a])) ∨
      ((∀ a, ¬t.LastCommon o n a) ∧ t.findCommonAncestor o n = (none, [])) := by
  rw [findCommonAncestor]
  cases hfn : (t.lineage n).find? fun id => (t.lineage o).contains id with
  | none =>
    refine .inr ⟨fun a ha => ?_, rfl⟩
    exact find?_eq_none.mp hfn a ha.2.1 (contains_iff_mem.mpr ha.1)
  | some a =>
    obtain ⟨hin, as, bs, heq, has⟩ := find?_eq_some_iff_append.mp hfn
    have hao : a ∈ t.lineage o := contains_iff_mem.mp hin
    have han : a ∈ t.lineage n := mem_of_find?_eq_some hfn
    have hnot : ∀ c ∈ as, c ∉ t.lineage o := fun c hc hm => by
      have := has c hc
      rw [contains_iff_mem.mpr hm] at this
      cases this
    -- what follows `a` on the second lineage is the lineage of `a`
    have htl : t.lineage a = a :: bs := by
      have hsp := Lineage.lineage_eq_append h.graded han
      change t.lineage n = (t.lineage n).takeWhile (· ≠ a) ++ t.lineage a at hsp
      have hpre : (as ++ a :: bs).takeWhile (· ≠ a) = as := by
        rw [takeWhile_append_of_pos]
        · simp
        · intro c hc
          exact decide_eq_true fun hca => hnot c hc (by rw [hca]; exact hao)
      rw [heq, hpre] at hsp
      exact (append_cancel_left hsp).symm
    refine .inl ⟨a, ⟨hao, han, fun c hco hcn => ?_⟩, ?_⟩
    · rw [heq] at hcn
      rw [htl]
      exact (mem_append.mp hcn).resolve_left fun hc => hnot c hc hco
    · exact congrArg (some a, ·) (Lineage.through_eq hao)

theorem lastCommon_of_find (h : t.WF R) (hfn : (t.findCommonAncestor o n).1 = some a) : t.LastCommon o n a := by
  rcases findCommonAncestor_spec h o n with ⟨a', ha', heq⟩ | ⟨-, heq⟩
  · rw [heq] at hfn
    rwa [← Option.some.inj hfn]
  · rw [heq] at hfn
    cases hfn

theorem frames_singleton (h : t.frameOf a = some f) : t.frames [a] = [f] := by
  rw [frames, filterMap_cons, h]
  rfl

end FrameTree

namespace TimeReel

variable {R : Reel F S} {W : World F} {st : TimeReel F S} {o n a newNode : Bytes}

/-! ### What a reorganisation does -/

theorem reorganize_effects (ha : st.findCommonAncestor o n = (some a, st.below a o ++ [a])) :
    (reorganize R W st o n).effects =
      st.effects ++ undone R W (st.frames (st.below a o ++ [a])) ++ committed W (st.frames (st.below a n).reverse) := by
  rw [reorganize]
  generalize hst : ((st.frameOf n).elim { st with head := some n } fun f =>
    { st with head := some n }.sendEvent (.forkDetected f (st.frameOf o))) = st₁
  have htr : st₁.toFrameTree = st.toFrameTree := by
    rw [← hst]
    cases st.frameOf n <;> rfl
  have heff : st₁.effects = st.effects := by
    rw [← hst]
    cases st.frameOf n <;> rfl
  have hfn : st₁.findCommonAncestor o n = (some a, st.below a o ++ [a]) := by rw [htr, ha]
  rw [hfn]
  rw [emitReplay_effects, rewind_effects, rewind_tree, htr, heff]
  rfl

theorem evaluate_reorganizes (h : st.Sound R) (hnew : st.Has newNode) (ho : st.head = some o)
    (hn : (evaluateForkChoice R W st newNode).head = some n) (hfr : o ∉ st.lineage n) :
    st.IsTop n ∧ evaluateForkChoice R W st newNode = reorganize R W (findLeafNodes W st).2 o n := by
  have hmv : ∀ chosen persisted, st.IsTop chosen →
      evaluateForkChoice R W st newNode = updateHead R W (findLeafNodes W st).2 o chosen persisted →
      st.IsTop n ∧ evaluateForkChoice R W st newNode = reorganize R W (findLeafNodes W st).2 o n := by
    intro chosen persisted ht heq
    have hhd := updateHead_head R W (findLeafNodes W st).2 o chosen persisted ho
    rw [heq, hhd, Option.some_inj] at hn
    subst hn
    have hne : chosen ≠ o := fun hsm => hfr (by rw [hsm]; exact h.tree.mem_lineage_self)
    refine ⟨ht, heq.trans ?_⟩
    rw [updateHead, if_neg hne, if_neg]
    intro hanc
    exact hfr (contains_iff_mem.mp hanc)
  cases evaluated R W ho newNode with
  | stay _ _ heq =>
    rw [heq] at hn
    cases ho.symm.trans hn
    exact absurd h.tree.mem_lineage_self hfr
  | extend events single depth heq =>
    rw [heq] at hn
    have hnd : some newNode = some n := (persist_head R W _ _).symm.trans hn
    cases hnd
    -- both nodes are on the way to the only leaf
    obtain ⟨leaf, hlf, hm⟩ := h.tree.exists_leaf (h.head ho)
    obtain ⟨leaf', hlf', hm'⟩ := h.tree.exists_leaf hnew
    rw [single leaf' leaf hlf' hlf] at hm'
    exact absurd (Lineage.mem_of_depth_le h.tree.graded hm hm' depth.le) hfr
  | deepest chosen ht _ heq | best chosen ht _ _ heq => exact hmv chosen _ ht heq

/-! ### The boundary -/

/-- The old branch was reverted, newest first, down to the last common ancestor, and the new one materialised, oldest
    first. -/
def Switched (st st' : TimeReel F S) (o n a : Bytes) : Prop :=
  st'.effects =
    st.effects ++ (st.frames (st.below a o)).map .reverted ++ (st.frames (st.below a n).reverse).map .materialized

theorem effects_inj {us us' ms ms' : List F}
    (h : us.map Effect.reverted ++ ms.map Effect.materialized = us'.map Effect.reverted ++ ms'.map Effect.materialized) :
    us = us' ∧ ms = ms' := by
  induction us generalizing us' with
  | nil =>
    cases us' with
    | nil => exact ⟨rfl, map_injective_iff.mpr (fun _ _ h => Effect.materialized.inj h) h⟩
    | cons u us' =>
      cases ms with
      | nil => cases h
      | cons m ms => cases h
  | cons u us ih =>
    cases us' with
    | nil =>
      cases ms' with
      | nil => cases h
      | cons m ms' => cases h
    | cons u' us' =>
      obtain ⟨hu, hrs⟩ := cons.inj h
      obtain ⟨hus, hms⟩ := ih hrs
      exact ⟨by rw [Effect.reverted.inj hu, hus], hms⟩

/-- The frame above the branch is passed over and none on it is, and all hooks succeed. -/
structure CleanSwitch (R : Reel F S) (W : World F) (st : TimeReel F S) (o n a : Bytes) : Prop where
  ancestor : ∀ f, st.frameOf a = some f → R.skipsRewind f = true
  reverts : ∀ f ∈ st.frames (st.below a o), R.skipsRewind f = false ∧ W.revert f = true
  replays : ∀ f ∈ st.frames (st.below a n), W.materialize f = true

theorem committed_eq (frames : List F) : committed W frames = frames.map .materialized ↔ ∀ f ∈ frames, W.materialize f = true := by
  rw [committed]
  split_ifs with hall
  · exact ⟨fun _ => all_eq_true.mp hall, fun _ => rfl⟩
  · constructor
    · intro hnil
      rw [map_eq_nil_iff.mp hnil.symm] at hall
      exact absurd rfl hall
    · exact fun h => absurd (all_eq_true.mpr h) hall

theorem exists_committed (W : World F) (frames : List F) : ∃ ms : List F, committed W frames = ms.map Effect.materialized := by
  rw [committed]
  split_ifs
  · exact ⟨frames, rfl⟩
  · exact ⟨[], rfl⟩

theorem exists_undone (R : Reel F S) (W : World F) (frames : List F) :
    ∃ us : List F, undone R W frames = us.map Effect.reverted := by
  rw [undone]
  split_ifs
  · exact ⟨_, rfl⟩
  · exact ⟨[], rfl⟩

theorem undone_eq (h : st.Sound R) (hne : o ≠ a) (ho : st.Has o) {fa : F} (hfa : st.frameOf a = some fa) :
    undone R W (st.frames (st.below a o ++ [a])) = (st.frames (st.below a o)).map .reverted ↔
      R.skipsRewind fa = true ∧ ∀ f ∈ st.frames (st.below a o), R.skipsRewind f = false ∧ W.revert f = true := by
  obtain ⟨fo, hfo⟩ := has_iff_frameOf.mp ho
  have hm : fo ∈ st.frames (st.below a o) := mem_frames.mpr ⟨o, self_mem_below h.tree hne, hfo⟩
  rw [frames, filterMap_append, ← frames, ← frames, frames_singleton hfa, undone, filter_append]
  constructor
  · intro heq
    split_ifs at heq with hall
    · have hfrs := map_injective_iff.mpr (fun _ _ hinj => Effect.reverted.inj hinj) heq
      cases hsk : R.skipsRewind fa with
      | false =>
        -- the ancestor would be one of the frames below it
        rw [filter_cons, hsk] at hfrs
        have hin : fa ∈ st.frames (st.below a o) := by
          rw [← hfrs]
          simp
        obtain ⟨id, hid, hf⟩ := mem_frames.mp hin
        rw [← h.tree.frameId hf, h.tree.frameId hfa] at hid
        exact absurd hid notMem_below
      | true =>
        rw [filter_cons, hsk] at hfrs hall
        simp only [Bool.not_true, Bool.false_eq_true, if_false, filter_nil, append_nil] at hfrs hall
        have hkp := filter_eq_self.mp hfrs
        rw [hfrs] at hall
        exact ⟨rfl, fun f hf => ⟨by simpa using hkp f hf, all_eq_true.mp hall f hf⟩⟩
    · rw [map_eq_nil_iff.mp heq.symm] at hm
      cases hm
  · rintro ⟨hsk, hbl⟩
    have hkp : (st.frames (st.below a o)).filter (fun f => !R.skipsRewind f) = st.frames (st.below a o) :=
      filter_eq_self.mpr fun f hf => by simp [(hbl f hf).1]
    rw [hkp, filter_cons, hsk]
    simp only [Bool.not_true, Bool.false_eq_true, if_false, filter_nil, append_nil]
    rw [if_pos (all_eq_true.mpr fun f hf => (hbl f hf).2)]

theorem switched_iff (h : st.Sound R) (hnew : st.Has newNode) (ho : st.head = some o)
    (hn : (evaluateForkChoice R W st newNode).head = some n) (hfr : o ∉ st.lineage n) :
    (∃ a, st.LastCommon o n a ∧ Switched st (evaluateForkChoice R W st newNode) o n a) ↔
      ∃ a, st.LastCommon o n a ∧ CleanSwitch R W st o n a := by
  obtain ⟨ht, heq⟩ := evaluate_reorganizes h hnew ho hn hfr
  refine exists_congr fun a => and_congr_right fun ha => ?_
  have hao : o ≠ a := fun hsm => hfr (hsm ▸ ha.2.1)
  have haH := h.tree.has_of_mem_lineage (h.head ho) ha.1
  obtain ⟨fa, hfa⟩ := has_iff_frameOf.mp haH
  rcases findCommonAncestor_spec h.tree o n with ⟨a', ha', hfn⟩ | ⟨hnn, -⟩
  · cases ha.unique h.tree ha'
    have heff : (evaluateForkChoice R W st newNode).effects = st.effects ++
        undone R W (st.frames (st.below a o ++ [a])) ++ committed W (st.frames (st.below a n).reverse) := by
      rw [heq]
      exact reorganize_effects hfn
    have hu := undone_eq (W := W) h hao (h.head ho) hfa
    have hc := committed_eq (W := W) (st.frames (st.below a n).reverse)
    have hr : ∀ f, f ∈ st.frames (st.below a n).reverse ↔ f ∈ st.frames (st.below a n) := by
      intro f
      simp [mem_frames, mem_reverse]
    rw [Switched, heff, append_assoc, append_assoc, append_cancel_left_eq]
    constructor
    · intro hsm
      obtain ⟨us, hus⟩ := exists_undone R W (st.frames (st.below a o ++ [a]))
      obtain ⟨ms, hms⟩ := exists_committed W (st.frames (st.below a n).reverse)
      rw [hus, hms] at hsm
      obtain ⟨rfl, rfl⟩ := effects_inj hsm
      obtain ⟨hsk, hbl⟩ := hu.mp hus
      refine ⟨fun f hf => ?_, hbl, fun f hf => hc.mp hms f ((hr f).mpr hf)⟩
      rwa [Option.some.inj (hf.symm.trans hfa)]
    · intro hcl
      rw [hu.mpr ⟨hcl.ancestor fa hfa, hcl.reverts⟩, hc.mpr fun f hf => hcl.replays f ((hr f).mp hf)]
  · exact absurd ha (hnn a)

end TimeReel

open TimeReel

/-- Wherever the fork choice can be evaluated, the global reel reverts exactly the old branch if the last common
    ancestor is frame 244200 and no other reverted frame has that number; the reel of an app shard always reverts the
    ancestor too. -/
theorem reorganization_boundary (global : GlobalConfig) (globalWorld : World GlobalFrame) (app : AppConfig)
    (appWorld : World AppShardFrame) : (∀ (st : TimeReel GlobalFrame GlobalClock) (newNode o n : Bytes),
      Reached (GlobalTimeReel.reel global) globalWorld st → st.Has newNode → st.head = some o →
      (evaluateForkChoice (GlobalTimeReel.reel global) globalWorld st newNode).head = some n → o ∉ st.lineage n →
      ((∃ a, st.LastCommon o n a ∧
          Switched st (evaluateForkChoice (GlobalTimeReel.reel global) globalWorld st newNode) o n a) ↔
        ∃ a, st.LastCommon o n a ∧ (∀ f, st.frameOf a = some f → f.frameNumber = 244200) ∧
          (∀ f ∈ st.frames (st.below a o), f.frameNumber ≠ 244200 ∧ globalWorld.revert f = true) ∧
          ∀ f ∈ st.frames (st.below a n), globalWorld.materialize f = true)) ∧
    (∀ (st : TimeReel AppShardFrame ShardClock) (newNode o n : Bytes),
      Reached (AppTimeReel.reel app) appWorld st → st.Has newNode → st.head = some o →
      (evaluateForkChoice (AppTimeReel.reel app) appWorld st newNode).head = some n → o ∉ st.lineage n →
      ¬∃ a, st.LastCommon o n a ∧
        Switched st (evaluateForkChoice (AppTimeReel.reel app) appWorld st newNode) o n a) := by
  constructor
  · intro st newNode o n hst hnew ho hn hfr
    rw [switched_iff hst.sound hnew ho hn hfr]
    refine exists_congr fun a => and_congr_right fun _ => ⟨fun h => ?_, fun ⟨hanc, hr, hrep⟩ => ?_⟩
    · refine ⟨fun f hf => of_decide_eq_true (h.ancestor f hf), fun f hf => ?_, h.replays⟩
      exact ⟨of_decide_eq_false (h.reverts f hf).1, (h.reverts f hf).2⟩
    · refine ⟨fun f hf => decide_eq_true (hanc f hf), fun f hf => ?_, hrep⟩
      exact ⟨decide_eq_false (hr f hf).1, (hr f hf).2⟩
  · intro st newNode o n hst hnew ho hn hfr h
    obtain ⟨a, ha, hcl⟩ := (switched_iff hst.sound hnew ho hn hfr).mp h
    obtain ⟨f, hf⟩ := has_iff_frameOf.mp (hst.sound.tree.has_of_mem_lineage (hst.sound.head ho) ha.1)
    cases hcl.ancestor f hf

/-! ### A fork of two branches below one frame -/

instance TimeReel.instDecidableSwitched [DecidableEq F] (st st' : TimeReel F S) (o n a : Bytes) :
    Decidable (Switched st st' o n a) := inferInstanceAs (Decidable (_ = _))

namespace GlobalTimeReel

/-- A root, the head below it, and a longer branch whose last frame was just attached. -/
def forked (network root : Nat) : TimeReel GlobalFrame GlobalClock :=
  let st := run (plainConfig network) .plain
    [(0, .plain root 0 [] none), (0, .plain (root + 1) 1 [0] none), (0, .plain (root + 1) 2 [0] none)]
  st.withTree (st.attach (reel (plainConfig network)) (.plain (root + 2) 3 [2] none)
    ((reel (plainConfig network)).frameId (.plain (root + 1) 2 [0] none)))

def forkId (f : GlobalFrame) : Bytes := Digest.padded.sum f.idText

end GlobalTimeReel

namespace AppTimeReel

def forked : TimeReel AppShardFrame ShardClock :=
  let st := run plainConfig .plain [(0, .plain 0 0 [] none), (0, .plain 1 1 [0] none), (0, .plain 1 2 [0] none)]
  st.withTree (st.attach (reel plainConfig) (.plain 2 3 [2] none) ((reel plainConfig).frameId (.plain 1 2 [0] none)))

def forkId (f : AppShardFrame) : Bytes := Digest.padded.sum f.idText

end AppTimeReel

theorem GlobalTimeReel.reached_forked : Reached (reel (plainConfig 1)) .plain (forked 1 0) :=
  (reached_run _ _ _).attach _ (.plain 1 2 [0] none) _ (by decide +kernel) (by decide +kernel) rfl

theorem AppTimeReel.reached_forked : Reached (reel plainConfig) .plain forked :=
  (reached_run _ _ _).attach _ (.plain 1 2 [0] none) _ (by decide +kernel) (by decide +kernel) rfl

/-- Both reels revert the root above the two branches. -/
theorem reorganization_reverts_ancestor :
    (∃ st o n a, Reached (GlobalTimeReel.reel (GlobalTimeReel.plainConfig 1)) .plain st ∧ st.Has n ∧ st.head = some o ∧
      (evaluateForkChoice (GlobalTimeReel.reel (GlobalTimeReel.plainConfig 1)) .plain st n).head = some n ∧
      o ∉ st.lineage n ∧ st.LastCommon o n a ∧
      (evaluateForkChoice (GlobalTimeReel.reel (GlobalTimeReel.plainConfig 1)) .plain st n).effects = st.effects ++
        [.reverted (.plain 1 1 [0] none), .reverted (.plain 0 0 [] none), .materialized (.plain 1 2 [0] none),
          .materialized (.plain 2 3 [2] none)] ∧
      ¬Switched st (evaluateForkChoice (GlobalTimeReel.reel (GlobalTimeReel.plainConfig 1)) .plain st n) o n a) ∧
    (∃ st o n a, Reached (AppTimeReel.reel AppTimeReel.plainConfig) .plain st ∧ st.Has n ∧ st.head = some o ∧
      (evaluateForkChoice (AppTimeReel.reel AppTimeReel.plainConfig) .plain st n).head = some n ∧
      o ∉ st.lineage n ∧ st.LastCommon o n a ∧
      (evaluateForkChoice (AppTimeReel.reel AppTimeReel.plainConfig) .plain st n).effects = st.effects ++
        [.reverted (.plain 1 1 [0] none), .reverted (.plain 0 0 [] none), .materialized (.plain 1 2 [0] none),
          .materialized (.plain 2 3 [2] none)] ∧
      ¬Switched st (evaluateForkChoice (AppTimeReel.reel AppTimeReel.plainConfig) .plain st n) o n a) := by
  constructor
  · refine ⟨GlobalTimeReel.forked 1 0, GlobalTimeReel.forkId (.plain 1 1 [0] none),
      GlobalTimeReel.forkId (.plain 2 3 [2] none), GlobalTimeReel.forkId (.plain 0 0 [] none),
      GlobalTimeReel.reached_forked, by decide +kernel, by decide +kernel, by decide +kernel, by decide +kernel,
      lastCommon_of_find GlobalTimeReel.reached_forked.sound.tree (by decide +kernel), by decide +kernel,
      by decide +kernel⟩
  · refine ⟨AppTimeReel.forked, AppTimeReel.forkId (.plain 1 1 [0] none),
      AppTimeReel.forkId (.plain 2 3 [2] none), AppTimeReel.forkId (.plain 0 0 [] none),
      AppTimeReel.reached_forked, by decide +kernel, by decide +kernel, by decide +kernel, by decide +kernel,
      lastCommon_of_find AppTimeReel.reached_forked.sound.tree (by decide +kernel), by decide +kernel,
      by decide +kernel⟩

theorem reorganization_at_genesis :
    ∃ a, (GlobalTimeReel.forked 0 244200).LastCommon (GlobalTimeReel.forkId (.plain 244201 1 [0] none))
        (GlobalTimeReel.forkId (.plain 244202 3 [2] none)) a ∧ Switched (GlobalTimeReel.forked 0 244200)
        (evaluateForkChoice (GlobalTimeReel.reel (GlobalTimeReel.plainConfig 0)) .plain (GlobalTimeReel.forked 0 244200)
          (GlobalTimeReel.forkId (.plain 244202 3 [2] none)))
        (GlobalTimeReel.forkId (.plain 244201 1 [0] none)) (GlobalTimeReel.forkId (.plain 244202 3 [2] none)) a := by
  have hr : Reached (GlobalTimeReel.reel (GlobalTimeReel.plainConfig 0)) .plain (GlobalTimeReel.forked 0 244200) :=
    (GlobalTimeReel.reached_run _ _ _).attach _ (.plain 244201 2 [0] none) _ (by decide +kernel) (by decide +kernel) rfl
  refine ((reorganization_boundary (GlobalTimeReel.plainConfig 0) .plain AppTimeReel.plainConfig .plain).1
    (GlobalTimeReel.forked 0 244200)
    (GlobalTimeReel.forkId (.plain 244202 3 [2] none)) (GlobalTimeReel.forkId (.plain 244201 1 [0] none))
    (GlobalTimeReel.forkId (.plain 244202 3 [2] none)) hr (by decide +kernel) (by decide +kernel)
    (by decide +kernel) (by decide +kernel)).mpr ⟨GlobalTimeReel.forkId (.plain 244200 0 [] none),
      lastCommon_of_find hr.sound.tree (by decide +kernel), ?_, by decide +kernel, by decide +kernel⟩
  have hfr : (GlobalTimeReel.forked 0 244200).frameOf (GlobalTimeReel.forkId (.plain 244200 0 [] none)) =
    some (.plain 244200 0 [] none) := by decide +kernel
  intro f hf
  rw [← Option.some.inj (hfr.symm.trans hf)]
  rfl

end Quilibrium
