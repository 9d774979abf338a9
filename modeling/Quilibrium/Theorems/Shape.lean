import Quilibrium.Theorems.ReelInsert

/-! The shape of the tree that a reel keeps. It stays, unless `Insert` links frames whose numbers do not follow each
    other, prunes side branches into trees of their own, or plants a root beside a tree that is there. -/

namespace Quilibrium
open Option FrameTree

variable {F S : Type}

namespace TimeReel

variable {R : Reel F S} {W : World F} {st st' : TimeReel F S} {K : F → Prop} {waiting : List Bytes} {f : F}

/-- The indexes of a reel describe one tree, with the head at its deepest leaf. -/
structure TreeShape (R : Reel F S) (st : TimeReel F S) : Prop where
  listed : ∀ {id f}, st.frameOf id = some f → (st.framesByNumber (R.frameNumber f)).count id = 1
  only : ∀ {number id}, id ∈ st.framesByNumber number → ∃ f, st.frameOf id = some f ∧ R.frameNumber f = number
  parent : ∀ {c}, st.Has c → st.root ≠ some c → ∃ p, st.parentOf c = some p ∧ st.Has p ∧ c ∈ st.childrenOf p
  child : ∀ {p c}, c ∈ st.childrenOf p → st.Has c ∧ st.parentOf c = some p
  depth : ∀ {c p}, st.parentOf c = some p → st.depthOf c = st.depthOf p + 1
  number : ∀ {c p f g}, st.parentOf c = some p → st.frameOf c = some f → st.frameOf p = some g →
    R.frameNumber f = R.frameNumber g + 1
  headed : (∃ c, st.Has c) → st.head ≠ none
  head : ∀ {h}, st.head = some h → st.Has h ∧ st.childrenOf h = [] ∧ ∀ c, st.Has c → st.depthOf c ≤ st.depthOf h

/-! ### The frames a reel knows -/

def Knows (st : TimeReel F S) (g : F) : Prop := (∃ id, st.frameOf id = some g) ∨ ∃ sel, g ∈ st.pending sel

def Linked (R : Reel F S) (K : F → Prop) : Prop :=
  ∀ a b, K a → K b → R.selector a = R.parentSelector b → R.frameNumber b = R.frameNumber a + 1

/-- Two frames of one number are among the newest. -/
def Recent (R : Reel F S) (K : F → Prop) : Prop :=
  ∀ a b g, K a → K b → K g → a ≠ b → R.frameNumber a = R.frameNumber b → R.frameNumber g < R.frameNumber a + 359

def With (st : TimeReel F S) (f g : F) : Prop := g = f ∨ st.Knows g

/-! ### The invariant -/

/-- The shape while nodes wait for the fork choice: these may be deeper than the head. -/
structure Neat (R : Reel F S) (K : F → Prop) (waiting : List Bytes) (st : TimeReel F S) : Prop where
  sound : st.Sound R
  knows : ∀ g, st.Knows g → K g
  indexed : st.Indexed R
  listed : st.Listed
  numbers : ∀ {c p f g}, st.parentOf c = some p → st.frameOf c = some f → st.frameOf p = some g →
    R.frameNumber f = R.frameNumber g + 1
  rooted : ∀ c, st.Has c → st.parentOf c = none → st.root = some c
  deep : ∀ {h c}, st.head = some h → st.Has c → c ∉ waiting → st.depthOf c ≤ st.depthOf h

namespace Neat

theorem new (R : Reel F S) (store : S) : Neat R (fun _ => False) [] (new store) where
  sound := sound_new R store
  knows g hg := by
    obtain ⟨id, h⟩ | ⟨sel, h⟩ := hg
    · cases h
    · cases h
  indexed := indexed_empty R
  listed number := List.nodup_nil
  numbers h := by cases h
  rooted c h := by cases h
  deep h := by cases h

variable (h : Neat R K waiting st)
include h

theorem grounded : st.Grounded := fun c hc hnn => ⟨c, h.rooted c hc hnn, hc, hnn, rfl⟩

theorem congr (hrt : st'.root = st.root) (hnd : st'.nodes = st.nodes)
    (hls : st'.framesByNumber = st.framesByNumber) (hpn : ∀ sel g, g ∈ st'.pending sel → g ∈ st.pending sel)
    (hhd : st'.head = st.head) : Neat R K waiting st' := by
  have hfr : st'.frameOf = st.frameOf := funext fun id => by rw [frameOf, hnd]; rfl
  have hprn : st'.parentOf = st.parentOf := funext fun id => by rw [parentOf, hnd]; rfl
  have hdp : st'.depthOf = st.depthOf := funext fun id => by rw [depthOf, hnd]; rfl
  have hhas : ∀ id, st'.Has id ↔ st.Has id := fun id => by rw [FrameTree.Has, hnd]; rfl
  refine ⟨⟨h.sound.tree.congr hnd, fun sel g hg => h.sound.keyed sel g (hpn sel g hg), fun hid => ?_,
    fun hid id hc => h.sound.headed (hhd ▸ hid) id ((hhas id).mp hc)⟩, fun g hg => h.knows g ?_, ?_, ?_, ?_, ?_, ?_⟩
  · exact (hhas _).mpr (h.sound.head (hhd ▸ hid))
  · exact hg.imp (Exists.imp fun id hid => hfr ▸ hid) (Exists.imp fun sel hs => hpn sel g hs)
  · intro number id
    rw [hls, hfr]
    exact h.indexed number id
  · intro number
    rw [hls]
    exact h.listed number
  · rw [hprn, hfr]
    exact h.numbers
  · intro c hc hnn
    rw [hrt]
    exact h.rooted c ((hhas c).mp hc) (hprn ▸ hnn)
  · rw [hhd, hdp]
    exact fun hh hc => h.deep hh ((hhas _).mp hc)

theorem mono {K' : F → Prop} (hK : ∀ g, st.Knows g → K' g) : Neat R K' waiting st :=
  ⟨h.sound, hK, h.indexed, h.listed, h.numbers, h.rooted, h.deep⟩

theorem addPendingFrame (hf : K f) : Neat R K waiting (st.withTree (st.addPendingFrame R f)) := by
  refine ⟨h.sound.addPendingFrame f, fun g hg => ?_, h.indexed, h.listed, h.numbers, h.rooted, h.deep⟩
  rcases hg with hg | ⟨sel, hg⟩
  · exact h.knows g (.inl hg)
  · rcases mem_pending_addPendingFrame.mp hg with hg | ⟨rfl, -⟩
    · exact h.knows g (.inr ⟨sel, hg⟩)
    · exact hf

theorem takePending (sel : Bytes) : Neat R K waiting (st.withTree (st.takePending R sel)) := by
  have hpn : ∀ sel' g, g ∈ (st.takePending R sel).pending sel' → g ∈ st.pending sel' := fun _ _ =>
    mem_pending_takePending
  obtain ⟨pendingFrames, heq⟩ : ∃ pendingFrames, st.takePending R sel = { st.toFrameTree with pendingFrames } := by
    rw [FrameTree.takePending]
    split_ifs
    · exact ⟨_, rfl⟩
    · exact ⟨_, rfl⟩
  rw [heq] at hpn ⊢
  exact h.congr rfl rfl rfl hpn rfl

theorem expire (now : Int) : Neat R K waiting (st.withTree (st.pruneOldPendingFrames R now)) :=
  h.congr rfl rfl rfl (fun _ _ => mem_pending_pruneOldPendingFrames) rfl

theorem attach (hln : Linked R K) (hf : K f) {p : Bytes} {g : F} (hfr : ¬st.Has (R.frameId f))
    (hp : st.frameOf p = some g) (hs : R.selector g = R.parentSelector f) :
    Neat R K (R.frameId f :: waiting) (st.withTree (st.attach R f p)) := by
  have hpH : st.Has p := has_iff_frameOf.mpr ⟨g, hp⟩
  have hfm : ∀ c, (st.attach R f p).frameOf c = if c = R.frameId f then some f else st.frameOf c := fun c =>
    frameOf_attach hfr hpH
  have hprn : ∀ c, (st.attach R f p).parentOf c = if c = R.frameId f then some p else st.parentOf c := fun c =>
    parentOf_attach hfr hpH
  have hdp : ∀ c, (st.attach R f p).depthOf c = if c = R.frameId f then st.depthOf p + 1 else st.depthOf c := fun c =>
    depthOf_attach hfr hpH
  have ho : ∀ {c}, st.Has c → c ≠ R.frameId f := fun hc heq => hfr (heq ▸ hc)
  refine ⟨h.sound.attach hfr hpH fun g' hg' => ?_, fun g' hg' => ?_, h.indexed.attach hfr hpH,
    h.listed.attach hfr h.indexed, ?_, fun c hc hnn => ?_, ?_⟩
  · rw [some.inj (hg'.symm.trans hp)]
    exact hs
  · rcases hg' with ⟨id, hid⟩ | hpn
    · change (st.attach R f p).frameOf id = some g' at hid
      rw [hfm] at hid
      split_ifs at hid
      · exact some.inj hid ▸ hf
      · exact h.knows g' (.inl ⟨id, hid⟩)
    · exact h.knows g' (.inr hpn)
  · intro c q f' g' hq hf' hg'
    change (st.attach R f p).parentOf c = some q at hq
    change (st.attach R f p).frameOf c = some f' at hf'
    change (st.attach R f p).frameOf q = some g' at hg'
    rw [hprn] at hq
    rw [hfm] at hf' hg'
    split_ifs at hq with hc
    · rw [if_pos hc] at hf'
      rw [← some.inj hq, if_neg (ho hpH), hp] at hg'
      rw [← some.inj hf', ← some.inj hg']
      exact hln g f (h.knows g (.inl ⟨p, hp⟩)) hf hs
    · rw [if_neg hc] at hf'
      rw [if_neg (ho (h.sound.tree.has_parent hq))] at hg'
      exact h.numbers hq hf' hg'
  · change (st.attach R f p).parentOf c = none at hnn
    rw [hprn] at hnn
    split_ifs at hnn with hid
    exact h.rooted c (((has_attach hfr hpH).mp hc).resolve_left hid) hnn
  · intro a c ha hc hwt
    obtain ⟨hne, hwt⟩ := not_or.mp (mt List.mem_cons.mpr hwt)
    change (st.attach R f p).depthOf c ≤ (st.attach R f p).depthOf a
    rw [hdp, hdp, if_neg hne, if_neg (ho (h.sound.head ha))]
    exact h.deep ha (((has_attach hfr hpH).mp hc).resolve_left hne) hwt

end Neat

theorem Neat.evaluate {id : Bytes} (h : Neat R K (id :: waiting) st) (hid : st.Has id) :
    Neat R K waiting (evaluateForkChoice R W st id) := by
  have htr := evaluateForkChoice_tree R W st id
  refine ⟨h.sound.evaluate W hid, fun g hg => h.knows g ?_, htr ▸ h.indexed, htr ▸ h.listed, ?_, ?_, ?_⟩
  · rwa [Knows, htr] at hg
  · rw [htr]
    exact h.numbers
  · rw [htr]
    exact h.rooted
  · intro a c ha hc hwt
    rw [htr] at hc ⊢
    cases hhd : st.head with
    | none => exact absurd hid (h.sound.headed hhd id)
    | some head =>
      have hbl : c = id ∨ st.depthOf c ≤ st.depthOf head := by
        by_cases hcid : c = id
        · exact .inl hcid
        · exact .inr (h.deep hhd hc fun hm => (List.mem_cons.mp hm).elim hcid hwt)
      cases evaluated R W hhd id with
      | stay _ hle heq =>
        have hhd' : (evaluateForkChoice R W st id).head = some head := by rw [heq]; exact hhd
        rw [← some.inj (hhd'.symm.trans ha)]
        rcases hbl with rfl | hle'
        · exact hle
        · exact hle'
      | extend events _ hlt heq =>
        have hhd' : (evaluateForkChoice R W st id).head = some id := by rw [heq]; exact persist_head R W _ _
        rw [← some.inj (hhd'.symm.trans ha)]
        rcases hbl with rfl | hle
        · exact le_rfl
        · exact hle.trans hlt.le
      | deepest chosen ht _ heq | best chosen ht _ _ heq =>
        have hhd' : (evaluateForkChoice R W st id).head = some chosen := by
          rw [heq]
          exact updateHead_head R W _ _ _ _ hhd
        rw [← some.inj (hhd'.symm.trans ha)]
        exact h.sound.tree.depth_le_top ht hc

namespace Neat

theorem releases (hln : Linked R K) : Releases R W K (Neat R K) where
  sound h := h.sound
  known h hf := h.knows _ (.inr ⟨_, hf⟩)
  take sel h := h.takePending sel
  attach h hf hfr hp hs := h.attach hln hf hfr hp hs
  evaluate h hid := h.evaluate hid

theorem plant (h : Neat R K [] st) (hf : K f) (hem : ∀ id, ¬st.Has id) : Neat R K [] (st.plantHead R f) := by
  have hfr := hem (R.frameId f)
  have hnoF : ∀ id g, st.frameOf id ≠ some g := fun id g hg => hem id (has_iff_frameOf.mpr ⟨g, hg⟩)
  have hh : ∀ c, (st.plantHead R f).Has c → c = R.frameId f := fun c hc =>
    (has_plantRoot.mp hc).resolve_right (hem c)
  refine ⟨h.sound.plantHead hfr, fun g hg => ?_, h.indexed.plantRoot hfr fun id g hg => absurd hg (hnoF id g),
    h.listed.plantRoot, ?_, fun c hc _ => ?_, ?_⟩
  · rcases hg with ⟨id, hid⟩ | hpn
    · change (st.plantRoot R f).frameOf id = some g at hid
      rw [frameOf_plantRoot] at hid
      split_ifs at hid
      · exact some.inj hid ▸ hf
      · exact absurd hid (hnoF id g)
    · exact h.knows g (.inr hpn)
  · intro c p f' g' hp
    change (st.plantRoot R f).parentOf c = some p at hp
    rw [parentOf_plantRoot hfr] at hp
    exact absurd (has_of_parentOf hp) (hem c)
  · rw [hh c hc]
    rfl
  · intro a c ha hc _
    rw [hh c hc, hh a ((h.sound.plantHead hfr).head ha)]

theorem offset (h : Neat R K waiting st) {a b : Bytes} {fa fb : F} (ha : st.frameOf a = some fa)
    (hb : st.frameOf b = some fb) : R.frameNumber fa + st.depthOf b = R.frameNumber fb + st.depthOf a := by
  -- both are compared with the root
  have hrt : ∀ c fc, st.frameOf c = some fc → ∃ r fr, st.root = some r ∧ st.frameOf r = some fr ∧
      R.frameNumber fc + st.depthOf r = R.frameNumber fr + st.depthOf c := by
    intro c
    induction c using Lineage.induct h.sound.tree.graded with
    | root c hp =>
      intro fc hc
      exact ⟨c, fc, h.rooted c (has_iff_frameOf.mpr ⟨fc, hc⟩) hp, hc, rfl⟩
    | child c p hp ih =>
      intro fc hc
      obtain ⟨fp, hfp⟩ := has_iff_frameOf.mp (h.sound.tree.has_parent hp)
      obtain ⟨r, fr, hr, hfr, heq⟩ := ih fp hfp
      have := h.sound.tree.depth hp
      have := h.numbers hp hc hfp
      exact ⟨r, fr, hr, hfr, by omega⟩
  obtain ⟨r, fr, hr, hfr, hea⟩ := hrt a fa ha
  obtain ⟨r', fr', hr', hfr', heb⟩ := hrt b fb hb
  cases some.inj (hr.symm.trans hr')
  cases some.inj (hfr.symm.trans hfr')
  omega

theorem prune (h : Neat R K [] st) (hrct : Recent R K) : Neat R K [] (pruneOldFrames R W st) := by
  rcases pruneOldFrames_spec (W := W) h.sound.tree with heq | ⟨head, minDepth, hhd, hmin, hget, hkp⟩
  · rwa [heq]
  have hpn : (pruneOldFrames R W st).pending = st.pending := funext fun sel => by
    rw [FrameTree.pending, hkp.pendingFrames]
    rfl
  refine ⟨h.sound.pruneOldFrames W, fun g hg => h.knows g ?_, hkp.indexed h.indexed, hkp.listed h.listed, ?_,
    fun c hc hnn => ?_, ?_⟩
  · rw [Knows, hpn] at hg
    exact hg.imp_left (Exists.imp fun id hid => frameOf_pruned hget hid)
  · intro c p f g hp hf hg
    exact h.numbers ((parentOf_pruned hget).mp hp).1 (frameOf_pruned hget hf)
      (frameOf_pruned hget hg)
  · -- the new root stands at the depth of the node, and there are no two nodes at the least depth
    obtain ⟨r, hr, hrH, hrN, hdp⟩ := h.sound.grounded_pruneOldFrames W h.grounded c hc hnn
    suffices hrc : r = c by rw [← hrc]; exact hr
    rw [depthOf_pruned hget hrH, depthOf_pruned hget hc] at hdp
    obtain ⟨hcH, hcDe⟩ := (has_pruned hget).mp hc
    have hrH' := ((has_pruned hget).mp hrH).1
    by_cases hd : st.depthOf c = minDepth
    · by_contra hne
      obtain ⟨fc, hfc⟩ := has_iff_frameOf.mp hcH
      obtain ⟨fr, hfr⟩ := has_iff_frameOf.mp hrH'
      obtain ⟨fh, hfh⟩ := has_iff_frameOf.mp (h.sound.head hhd)
      have hfrs : fc ≠ fr := fun heq => hne (by
        rw [← h.sound.tree.frameId hfc, ← h.sound.tree.frameId hfr, heq])
      have ho := h.offset hfc hfr
      have ho' := h.offset hfc hfh
      have hm : maxTreeDepth = 360 := rfl
      have := hrct fc fr fh (h.knows fc (.inl ⟨c, hfc⟩)) (h.knows fr (.inl ⟨r, hfr⟩)) (h.knows fh (.inl ⟨head, hfh⟩))
        hfrs (by omega)
      omega
    · have hpar : ∀ a, (pruneOldFrames R W st).parentOf a = none → minDepth < st.depthOf a → st.parentOf a = none := by
        intro a ha hlt
        refine eq_none_iff_forall_ne_some.mpr fun p hp => ?_
        rw [(parentOf_pruned hget).mpr ⟨hp, hlt⟩] at ha
        cases ha
      have hc' := h.rooted c hcH (hpar c hnn (by omega))
      have hr' := h.rooted r hrH' (hpar r hrN (by omega))
      exact some.inj (hr'.symm.trans hc')
  · intro a c ha hc _
    have haH := (h.sound.pruneOldFrames W).head ha
    rw [depthOf_pruned hget hc, depthOf_pruned hget haH]
    exact h.deep (hkp.head ▸ ha) ((has_pruned hget).mp hc).1 List.not_mem_nil

theorem release (h : Neat R K waiting st) (hln : Linked R K) (id : Bytes) : Neat R K waiting (releasePending R W st id) :=
  (releases hln).release waiting h id

theorem connect (h : Neat R K [] st) (hln : Linked R K) (hr : Recent R K) (hf : K f) (now : Int) {p : Bytes}
    {g : F} (hfr : ¬st.Has (R.frameId f)) (hp : st.frameOf p = some g) (hs : R.selector g = R.parentSelector f) :
    Neat R K [] (connect R W now st f p) :=
  (releases hln).connect h hf now hfr hp hs fun h => (h.prune hr).expire now

section
variable (h : Neat R K waiting st)
include h

theorem persist (frames : List F) : Neat R K waiting (persistCanonicalFrames R W st frames).2 := by
  have htr := persist_tree R W st frames
  exact h.congr (congrArg root htr) (congrArg nodes htr) (congrArg framesByNumber htr)
    (fun sel g hg => congrArg (·.pending sel) htr ▸ hg) (persist_head R W st frames)

theorem send (event : TimeReelEvent F) : Neat R K waiting (st.sendEvent event) :=
  h.congr rfl rfl rfl (fun _ _ hg => hg) rfl

theorem visit (W : World F) : Neat R K waiting (st.visit W).2 := h.congr rfl rfl rfl (fun _ _ hg => hg) rfl

theorem settle : Neat R st.Knows waiting st := h.mono fun _ hg => hg

end

theorem note (h : Neat R st.Knows waiting st) (f : F) : Neat R (st.With f) waiting (noteEquivocations R st f) := by
  obtain ⟨e, ev, hnt⟩ := noteEquivocations_eq R st f
  rw [hnt]
  exact (h.mono fun _ hg => .inr hg).congr rfl rfl rfl (fun _ _ hg => hg) rfl

theorem shaped (h : Neat R K [] st) : TreeShape R st where
  listed hf := List.count_eq_one_of_mem (h.listed _) ((h.indexed _ _).mpr ⟨_, hf, rfl⟩)
  only hid := (h.indexed _ _).mp hid
  parent {c} hc hrt := by
    cases hp : st.parentOf c with
    | none => exact absurd (h.rooted c hc hp) hrt
    | some p => exact ⟨p, rfl, h.sound.tree.has_parent hp, h.sound.tree.mem_children hp⟩
  child hc := ⟨has_of_parentOf (h.sound.tree.parent_of_mem hc), h.sound.tree.parent_of_mem hc⟩
  depth hp := h.sound.tree.depth hp
  number := h.numbers
  headed := fun ⟨c, hc⟩ hnn => h.sound.headed hnn c hc
  head {a} ha := by
    have hdp : ∀ c, st.Has c → st.depthOf c ≤ st.depthOf a := fun c hc => h.deep ha hc List.not_mem_nil
    refine ⟨h.sound.head ha, List.eq_nil_iff_forall_not_mem.mpr fun c hc => ?_, hdp⟩
    have hp := h.sound.tree.parent_of_mem hc
    have := h.sound.tree.depth hp
    have := hdp c (has_of_parentOf hp)
    omega

end Neat

end TimeReel

open TimeReel

/-! ### The global reel -/

namespace GlobalTimeReel

variable {cfg : GlobalConfig} {W : World GlobalFrame} {st : TimeReel GlobalFrame GlobalClock} {f : GlobalFrame}

/-- Numbers follow the links, frames of one number are among the newest, and the frame is not planted as a root
    beside other nodes. -/
def Fits (cfg : GlobalConfig) (st : TimeReel GlobalFrame GlobalClock) (f : GlobalFrame) : Prop :=
  st.Has ((reel cfg).frameId f) ∨ Linked (reel cfg) (st.With f) ∧ Recent (reel cfg) (st.With f) ∧
    (f.frameNumber = genesisFrameNumber cfg → (∀ id, ¬st.Has id) ∨ cfg.archiveMode = true ∨
      ∃ r, st.root.bind st.frameOf = some r ∧ r.frameNumber ≤ f.frameNumber)

theorem empty_of_root (h : Neat (reel cfg) st.Knows [] st) (hrt : RootFrame cfg st f)
    (hgen : f.frameNumber = genesisFrameNumber cfg → (∀ id, ¬st.Has id) ∨ cfg.archiveMode = true ∨
      ∃ r, st.root.bind st.frameOf = some r ∧ r.frameNumber ≤ f.frameNumber) (hfree : st.root = none ∨
      cfg.archiveMode = false ∧ ∀ r, st.root.bind st.frameOf = some r → f.frameNumber < r.frameNumber) (id : Bytes) :
    ¬st.Has id := by
  intro hid
  obtain ⟨r, hr, hrH, -⟩ := h.sound.tree.exists_root h.grounded hid
  have hnon : st.nodes.entries ≠ [] := fun hnil => by
    rw [FrameTree.Has, OrdMap.get, hnil] at hid
    cases hid
  rcases hrt with hnum | ⟨-, -, hnil⟩
  · rcases hfree with hnn | ⟨hpru, hy⟩
    · rw [hr] at hnn
      cases hnn
    · rcases hgen hnum with hem | harc | ⟨g, hg, hle⟩
      · exact hem id hid
      · rw [hpru] at harc
        cases harc
      · have := hy g hg
        omega
  · exact hnon hnil

theorem neat_insert (now : Int) (h : Neat (reel cfg) st.Knows [] st) (hft : Fits cfg st f) :
    Neat (reel cfg) (insert cfg W now st f).2.Knows [] (insert cfg W now st f).2 := by
  have hnt := h.note f
  have hpl : ¬st.Has ((reel cfg).frameId f) → RootFrame cfg st f → (st.root = none ∨
      cfg.archiveMode = false ∧ ∀ r, st.root.bind st.frameOf = some r → f.frameNumber < r.frameNumber) →
      Neat (reel cfg) (st.With f) [] (plantHead (reel cfg) (noteEquivocations (reel cfg) st f) f) := by
    intro hfr hrt hfree
    have hem := empty_of_root h hrt (hft.resolve_left hfr).2.2 hfree
    exact hnt.plant (.inl rfl) fun id => has_noteEquivocations.not.mpr (hem id)
  have hins := inserted cfg W now st f
  generalize (insert cfg W now st f).2 = st' at hins ⊢
  cases hins with
  | known => exact h
  | rejected => exact hnt.settle
  | unpersisted fresh root free => exact (hpl fresh root free).settle
  | root fresh root free =>
    obtain ⟨hln, hr, -⟩ := hft.resolve_left fresh
    have hsent := ((hpl fresh root free).persist (W := W) [f]).send (.newHead f none)
    exact ((hsent.release hln _).prune hr).settle
  | dropped => exact (hnt.visit W).settle
  | pending => exact ((hnt.visit W).addPendingFrame (.inl rfl)).settle
  | connected p g fresh _ parent selector =>
    obtain ⟨hln, hr, -⟩ := hft.resolve_left fresh
    exact ((hnt.visit W).connect hln hr (.inl rfl) now (has_noteEquivocations.not.mpr fresh)
      ((congrFun frameOf_noteEquivocations p).trans parent) selector).settle

theorem neat_run (calls : List (Int × GlobalFrame)) (hft : ∀ done call rest, calls = done ++ call :: rest →
    Fits cfg (run cfg W done) call.2) : Neat (reel cfg) (run cfg W calls).Knows [] (run cfg W calls) := by
  exact List.foldl_inv (I := fun st => Neat (reel cfg) st.Knows [] st) (Q := fun st (call : Int × GlobalFrame) => Fits cfg st call.2)
    ((Neat.new (reel cfg) _).mono fun _ hg => hg) (fun _ call h hfit => neat_insert call.1 h hfit) hft

end GlobalTimeReel

/-! ### The reel of an app shard -/

namespace AppTimeReel

variable {cfg : AppConfig} {W : World AppShardFrame} {st : TimeReel AppShardFrame ShardClock} {f : AppShardFrame}

/-- Numbers follow the links, and frames of one number are among the newest. -/
def Fits (cfg : AppConfig) (st : TimeReel AppShardFrame ShardClock) (f : AppShardFrame) : Prop :=
  f.address ≠ cfg.address ∨ st.Has ((reel cfg).frameId f) ∨
    Linked (reel cfg) (st.With f) ∧ Recent (reel cfg) (st.With f)

theorem neat_insert (now : Int) (h : Neat (reel cfg) st.Knows [] st) (hft : Fits cfg st f) :
    Neat (reel cfg) (insert cfg W now st f).2.Knows [] (insert cfg W now st f).2 := by
  have hnt : Neat (reel cfg) (st.With f) [] (noted cfg st f) := (h.note f).congr rfl rfl rfl (fun _ _ hg => hg) rfl
  have hnew : f.address = cfg.address → ¬st.Has ((reel cfg).frameId f) →
      Linked (reel cfg) (st.With f) ∧ Recent (reel cfg) (st.With f) := fun hadr hfr =>
    (hft.resolve_left (not_not.mpr hadr)).resolve_left hfr
  have hins := inserted cfg W now st f
  generalize (insert cfg W now st f).2 = st' at hins ⊢
  cases hins with
  | foreign => exact h
  | known => exact h
  | rejected => exact hnt.settle
  | root address fresh _ free =>
    obtain ⟨hln, hrct⟩ := hnew address fresh
    have hem : ∀ id, ¬st.Has id := by
      intro id hid
      obtain ⟨r, hr, -⟩ := h.sound.tree.exists_root h.grounded hid
      rw [hr] at free
      cases free
    have hsent := (hnt.plant (f := f) (.inl rfl) fun id => has_noted.not.mpr (hem id)).send (.newHead f none)
    exact (((hsent.release (W := W) hln _).prune hrct).persist [f]).settle
  | pending => exact ((hnt.visit W).addPendingFrame (.inl rfl)).settle
  | connected p g address fresh _ parent selector =>
    obtain ⟨hln, hrct⟩ := hnew address fresh
    exact ((hnt.visit W).connect hln hrct (.inl rfl) now (has_noted.not.mpr fresh)
      ((congrFun frameOf_noted p).trans parent) selector).settle

theorem neat_run (calls : List (Int × AppShardFrame)) (hft : ∀ done call rest, calls = done ++ call :: rest →
    Fits cfg (run cfg W done) call.2) : Neat (reel cfg) (run cfg W calls).Knows [] (run cfg W calls) := by
  exact List.foldl_inv (I := fun st => Neat (reel cfg) st.Knows [] st) (Q := fun st (call : Int × AppShardFrame) => Fits cfg st call.2)
    ((Neat.new (reel cfg) _).mono fun _ hg => hg) (fun _ call h hfit => neat_insert call.1 h hfit) hft

end AppTimeReel

theorem TimeReel.fits_first {R : Reel F S} {store : S} {f : F} (hsl : R.selector f ≠ R.parentSelector f) :
    Linked R ((TimeReel.new store).With f) ∧ Recent R ((TimeReel.new store).With f) := by
  have hon : ∀ g, (TimeReel.new store).With f g → g = f := by
    rintro g (rfl | ⟨id, h⟩ | ⟨sel, h⟩)
    · rfl
    · cases h
    · cases h
  refine ⟨fun a b ha hb hs => ?_, fun a b g ha hb _ hne => absurd ((hon a ha).trans (hon b hb).symm) hne⟩
  rw [hon a ha, hon b hb] at hs
  exact absurd hs hsl

end Quilibrium
