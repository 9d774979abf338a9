import Quilibrium.Theorems.Shape

/-! The clock store of an app shard against the canonical chain: two siblings share their place. -/

namespace Quilibrium
open Function Option FrameTree

namespace ShardClock

variable {c : ShardClock} {f g : AppShardFrame}

def Stages (c : ShardClock) (g : AppShardFrame) : Prop := c.staged g.frameNumber (rightAlign32 g.parentSelector) = some g

def Single (c : ShardClock) : Prop :=
  ∀ a b, c.Stages a → c.Stages b → rightAlign32 a.parentSelector = rightAlign32 b.parentSelector → a = b

def Lonely (c : ShardClock) (f : AppShardFrame) : Prop :=
  ∀ number selector g, c.staged number selector = some g →
    rightAlign32 g.parentSelector = rightAlign32 f.parentSelector → g = f

theorem stages_stage : (c.stage f).Stages g ↔
    g = f ∨ ¬(g.frameNumber = f.frameNumber ∧ rightAlign32 g.parentSelector = rightAlign32 f.parentSelector) ∧ c.Stages g := by
  rw [Stages, stage]
  dsimp only
  rw [update_apply]
  split_ifs with hn
  · rw [update_apply]
    split_ifs with hs
    · simp [hn, hs, eq_comm]
    · constructor
      · intro h
        exact .inr ⟨fun heq => hs heq.2, by rw [Stages, hn]; exact h⟩
      · rintro (rfl | ⟨-, h⟩)
        · exact absurd rfl hs
        · rw [Stages, hn] at h
          exact h
  · constructor
    · intro h
      exact .inr ⟨fun heq => hn heq.1, h⟩
    · rintro (rfl | ⟨-, h⟩)
      · exact absurd rfl hn
      · exact h

theorem Stages.stage (h : c.Stages g) (hl : c.Lonely f) : (c.stage f).Stages g := by
  rw [stages_stage]
  by_cases hs : rightAlign32 g.parentSelector = rightAlign32 f.parentSelector
  · exact .inl (hl _ _ g h hs)
  · exact .inr ⟨fun heq => hs heq.2, h⟩

theorem Single.stage (h : c.Single) (hl : c.Lonely f) : (c.stage f).Single := by
  intro a b ha hb hs
  rcases stages_stage.mp ha with rfl | ⟨-, haO⟩
  · rcases stages_stage.mp hb with rfl | ⟨-, hbO⟩
    · rfl
    · exact (hl _ _ b hbO hs.symm).symm
  · rcases stages_stage.mp hb with rfl | ⟨-, hbO⟩
    · exact hl _ _ a haO hs
    · exact h a b haO hbO hs

end ShardClock

namespace AppTimeReel

open TimeReel

variable {cfg : AppConfig} {W : World AppShardFrame} {st st' : TimeReel AppShardFrame ShardClock}
  {K E : AppShardFrame → Prop} {f : AppShardFrame}

/-! ### Committing frames -/

theorem persist_staged (frames : List AppShardFrame) (c : ShardClock) : (persist frames c).staged = c.staged := by
  induction frames generalizing c with
  | nil => rfl
  | cons f frames ih => exact ih _

theorem persist_frames {frames : List AppShardFrame} {c : ShardClock} {number : Nat} {selector : Bytes}
    (h : (persist frames c).frames number = some selector) : c.frames number = some selector ∨
      ∃ f ∈ frames, f.frameNumber = number ∧ rightAlign32 f.parentSelector = selector := by
  induction frames generalizing c with
  | nil => exact .inl h
  | cons f frames ih =>
    rcases ih h with hcm | ⟨g, hg, heq⟩
    · change update c.frames f.frameNumber _ number = some selector at hcm
      rw [update_apply] at hcm
      split_ifs at hcm with hn
      · exact .inr ⟨f, List.mem_cons_self, hn.symm, some.inj hcm⟩
      · exact .inl hcm
    · exact .inr ⟨g, List.mem_cons_of_mem f hg, heq⟩

/-! ### The invariant -/

/-- The frames that may be connected and those that were are staged, and what was committed is among the latter. -/
structure Kept (K E : AppShardFrame → Prop) (c : ShardClock) : Prop where
  known : ∀ {g}, K g → c.Stages g
  staged : ∀ {g}, E g → c.Stages g
  single : c.Single
  committed : ∀ {number selector}, c.frames number = some selector →
    ∃ g, E g ∧ g.frameNumber = number ∧ rightAlign32 g.parentSelector = selector

theorem Kept.persist {c : ShardClock} (h : Kept K E c) {frames : List AppShardFrame} (hfrs : ∀ f ∈ frames, E f) :
    Kept K E (persist frames c) := by
  have hs : ∀ g, (AppTimeReel.persist frames c).Stages g ↔ c.Stages g := by
    intro g
    rw [ShardClock.Stages, persist_staged]
    rfl
  refine ⟨fun hg => (hs _).mpr (h.known hg), fun hg => (hs _).mpr (h.staged hg),
    fun a b ha hb => h.single a b ((hs a).mp ha) ((hs b).mp hb), fun hcm => ?_⟩
  rcases persist_frames hcm with hcm | ⟨g, hg, heq⟩
  · exact h.committed hcm
  · exact ⟨g, hfrs g hg, heq⟩

/-- The frames that were ever connected form a chain, which the store follows. -/
structure Chained (cfg : AppConfig) (K E : AppShardFrame → Prop) (st : TimeReel AppShardFrame ShardClock) : Prop where
  sound : st.Sound (reel cfg)
  grounded : st.Grounded
  knows : ∀ g, st.Knows g → K g
  store : Kept K E st.store
  nodes : ∀ id g, st.frameOf id = some g → E g
  nonempty : ∀ g, E g → ∃ id, st.Has id
  parent : ∀ g, E g → g.frameNumber = 0 ∨
    ∃ p, E p ∧ (reel cfg).selector p = g.parentSelector ∧ g.frameNumber = p.frameNumber + 1
  distinct : ∀ a b, E a → E b → a.frameNumber = b.frameNumber → a = b

theorem chained_new : Chained cfg (fun _ => False) (fun _ => False) (.new .empty) where
  sound := sound_new _ _
  grounded c h := by cases h
  knows g hg := by
    obtain ⟨id, h⟩ | ⟨sel, h⟩ := hg
    · cases h
    · cases h
  store := by
    refine ⟨fun h => h.elim, fun h => h.elim, fun a b ha => ?_, fun hcm => ?_⟩
    · cases ha
    · cases hcm
  nodes id g h := by cases h
  nonempty g h := h.elim
  parent g h := h.elim
  distinct a b h := h.elim

namespace Chained

section
variable (h : Chained cfg K E st)
include h

theorem congr (hrt : st'.root = st.root) (hnd : st'.nodes = st.nodes)
    (hpn : ∀ sel g, g ∈ st'.pending sel → g ∈ st.pending sel) (hhd : st'.head = st.head)
    (hst : Kept K E st'.store) : Chained cfg K E st' := by
  have hfr : st'.frameOf = st.frameOf := funext fun id => by rw [frameOf, hnd]; rfl
  have hpar : st'.parentOf = st.parentOf := funext fun id => by rw [parentOf, hnd]; rfl
  have hdp : st'.depthOf = st.depthOf := funext fun id => by rw [depthOf, hnd]; rfl
  have hh : st'.Has = st.Has := funext fun id => by rw [FrameTree.Has, hnd]; rfl
  refine ⟨⟨h.sound.tree.congr hnd, fun sel g hg => h.sound.keyed sel g (hpn sel g hg), ?_, ?_⟩, ?_,
    fun g hg => h.knows g ?_, hst, ?_, ?_, h.parent, h.distinct⟩
  · rw [hhd, hh]
    exact h.sound.head
  · rw [hhd, hh]
    exact h.sound.headed
  · rw [Grounded, hh, hpar, hrt, hdp]
    exact h.grounded
  · exact hg.imp (Exists.imp fun id hid => hfr ▸ hid) (Exists.imp fun sel hs => hpn sel g hs)
  · rw [hfr]
    exact h.nodes
  · rw [hh]
    exact h.nonempty

theorem visit (W : World AppShardFrame) : Chained cfg K E (st.visit W).2 :=
  h.congr rfl rfl (fun _ _ hg => hg) rfl h.store

theorem settle : Chained cfg st.Knows E st :=
  { h with
    knows := fun _ hg => hg
    store := { h.store with known := fun hg => h.store.known (h.knows _ hg) } }

theorem addPendingFrame (hf : K f) : Chained cfg K E (st.withTree (st.addPendingFrame (reel cfg) f)) := by
  refine { h with sound := h.sound.addPendingFrame f, knows := fun g hg => ?_ }
  rcases hg with hg | ⟨sel, hg⟩
  · exact h.knows g (.inl hg)
  · rcases mem_pending_addPendingFrame.mp hg with hg | ⟨rfl, -⟩
    · exact h.knows g (.inr ⟨sel, hg⟩)
    · exact hf

theorem takePending (sel : Bytes) : Chained cfg K E (st.withTree (st.takePending (reel cfg) sel)) := h

theorem expire (now : Int) : Chained cfg K E (st.withTree (st.pruneOldPendingFrames (reel cfg) now)) :=
  h.congr rfl rfl (fun _ _ => mem_pending_pruneOldPendingFrames) rfl h.store

theorem attach (hln : Linked (reel cfg) K) (hf : K f) {p : Bytes} {g : AppShardFrame}
    (hfr : ¬st.Has ((reel cfg).frameId f)) (hp : st.frameOf p = some g)
    (hs : (reel cfg).selector g = f.parentSelector) :
    Chained cfg K (fun x => x = f ∨ E x) (st.withTree (st.attach (reel cfg) f p)) := by
  have hpH : st.Has p := has_iff_frameOf.mpr ⟨g, hp⟩
  have hfm : ∀ c, (st.attach (reel cfg) f p).frameOf c = if c = (reel cfg).frameId f then some f else st.frameOf c :=
    fun c => frameOf_attach hfr hpH
  have hnum : f.frameNumber = g.frameNumber + 1 := hln g f (h.knows g (.inl ⟨p, hp⟩)) hf hs
  -- another frame of this number has the same parent
  have hon : ∀ x, E x → x.frameNumber = f.frameNumber → x = f := by
    intro x hx hxn
    rcases h.parent x hx with hzr | ⟨q, hq, hqs, hqn⟩
    · omega
    · cases h.distinct q g hq (h.nodes p g hp) (by omega)
      refine h.store.single x f (h.store.staged hx) (h.store.known hf) ?_
      rw [← hqs, hs]
  refine ⟨h.sound.attach hfr hpH fun g' hg' => ?_, h.grounded.attach hfr hpH, fun g' hg' => ?_, ?_, ?_, ?_, ?_, ?_⟩
  · rw [some.inj (hg'.symm.trans hp)]
    exact hs
  · rcases hg' with ⟨id, hid⟩ | hpn
    · change (st.attach (reel cfg) f p).frameOf id = some g' at hid
      rw [hfm] at hid
      split_ifs at hid
      · exact some.inj hid ▸ hf
      · exact h.knows g' (.inl ⟨id, hid⟩)
    · exact h.knows g' (.inr hpn)
  · refine ⟨h.store.known, fun hx => ?_, h.store.single, fun hcm => ?_⟩
    · rcases hx with rfl | hx
      · exact h.store.known hf
      · exact h.store.staged hx
    · obtain ⟨x, hx, heq⟩ := h.store.committed hcm
      exact ⟨x, .inr hx, heq⟩
  · intro id x hid
    change (st.attach (reel cfg) f p).frameOf id = some x at hid
    rw [hfm] at hid
    split_ifs at hid
    · exact .inl (some.inj hid).symm
    · exact .inr (h.nodes id x hid)
  · exact fun _ _ => ⟨p, (has_attach hfr hpH).mpr (.inr hpH)⟩
  · rintro x (rfl | hx)
    · exact .inr ⟨g, .inr (h.nodes p g hp), hs, hnum⟩
    · exact (h.parent x hx).imp_right fun ⟨q, hq, heq⟩ => ⟨q, .inr hq, heq⟩
  · rintro a b (rfl | ha) (rfl | hb) hn
    · rfl
    · exact (hon b hb hn.symm).symm
    · exact hon a ha hn
    · exact h.distinct a b ha hb hn

theorem evaluate {id : Bytes} (hid : st.Has id) : Chained cfg K E (evaluateForkChoice (reel cfg) W st id) := by
  have htr := evaluateForkChoice_tree (reel cfg) W st id
  have hst : Kept K E (evaluateForkChoice (reel cfg) W st id).store :=
    evaluateForkChoice_store (R := reel cfg) (P := Kept K E) (N := E) (fun _ _ _ hfrs hs => hs.persist hfrs) h.nodes
      (fun _ _ => .inr rfl) h.store id
  refine ⟨h.sound.evaluate W hid, htr ▸ h.grounded, fun g hg => h.knows g ?_, hst, ?_, ?_, h.parent, h.distinct⟩
  · rwa [Knows, htr] at hg
  · rw [htr]
    exact h.nodes
  · rw [htr]
    exact h.nonempty

theorem prune : Chained cfg K E (pruneOldFrames (reel cfg) W st) := by
  rcases pruneOldFrames_spec (W := W) h.sound.tree with heq | ⟨head, minDepth, hhd, hm, hget, hkp⟩
  · rwa [heq]
  have hpn : (pruneOldFrames (reel cfg) W st).pending = st.pending := funext fun sel => by
    rw [FrameTree.pending, hkp.pendingFrames]
    rfl
  refine ⟨h.sound.pruneOldFrames W, h.sound.grounded_pruneOldFrames W h.grounded, fun g hg => h.knows g ?_,
    hkp.store ▸ h.store, fun id g hg => h.nodes id g (frameOf_pruned hget hg), fun _ _ => ?_, h.parent, h.distinct⟩
  · rw [Knows, hpn] at hg
    exact hg.imp_left (Exists.imp fun id hid => frameOf_pruned hget hid)
  · exact ⟨head, (h.sound.pruneOldFrames W).head (hkp.head.trans hhd)⟩

theorem plant (hf : K f) (hzr : f.frameNumber = 0) (hfree : st.root = none) :
    Chained cfg K (fun x => x = f) (st.plantHead (reel cfg) f) := by
  have hem : ∀ id, ¬st.Has id := by
    intro id hid
    obtain ⟨r, hr, -⟩ := h.sound.tree.exists_root h.grounded hid
    rw [hr] at hfree
    cases hfree
  have hnn : ∀ x, ¬E x := fun x hx => (h.nonempty x hx).elim hem
  have hfr := hem ((reel cfg).frameId f)
  have hh : ∀ c, (st.plantHead (reel cfg) f).Has c ↔ c = (reel cfg).frameId f := fun c =>
    has_plantRoot.trans (or_iff_left (hem c))
  have hnd : ∀ id g, (st.plantHead (reel cfg) f).frameOf id = some g → g = f := by
    intro id g hg
    have hid := (hh id).mp (has_iff_frameOf.mpr ⟨g, hg⟩)
    change (st.plantRoot (reel cfg) f).frameOf id = some g at hg
    rw [frameOf_plantRoot, if_pos hid] at hg
    exact (some.inj hg).symm
  refine ⟨h.sound.plantHead hfr, fun c hc hnn => ?_, fun g hg => ?_, ⟨h.store.known, ?_, h.store.single, fun hcm => ?_⟩, hnd,
    fun _ _ => ⟨_, (hh _).mpr rfl⟩, ?_, ?_⟩
  · rw [(hh c).mp hc] at hnn ⊢
    exact ⟨_, rfl, (hh _).mpr rfl, hnn, rfl⟩
  · rcases hg with ⟨id, hid⟩ | hpn
    · exact hnd id g hid ▸ hf
    · exact h.knows g (.inr hpn)
  · rintro x rfl
    exact h.store.known hf
  · obtain ⟨x, hx, -⟩ := h.store.committed hcm
    exact absurd hx (hnn x)
  · rintro x rfl
    exact .inl hzr
  · rintro a b rfl rfl _
    rfl

end

theorem releases (hln : Linked (reel cfg) K) (E : AppShardFrame → Prop) :
    Releases (reel cfg) W K fun _ s => ∃ E', (∀ g, E g → E' g) ∧ Chained cfg K E' s where
  sound := fun ⟨_, _, hs⟩ => hs.sound
  known := fun ⟨_, _, hs⟩ hf => hs.knows _ (.inr ⟨_, hf⟩)
  take := fun sel ⟨E', hsub, hs⟩ => ⟨E', hsub, hs.takePending sel⟩
  attach := fun ⟨_, hsub, hs⟩ hf hfr hp hsel => ⟨_, fun g hg => .inr (hsub g hg), hs.attach hln hf hfr hp hsel⟩
  evaluate := fun ⟨E', hsub, hs⟩ hid => ⟨E', hsub, hs.evaluate hid⟩

theorem release (h : Chained cfg K E st) (hln : Linked (reel cfg) K) (id : Bytes) :
    ∃ E', (∀ g, E g → E' g) ∧ Chained cfg K E' (releasePending (reel cfg) W st id) :=
  (releases hln E).release [] ⟨E, fun _ hg => hg, h⟩ id

theorem connect (h : Chained cfg K E st) (hln : Linked (reel cfg) K) (hf : K f) (now : Int) {p : Bytes}
    {g : AppShardFrame} (hfr : ¬st.Has ((reel cfg).frameId f)) (hp : st.frameOf p = some g)
    (hsel : (reel cfg).selector g = f.parentSelector) :
    ∃ E', (∀ g, E g → E' g) ∧ Chained cfg K E' (connect (reel cfg) W now st f p) :=
  (releases hln E).connect ⟨E, fun _ hg => hg, h⟩ hf now hfr hp hsel
    fun ⟨E', hsub, hs⟩ => ⟨E', hsub, hs.prune.expire now⟩

theorem get (h : Chained cfg K E st) {id : Bytes} {g : AppShardFrame} (hg : st.frameOf id = some g)
    (hcm : st.store.frames g.frameNumber ≠ none) : st.store.get g.frameNumber = some g := by
  obtain ⟨sel, hs⟩ := ne_none_iff_exists'.mp hcm
  obtain ⟨x, hx, hxn, hxs⟩ := h.store.committed hs
  cases h.distinct x g hx (h.nodes id g hg) hxn
  rw [ShardClock.get, hs, bind_some, ← hxs]
  exact h.store.staged hx

end Chained

/-! ### Runs -/

/-- The frame is refused or known, or it has no staged sibling and numbers follow the links. -/
def Alone (cfg : AppConfig) (st : TimeReel AppShardFrame ShardClock) (f : AppShardFrame) : Prop :=
  f.address ≠ cfg.address ∨ st.Has ((reel cfg).frameId f) ∨ st.store.Lonely f ∧ Linked (reel cfg) (st.With f)

theorem Chained.noted (h : Chained cfg st.Knows E st) (hl : st.store.Lonely f) :
    Chained cfg (st.With f) E (noted cfg st f) := by
  have hs : Kept (st.With f) E (st.store.stage f) := by
    refine ⟨fun hg => ?_, fun hg => (h.store.staged hg).stage hl, h.store.single.stage hl, h.store.committed⟩
    rcases hg with rfl | hg
    · exact ShardClock.stages_stage.mpr (.inl rfl)
    · exact (h.store.known hg).stage hl
  obtain ⟨e, ev, hnt⟩ := noted_eq cfg st f
  rw [hnt]
  exact ⟨h.sound.congr rfl rfl rfl, h.grounded, fun _ hg => .inr (h.knows _ hg), hs, h.nodes, h.nonempty, h.parent,
    h.distinct⟩

theorem chained_insert (now : Int) (h : Chained cfg st.Knows E st) (hal : Alone cfg st f) :
    ∃ E', Chained cfg (insert cfg W now st f).2.Knows E' (insert cfg W now st f).2 := by
  have hnew : f.address = cfg.address → ¬st.Has ((reel cfg).frameId f) →
      Chained cfg (st.With f) E (noted cfg st f) ∧ Linked (reel cfg) (st.With f) := by
    intro hadr hfr
    obtain ⟨hl, hln⟩ := (hal.resolve_left (not_not.mpr hadr)).resolve_left hfr
    exact ⟨h.noted hl, hln⟩
  have hins := inserted cfg W now st f
  generalize (insert cfg W now st f).2 = st' at hins ⊢
  cases hins with
  | foreign => exact ⟨E, h⟩
  | known => exact ⟨E, h⟩
  | rejected address fresh => exact ⟨E, (hnew address fresh).1.settle⟩
  | root address fresh genesis free =>
    obtain ⟨hnt, hln⟩ := hnew address fresh
    obtain ⟨e, ev, hno⟩ := noted_eq cfg st f
    have hpla := hnt.plant (.inl rfl) genesis (by rw [hno]; exact free)
    have hsent : Chained cfg (st.With f) (fun x => x = f)
        ((plantHead (reel cfg) (noted cfg st f) f).sendEvent (.newHead f none)) :=
      hpla.congr rfl rfl (fun _ _ hg => hg) rfl hpla.store
    obtain ⟨E', hsub, hr⟩ := hsent.release (W := W) hln ((reel cfg).frameId f)
    have hpru := hr.prune (W := W)
    have htr := persist_tree (reel cfg) W (pruneOldFrames (reel cfg) W (releasePending (reel cfg) W
      ((plantHead (reel cfg) (noted cfg st f) f).sendEvent (.newHead f none)) ((reel cfg).frameId f))) [f]
    refine ⟨E', (hpru.congr (congrArg root htr) (congrArg nodes htr)
      (fun sel g hg => congrArg (·.pending sel) htr ▸ hg) (persist_head (reel cfg) W _ [f]) ?_).settle⟩
    refine persist_store (R := reel cfg) (P := Kept (st.With f) E') (N := E') (fun _ _ _ hfrs hs => hs.persist hfrs)
      (fun x hx => ?_) hpru.store
    exact hsub x (List.mem_singleton.mp hx)
  | pending address fresh =>
    obtain ⟨hnt, -⟩ := hnew address fresh
    exact ⟨E, ((hnt.visit W).addPendingFrame (.inl rfl)).settle⟩
  | connected p g address fresh _ parent selector =>
    obtain ⟨hnt, hln⟩ := hnew address fresh
    obtain ⟨E', -, hE'⟩ := (hnt.visit W).connect (W := W) hln (.inl rfl) now (has_noted.not.mpr fresh)
      ((congrFun frameOf_noted p).trans parent) selector
    exact ⟨E', hE'.settle⟩

theorem chained_run (calls : List (Int × AppShardFrame)) (han : ∀ done call rest, calls = done ++ call :: rest →
    Alone cfg (run cfg W done) call.2) : ∃ E, Chained cfg (run cfg W calls).Knows E (run cfg W calls) := by
  exact List.foldl_inv (I := fun st => ∃ E, Chained cfg st.Knows E st) (Q := fun st (call : Int × AppShardFrame) => Alone cfg st call.2)
    ⟨_, chained_new.settle⟩ (fun _ call ⟨_, hE⟩ hal => chained_insert call.1 hE hal) han

end AppTimeReel

end Quilibrium
