import Quilibrium.Theorems.Bits
import Quilibrium.Theorems.ReelInsert

/-! Equivocation: two frames of one height that share a signer. `Insert` compares a frame with the nodes at its
    height, but waiting frames with nobody. -/

namespace Quilibrium
open List FrameTree

/-! ### Seniority without a signer -/

def clearBit (mask : Bytes) (pos : Nat) : Bytes :=
  mask.set (pos / 8) (UInt8.ofNat ((maskByte mask (pos / 8)).toNat &&& (255 ^^^ 2 ^ (pos % 8))))

theorem hasBit_clearBit (mask : Bytes) (pos i bit : Nat) (hi : i < mask.length) (hb : bit < 8) :
    hasBit (maskByte (clearBit mask pos) i) bit = (hasBit (maskByte mask i) bit && decide (i * 8 + bit ≠ pos)) := by
  rw [clearBit, maskByte, getD_eq_getElem?_getD, getElem?_set]
  by_cases heq : pos / 8 = i
  · rw [if_pos heq, if_pos (heq ▸ hi), Option.getD_some, hasBit, UInt8.toNat_ofNat', Nat.mod_eq_of_lt]
    · have hon : Nat.testBit 255 bit = true := by
        rw [show 255 = 2 ^ 8 - 1 from rfl, Nat.testBit_two_pow_sub_one]
        exact decide_eq_true hb
      have hpos : pos % 8 = bit ↔ i * 8 + bit = pos := by omega
      rw [Nat.testBit_and, Nat.testBit_xor, heq, hasBit, hon, Nat.testBit_two_pow, Bool.true_xor, ← decide_not]
      simp [hpos]
    · exact Nat.and_le_left.trans_lt (UInt8.toNat_lt _)
  · have hne : i * 8 + bit ≠ pos := by omega
    rw [if_neg heq, ← getD_eq_getElem?_getD, ← maskByte, decide_eq_true hne, Bool.and_true]

theorem length_clearBit (mask : Bytes) (pos : Nat) : (clearBit mask pos).length = mask.length := length_set

section
variable {e : Equivocators} {number pos : Nat} (he : e number pos = true)
include he

theorem countedBits_clearBit (mask : Bytes) : countedBits e number (clearBit mask pos) = countedBits e number mask := by
  rw [countedBits, countedBits, bitPositions, bitPositions, length_clearBit, filter_flatMap, filter_flatMap]
  refine flatMap_congr fun i hi => ?_
  rw [filter_map, filter_map, filter_filter, filter_filter]
  congr 1
  refine filter_congr fun bit hb => ?_
  rw [hasBit_clearBit mask pos i bit (mem_range.mp hi) (mem_range.mp hb)]
  by_cases heq : i * 8 + bit = pos
  · simp [heq, he]
  · simp [heq]

end

/-! ### The check of `Insert` -/

variable {F S : Type}

namespace TimeReel

variable {R : Reel F S} {W : World F} {st : TimeReel F S} {f : F}

/-- A frame shares a signer with another one of the same height and different content. -/
def Conflict (R : Reel F S) (f g : F) (pos : Nat) : Prop :=
  R.isEqual g f = false ∧ R.frameNumber g = R.frameNumber f ∧ signs (R.bitmask g) pos = true ∧
    signs (R.bitmask f) pos = true

theorem noteEquivocation_equivocators (node : Bytes) (n pos : Nat) :
    (noteEquivocation R f st node).equivocators n pos = true ↔ st.equivocators n pos = true ∨
      (n = R.frameNumber f ∧ ∃ g, st.frameOf node = some g ∧ R.isEqual g f = false ∧
        signs (R.bitmask g) pos = true ∧ signs (R.bitmask f) pos = true) := by
  rw [noteEquivocation]
  cases hg : st.frameOf node with
  | none => simp
  | some g =>
    simp only [Option.some_inj, exists_eq_left']
    split_ifs with hcn
    · rw [Bool.and_eq_true, Bool.not_eq_true'] at hcn
      cases hb : R.bitmask g with
      | none =>
        rw [hb] at hcn
        cases hcn.2
      | some mask =>
        cases hb' : R.bitmask f with
        | none =>
          rw [hb, hb'] at hcn
          cases hcn.2
        | some mask' =>
          change (st.equivocators.mark (R.frameNumber f) (overlappingBits mask mask')) n pos = true ↔ _
          rw [Equivocators.mark, Bool.or_eq_true, Bool.and_eq_true, decide_eq_true_iff, contains_iff_mem,
            mem_overlappingBits]
          simp [hcn.1]
    · constructor
      · exact .inl
      · rintro (h | ⟨-, heq, hsg, hsf⟩)
        · exact h
        · exact absurd (by rw [heq, hasOverlappingBits_of_signs hsg hsf]; rfl) hcn

theorem noteEquivocations_equivocators (n pos : Nat) :
    (noteEquivocations R st f).equivocators n pos = true ↔ st.equivocators n pos = true ∨
      (n = R.frameNumber f ∧ ∃ node ∈ st.framesByNumber (R.frameNumber f), ∃ g, st.frameOf node = some g ∧
        R.isEqual g f = false ∧ signs (R.bitmask g) pos = true ∧ signs (R.bitmask f) pos = true) := by
  rw [noteEquivocations]
  generalize st.framesByNumber (R.frameNumber f) = ids
  induction ids generalizing st with
  | nil => simp
  | cons node ids ih =>
    have hfr : (noteEquivocation R f st node).frameOf = st.frameOf := by
      rw [noteEquivocation]
      split
      · rfl
      · split_ifs
        · rfl
        · rfl
    rw [foldl_cons, ih, hfr, noteEquivocation_equivocators]
    simp only [mem_cons, exists_eq_or_imp]
    rw [or_assoc, ← and_or_left]

/-! ### What is recorded -/

/-- Every bit that two known frames of one height share is recorded, and the frames of the reel are known. -/
structure Detected (R : Reel F S) (genesis : Nat) (Known : F → Prop) (st : TimeReel F S) : Prop where
  sound : st.Sound R
  indexed : st.Indexed R
  anchored : st.Anchored R genesis
  inner : ∀ {sel f}, f ∈ st.pending sel → R.frameNumber f ≠ genesis
  node_known : ∀ {id f}, st.frameOf id = some f → Known f
  pending_known : ∀ {sel f}, f ∈ st.pending sel → Known f
  recorded : ∀ {f g pos}, Known f → Known g → R.frameId f ≠ R.frameId g → R.frameNumber f = R.frameNumber g →
    signs (R.bitmask f) pos = true → signs (R.bitmask g) pos = true → st.equivocators (R.frameNumber f) pos = true

def Holds (st : TimeReel F S) (f : F) : Prop := (∃ id, st.frameOf id = some f) ∨ ∃ sel, f ∈ st.pending sel

namespace Detected

variable {genesis : Nat} {Known : F → Prop} {st' : TimeReel F S}

theorem mono (h : Detected R genesis Known st) {Known' : F → Prop} (hle : ∀ g, Known' g → Known g)
    (hnd : ∀ id g, st.frameOf id = some g → Known' g) (hpn : ∀ sel g, g ∈ st.pending sel → Known' g) :
    Detected R genesis Known' st where
  sound := h.sound
  indexed := h.indexed
  anchored := h.anchored
  inner := h.inner
  node_known := hnd _ _
  pending_known := hpn _ _
  recorded hf hg := h.recorded (hle _ hf) (hle _ hg)

theorem holds (h : Detected R genesis Known st) : Detected R genesis st.Holds st :=
  h.mono (fun _ hg => hg.elim (fun ⟨_, hid⟩ => h.node_known hid) fun ⟨_, hs⟩ => h.pending_known hs)
    (fun id _ hg => .inl ⟨id, hg⟩) fun sel _ hg => .inr ⟨sel, hg⟩

variable (h : Detected R genesis Known st)
include h

theorem of_tree (hsn : st'.Sound R) (htr : st'.toFrameTree = st.toFrameTree) : Detected R genesis Known st' where
  sound := hsn
  indexed := htr ▸ h.indexed
  anchored := htr ▸ h.anchored
  inner hf := h.inner (htr ▸ hf)
  node_known hf := h.node_known (htr ▸ hf)
  pending_known hf := h.pending_known (htr ▸ hf)
  recorded hf hg hne hnum hsf hsg := by
    rw [htr]
    exact h.recorded hf hg hne hnum hsf hsg

theorem congr (htr : st'.toFrameTree = st.toFrameTree) (hhd : st'.head = st.head) : Detected R genesis Known st' :=
  h.of_tree (h.sound.congr (congrArg nodes htr) (congrArg pendingFrames htr) hhd) htr

theorem send (event : TimeReelEvent F) : Detected R genesis Known (st.sendEvent event) := h.congr rfl rfl

theorem visit (W : World F) : Detected R genesis Known (st.visit W).2 := h.congr rfl rfl

theorem persist (W : World F) (frames : List F) : Detected R genesis Known (persistCanonicalFrames R W st frames).2 :=
  h.congr (persist_tree R W st frames) (persist_head R W st frames)

theorem evaluate (W : World F) {id : Bytes} (hid : st.Has id) : Detected R genesis Known (evaluateForkChoice R W st id) :=
  h.of_tree (h.sound.evaluate W hid) (evaluateForkChoice_tree R W st id)

theorem take (sel : Bytes) : Detected R genesis Known (st.withTree (st.takePending R sel)) := by
  have heq : st.takePending R sel = { st.toFrameTree with pendingFrames := (st.takePending R sel).pendingFrames } := by
    rw [takePending]
    split_ifs
    · rfl
    · rfl
  refine ⟨h.sound.takePending sel, ?_, ?_, fun hf => h.inner (mem_pending_takePending hf), fun hf => ?_,
    fun hf => h.pending_known (mem_pending_takePending hf), fun hf hg hne hnum hsf hsg => ?_⟩
  · change (st.takePending R sel).Indexed R
    rw [heq]
    exact h.indexed
  · change (st.takePending R sel).Anchored R genesis
    rw [heq]
    exact h.anchored
  · exact h.node_known (frameOf_takePending.symm.trans hf)
  · change (st.takePending R sel).equivocators _ _ = true
    rw [heq]
    exact h.recorded hf hg hne hnum hsf hsg

theorem expire (now : Int) : Detected R genesis Known (st.withTree (st.pruneOldPendingFrames R now)) where
  sound := h.sound.pruneOldPendingFrames now
  indexed := h.indexed
  anchored := h.anchored
  inner hf := h.inner (mem_pending_pruneOldPendingFrames hf)
  node_known hf := h.node_known hf
  pending_known hf := h.pending_known (mem_pending_pruneOldPendingFrames hf)
  recorded := h.recorded

theorem prune (W : World F) : Detected R genesis Known (pruneOldFrames R W st) := by
  rcases pruneOldFrames_spec (W := W) h.sound.tree with heq | ⟨head, minDepth, -, -, hget, hkp⟩
  · rwa [heq]
  · have hpn : ∀ sel, (pruneOldFrames R W st).pending sel = st.pending sel := by
      intro sel
      rw [FrameTree.pending, hkp.pendingFrames, FrameTree.pending]
    refine ⟨h.sound.pruneOldFrames W, hkp.indexed h.indexed, hkp.anchored genesis h.anchored, fun hf => ?_,
      fun hf => h.node_known (frameOf_pruned hget hf), fun hf => ?_, fun hf hg hne hnum hsf hsg => ?_⟩
    · rw [hpn] at hf
      exact h.inner hf
    · rw [hpn] at hf
      exact h.pending_known hf
    · rw [hkp.equivocators]
      exact h.recorded hf hg hne hnum hsf hsg

theorem wait (hf : Known f) (hin : R.frameNumber f ≠ genesis) :
    Detected R genesis Known (st.withTree (st.addPendingFrame R f)) := by
  refine ⟨h.sound.addPendingFrame f, h.indexed, h.anchored, fun hg => ?_, h.node_known, fun hg => ?_, h.recorded⟩
  · rcases mem_pending_addPendingFrame.mp hg with hg | ⟨rfl, -⟩
    · exact h.inner hg
    · exact hin
  · rcases mem_pending_addPendingFrame.mp hg with hg | ⟨rfl, -⟩
    · exact h.pending_known hg
    · exact hf

theorem attach {g : F} {p : Bytes} (hf : Known f) (hin : R.frameNumber f ≠ genesis)
    (hfr : ¬st.Has (R.frameId f)) (hp : st.frameOf p = some g) (hs : R.selector g = R.parentSelector f) :
    Detected R genesis Known (st.withTree (st.attach R f p)) := by
  have hh : st.Has p := has_iff_frameOf.mpr ⟨g, hp⟩
  refine ⟨h.sound.attach hfr hh fun g' hg' => ?_, h.indexed.attach hfr hh, fun id f' hf' hnum => ?_, h.inner,
    fun {id f'} hf' => ?_, h.pending_known, h.recorded⟩
  · rwa [Option.some.inj (hg'.symm.trans hp)]
  · rcases (frameOf_attach hfr hh).symm.trans hf' with hcs
    split_ifs at hcs with hid
    · cases hcs
      exact absurd hnum hin
    · exact h.anchored id f' hcs hnum
  · rcases (frameOf_attach hfr hh).symm.trans hf' with hcs
    split_ifs at hcs with hid
    · cases hcs
      exact hf
    · exact h.node_known hcs

theorem plant (hf : Known f) (hfr : ¬st.Has (R.frameId f))
    (hon : ∀ id g, st.frameOf id = some g → R.frameNumber g ≠ R.frameNumber f)
    (hgen : ∀ id g, st.frameOf id = some g → R.frameNumber g ≠ genesis) :
    Detected R genesis Known (st.plantHead R f) := by
  refine ⟨h.sound.plantHead hfr, h.indexed.plantRoot hfr hon, fun id f' hf' hnum => ?_, h.inner,
    fun {id f'} hf' => ?_, h.pending_known, h.recorded⟩
  · rcases frameOf_plantRoot.symm.trans hf' with hcs
    split_ifs at hcs with hid
    · rw [hid]
      rfl
    · exact absurd hnum (hgen id f' hcs)
  · rcases frameOf_plantRoot.symm.trans hf' with hcs
    split_ifs at hcs with hid
    · cases hcs
      exact hf
    · exact h.node_known hcs

end Detected

theorem Detected.releases (R : Reel F S) (W : World F) (genesis : Nat) (Known : F → Prop) :
    Releases R W (fun f => Known f ∧ R.frameNumber f ≠ genesis) fun _ st => Detected R genesis Known st where
  sound h := h.sound
  known h hf := ⟨h.pending_known hf, h.inner hf⟩
  take sel h := h.take sel
  attach h hf hfr hp hs := h.attach hf.1 hf.2 hfr hp hs
  evaluate h hid := h.evaluate _ hid

variable {genesis : Nat} {Known : F → Prop}

theorem Detected.release (h : Detected R genesis Known st) (W : World F) (id : Bytes) :
    Detected R genesis Known (releasePending R W st id) :=
  (Detected.releases R W genesis Known).release [] h id

theorem Detected.connect {g : F} {p : Bytes} (h : Detected R genesis Known st)
    (W : World F) (now : Int) (hf : Known f) (hin : R.frameNumber f ≠ genesis) (hfr : ¬st.Has (R.frameId f))
    (hp : st.frameOf p = some g) (hs : R.selector g = R.parentSelector f) :
    Detected R genesis Known (connect R W now st f p) :=
  (Detected.releases R W genesis Known).connect h ⟨hf, hin⟩ now hfr hp hs fun h => (h.prune W).expire now

/-- No frame that waits for its parent conflicts with the frame that is inserted. -/
def Guarded (R : Reel F S) (st : TimeReel F S) (f : F) : Prop :=
  ∀ sel w pos, w ∈ st.pending sel → (∀ id, st.frameOf id ≠ some w) → ¬Conflict R f w pos

theorem Detected.note (h : Detected R genesis st.Holds st)
    (hid : ∀ a b, R.isEqual a b = true → R.frameId a = R.frameId b) (hgr : Guarded R st f) :
    Detected R genesis (fun g => g = f ∨ st.Holds g) (noteEquivocations R st f) := by
  have hnew : ∀ g pos, st.Holds g → R.frameId g ≠ R.frameId f → R.frameNumber g = R.frameNumber f →
      signs (R.bitmask g) pos = true → signs (R.bitmask f) pos = true →
      (noteEquivocations R st f).equivocators (R.frameNumber f) pos = true := by
    intro g pos hg hne hnum hsg hsf
    have hdf : R.isEqual g f = false := Bool.eq_false_iff.mpr fun heq => hne (hid g f heq)
    refine (noteEquivocations_equivocators _ _).mpr (.inr ⟨rfl, ?_⟩)
    by_cases hnd : ∃ id, st.frameOf id = some g
    · obtain ⟨id, hfr⟩ := hnd
      exact ⟨id, (h.indexed _ id).mpr ⟨g, hfr, hnum⟩, g, hfr, hdf, hsg, hsf⟩
    · -- a frame that is only waiting does not conflict
      obtain ⟨sel, hs⟩ := hg.resolve_left hnd
      exact absurd ⟨hdf, hnum, hsg, hsf⟩ (hgr sel g pos hs fun id hfr => hnd ⟨id, hfr⟩)
  have ho : ∀ n pos, st.equivocators n pos = true → (noteEquivocations R st f).equivocators n pos = true :=
    fun n pos he => (noteEquivocations_equivocators n pos).mpr (.inl he)
  obtain ⟨e, ev, heq⟩ := noteEquivocations_eq R st f
  refine ⟨h.sound.noteEquivocations f, ?_, ?_, fun hg => ?_, fun hg => .inr ?_, fun hg => .inr ?_, ?_⟩
  · rw [heq]
    exact h.indexed
  · rw [heq]
    exact h.anchored
  · rw [heq] at hg
    exact h.inner hg
  · rw [heq] at hg
    exact h.node_known hg
  · rw [heq] at hg
    exact h.pending_known hg
  · rintro a b pos (rfl | ha) (rfl | hb) hne hnum hsa hsb
    · exact absurd rfl hne
    · exact hnew b pos hb hne.symm hnum.symm hsb hsa
    · rw [hnum]
      exact hnew a pos ha hne hnum hsa hsb
    · exact ho _ _ (h.recorded ha hb hne hnum hsa hsb)

theorem detected_new (R : Reel F S) (genesis : Nat) (store : S) :
    Detected R genesis (new store : TimeReel F S).Holds (new store) where
  sound := sound_new R store
  indexed := indexed_empty R
  anchored id f hf := by cases hf
  inner hf := by cases hf
  node_known hf := by cases hf
  pending_known hf := by cases hf
  recorded hf := by
    rcases hf with ⟨id, hid⟩ | ⟨sel, hs⟩
    · cases hid
    · cases hs

theorem Detected.recorded_nodes (h : Detected R genesis Known st) {a b : Bytes}
    {fa fb : F} {pos : Nat} (ha : st.frameOf a = some fa) (hb : st.frameOf b = some fb) (hne : fa ≠ fb)
    (hnum : R.frameNumber fa = R.frameNumber fb) (hsa : signs (R.bitmask fa) pos = true)
    (hsb : signs (R.bitmask fb) pos = true) : st.equivocators (R.frameNumber fa) pos = true ∧
      ∀ mask, computeFrameSeniority st.equivocators (R.frameNumber fa) (some (clearBit mask pos)) =
        computeFrameSeniority st.equivocators (R.frameNumber fa) (some mask) := by
  have hids : R.frameId fa ≠ R.frameId fb := by
    intro heq
    rw [h.sound.tree.frameId ha, h.sound.tree.frameId hb] at heq
    exact hne (Option.some.inj (ha.symm.trans (heq ▸ hb)))
  have hr := h.recorded (h.node_known ha) (h.node_known hb) hids hnum hsa hsb
  exact ⟨hr, fun mask => by rw [computeFrameSeniority, computeFrameSeniority, countedBits_clearBit hr]⟩

end TimeReel

open TimeReel

/-! ### Runs -/

namespace GlobalTimeReel

variable {cfg : GlobalConfig} {W : World GlobalFrame} {st : TimeReel GlobalFrame GlobalClock} {f : GlobalFrame}

theorem frameId_of_isEqual (a b : GlobalFrame) (h : isEqualGlobalFrame a b = true) :
    (reel cfg).frameId a = (reel cfg).frameId b := by
  simp only [isEqualGlobalFrame, Bool.and_eq_true, decide_eq_true_iff] at h
  obtain ⟨⟨⟨⟨hnmb, hts⟩, -⟩, ho⟩, hpar⟩ := h
  change cfg.poseidon.sum a.idText = cfg.poseidon.sum b.idText
  rw [GlobalFrame.idText, GlobalFrame.idText, hnmb, hts, ho, hpar]

theorem root_only {Known : GlobalFrame → Prop} (h : Detected (reel cfg) (genesisFrameNumber cfg) Known st)
    (hrt : RootFrame cfg st f) (hfree : st.root = none ∨
      cfg.archiveMode = false ∧ ∀ r, st.root.bind st.frameOf = some r → f.frameNumber < r.frameNumber)
    (id : Bytes) (g : GlobalFrame) (hg : st.frameOf id = some g) :
    g.frameNumber ≠ f.frameNumber ∧ g.frameNumber ≠ genesisFrameNumber cfg := by
  rcases hrt with hnmb | ⟨-, -, hem⟩
  · have hne : g.frameNumber ≠ genesisFrameNumber cfg := by
      intro hgen
      have hanc : st.root = some id := h.anchored id g hg hgen
      rcases hfree with hnn | ⟨-, hlt⟩
      · rw [hanc] at hnn
        cases hnn
      · have := hlt g (by rw [hanc]; exact hg)
        omega
    exact ⟨hnmb ▸ hne, hne⟩
  · rw [frameOf, OrdMap.get, hem] at hg
    cases hg

theorem detected_insert (now : Int) (h : Detected (reel cfg) (genesisFrameNumber cfg) st.Holds st)
    (hgr : Guarded (reel cfg) st f) :
    Detected (reel cfg) (genesisFrameNumber cfg) (insert cfg W now st f).2.Holds (insert cfg W now st f).2 := by
  have hnt := h.note frameId_of_isEqual hgr
  have hv := hnt.visit W
  have hin : ¬RootFrame cfg st f → f.frameNumber ≠ genesisFrameNumber cfg := fun hrt heq => hrt (.inl heq)
  have hpl : ¬st.Has ((reel cfg).frameId f) → RootFrame cfg st f → (st.root = none ∨
      cfg.archiveMode = false ∧ ∀ r, st.root.bind st.frameOf = some r → f.frameNumber < r.frameNumber) →
      Detected (reel cfg) (genesisFrameNumber cfg) (fun g => g = f ∨ st.Holds g)
        (plantHead (reel cfg) (noteEquivocations (reel cfg) st f) f) := by
    intro hfr hrt hfree
    have hon := root_only h hrt hfree
    rw [← frameOf_noteEquivocations (R := reel cfg) (f := f)] at hon
    exact hnt.plant (.inl rfl) (has_noteEquivocations.not.mpr hfr) (fun id g hg => (hon id g hg).1)
      fun id g hg => (hon id g hg).2
  have hins := inserted cfg W now st f
  generalize (insert cfg W now st f).2 = st' at hins ⊢
  cases hins with
  | known => exact h
  | rejected => exact hnt.holds
  | unpersisted fresh root free => exact (hpl fresh root free).holds
  | root fresh root free =>
    exact ((((hpl fresh root free).persist W [f]).send (.newHead f none)).release W _).prune W |>.holds
  | dropped => exact hv.holds
  | pending _ inner => exact (hv.wait (.inl rfl) (hin inner)).holds
  | connected p g fresh inner parent selector =>
    exact (hv.connect W now (.inl rfl) (hin inner) (has_noteEquivocations.not.mpr fresh)
      ((congrFun frameOf_noteEquivocations p).trans parent) selector).holds

theorem detected_run (calls : List (Int × GlobalFrame)) (hgr : ∀ done call rest, calls = done ++ call :: rest →
    Guarded (reel cfg) (run cfg W done) call.2) :
    Detected (reel cfg) (genesisFrameNumber cfg) (run cfg W calls).Holds (run cfg W calls) := by
  exact foldl_inv (I := fun st => Detected (reel cfg) (genesisFrameNumber cfg) st.Holds st)
    (Q := fun st (call : Int × GlobalFrame) => Guarded (reel cfg) st call.2)
    (detected_new _ _ _) (fun _ call h hgua => detected_insert call.1 h hgua) hgr

end GlobalTimeReel

namespace AppTimeReel

variable {cfg : AppConfig} {W : World AppShardFrame} {st : TimeReel AppShardFrame ShardClock} {f : AppShardFrame}

theorem frameId_of_isEqual (a b : AppShardFrame) (h : isEqualAppFrame a b = true) :
    (reel cfg).frameId a = (reel cfg).frameId b := by
  simp only [isEqualAppFrame, Bool.and_eq_true, decide_eq_true_iff] at h
  obtain ⟨⟨⟨⟨⟨⟨hadr, hnmb⟩, hts⟩, -⟩, ho⟩, hpar⟩, -⟩ := h
  change cfg.poseidon.sum a.idText = cfg.poseidon.sum b.idText
  rw [AppShardFrame.idText, AppShardFrame.idText, hadr, hnmb, hts, ho, hpar]

theorem detected_insert (now : Int) (h : Detected (reel cfg) 0 st.Holds st) (hgr : Guarded (reel cfg) st f) :
    Detected (reel cfg) 0 (insert cfg W now st f).2.Holds (insert cfg W now st f).2 := by
  have hnt : Detected (reel cfg) 0 (fun g => g = f ∨ st.Holds g) (noted cfg st f) :=
    (h.note frameId_of_isEqual hgr).congr rfl rfl
  have hins := inserted cfg W now st f
  generalize (insert cfg W now st f).2 = st' at hins ⊢
  cases hins with
  | foreign => exact h
  | known => exact h
  | rejected => exact hnt.holds
  | root _ fresh genesis free =>
    -- a node of height zero would be the root
    have hon : ∀ id g, (noted cfg st f).frameOf id = some g → g.frameNumber ≠ 0 := by
      intro id g hg hzr
      rw [frameOf_noted] at hg
      have hanc : st.root = some id := h.anchored id g hg hzr
      rw [free] at hanc
      cases hanc
    have hpl := hnt.plant (.inl rfl) (has_noted.not.mpr fresh)
      (fun id g hg heq => hon id g hg (heq.trans genesis)) hon
    exact (((hpl.send (.newHead f none)).release W _).prune W).persist W [f] |>.holds
  | pending _ _ inner => exact ((hnt.visit W).wait (.inl rfl) inner).holds
  | connected p g _ fresh inner parent selector =>
    exact ((hnt.visit W).connect W now (.inl rfl) inner (has_noted.not.mpr fresh)
      ((congrFun frameOf_noted p).trans parent) selector).holds

theorem detected_run (calls : List (Int × AppShardFrame)) (hgr : ∀ done call rest, calls = done ++ call :: rest →
    Guarded (reel cfg) (run cfg W done) call.2) : Detected (reel cfg) 0 (run cfg W calls).Holds (run cfg W calls) := by
  exact foldl_inv (I := fun st => Detected (reel cfg) 0 st.Holds st)
    (Q := fun st (call : Int × AppShardFrame) => Guarded (reel cfg) st call.2)
    (detected_new _ _ _) (fun _ call h hgua => detected_insert call.1 h hgua) hgr

end AppTimeReel

/-- If no frame is inserted while a conflicting one waits for its parent, each bit that two nodes of one height share
    is recorded, and counts for no frame of that height. -/
theorem equivocation_recorded (global : GlobalConfig) (globalWorld : World GlobalFrame) (app : AppConfig)
    (appWorld : World AppShardFrame) : (∀ calls : List (Int × GlobalFrame),
      (∀ done call rest, calls = done ++ call :: rest →
        Guarded (GlobalTimeReel.reel global) (GlobalTimeReel.run global globalWorld done) call.2) →
      ∀ (a b : Bytes) (fa fb : GlobalFrame) (pos : Nat), (GlobalTimeReel.run global globalWorld calls).frameOf a = some fa →
        (GlobalTimeReel.run global globalWorld calls).frameOf b = some fb → fa ≠ fb → fa.frameNumber = fb.frameNumber →
        signs fa.bitmask pos = true → signs fb.bitmask pos = true →
        (GlobalTimeReel.run global globalWorld calls).equivocators fa.frameNumber pos = true ∧
          ∀ mask, computeFrameSeniority (GlobalTimeReel.run global globalWorld calls).equivocators fa.frameNumber
              (some (clearBit mask pos)) =
            computeFrameSeniority (GlobalTimeReel.run global globalWorld calls).equivocators fa.frameNumber (some mask)) ∧
    (∀ calls : List (Int × AppShardFrame), (∀ done call rest, calls = done ++ call :: rest →
        Guarded (AppTimeReel.reel app) (AppTimeReel.run app appWorld done) call.2) →
      ∀ (a b : Bytes) (fa fb : AppShardFrame) (pos : Nat), (AppTimeReel.run app appWorld calls).frameOf a = some fa →
        (AppTimeReel.run app appWorld calls).frameOf b = some fb → fa ≠ fb → fa.frameNumber = fb.frameNumber →
        signs fa.bitmask pos = true → signs fb.bitmask pos = true →
        (AppTimeReel.run app appWorld calls).equivocators fa.frameNumber pos = true ∧
          ∀ mask, computeFrameSeniority (AppTimeReel.run app appWorld calls).equivocators fa.frameNumber
              (some (clearBit mask pos)) =
            computeFrameSeniority (AppTimeReel.run app appWorld calls).equivocators fa.frameNumber (some mask)) :=
  ⟨fun calls hgr _ _ _ _ _ ha hb hne hnum hsa hsb =>
      (GlobalTimeReel.detected_run calls hgr).recorded_nodes ha hb hne hnum hsa hsb,
    fun calls hgr _ _ _ _ _ ha hb hne hnum hsa hsb =>
      (AppTimeReel.detected_run calls hgr).recorded_nodes ha hb hne hnum hsa hsb⟩

/-! ### Frames that wait -/

def GlobalTimeReel.early : List (Int × GlobalFrame) :=
  [(0, .plain 1 1 [0] (some [1])), (0, .plain 1 2 [0] (some [1])), (0, .plain 0 0 [] none)]

def GlobalTimeReel.late : List (Int × GlobalFrame) :=
  [(0, .plain 0 0 [] none), (0, .plain 1 1 [0] (some [1])), (0, .plain 1 2 [0] (some [1]))]

def AppTimeReel.early : List (Int × AppShardFrame) :=
  [(0, .plain 1 1 [0] (some [1])), (0, .plain 1 2 [0] (some [1])), (0, .plain 0 0 [] none)]

/-- Two frames with one signer wait for the genesis frame, and are connected without being compared. -/
theorem waiting_frames_not_compared : (∃ (a b : Bytes) (fa fb : GlobalFrame),
      let st := GlobalTimeReel.run (GlobalTimeReel.plainConfig 1) .plain GlobalTimeReel.early
      st.frameOf a = some fa ∧ st.frameOf b = some fb ∧ fa ≠ fb ∧ fa.frameNumber = fb.frameNumber ∧
        signs fa.bitmask 0 = true ∧ signs fb.bitmask 0 = true ∧ st.equivocators fa.frameNumber 0 = false ∧
        0 ∈ countedBits st.equivocators fa.frameNumber [1]) ∧
    (∃ (a b : Bytes) (fa fb : AppShardFrame), let st := AppTimeReel.run AppTimeReel.plainConfig .plain AppTimeReel.early
      st.frameOf a = some fa ∧ st.frameOf b = some fb ∧ fa ≠ fb ∧ fa.frameNumber = fb.frameNumber ∧
        signs fa.bitmask 0 = true ∧ signs fb.bitmask 0 = true ∧ st.equivocators fa.frameNumber 0 = false ∧
        0 ∈ countedBits st.equivocators fa.frameNumber [1]) :=
  ⟨⟨Digest.padded.sum (GlobalFrame.plain 1 1 [0] (some [1])).idText,
      Digest.padded.sum (GlobalFrame.plain 1 2 [0] (some [1])).idText, .plain 1 1 [0] (some [1]), .plain 1 2 [0] (some [1]),
      by decide +kernel⟩,
    ⟨Digest.padded.sum (AppShardFrame.plain 1 1 [0] (some [1])).idText,
      Digest.padded.sum (AppShardFrame.plain 1 2 [0] (some [1])).idText, .plain 1 1 [0] (some [1]),
      .plain 1 2 [0] (some [1]), by decide +kernel⟩⟩

theorem connected_frames_compared :
    (GlobalTimeReel.run (GlobalTimeReel.plainConfig 1) .plain GlobalTimeReel.late).equivocators 1 0 = true := by
  refine ((equivocation_recorded (GlobalTimeReel.plainConfig 1) .plain AppTimeReel.plainConfig .plain).1
    GlobalTimeReel.late
    (fun done call rest hcl sel w pos hw => ?_)
    (Digest.padded.sum (GlobalFrame.plain 1 1 [0] (some [1])).idText)
    (Digest.padded.sum (GlobalFrame.plain 1 2 [0] (some [1])).idText) (.plain 1 1 [0] (some [1]))
    (.plain 1 2 [0] (some [1])) 0 (by decide +kernel) (by decide +kernel) (by decide) rfl (by decide) (by decide)).1
  -- nothing waits at any time
  have hnn : ∀ done ∈ GlobalTimeReel.late.inits,
      (GlobalTimeReel.run (GlobalTimeReel.plainConfig 1) .plain done).pendingFrames.entries = [] := by decide +kernel
  have hem := hnn done ((mem_inits done GlobalTimeReel.late).mpr ⟨call :: rest, hcl.symm⟩)
  rw [FrameTree.pending, OrdMap.get, hem] at hw
  cases hw

end Quilibrium
