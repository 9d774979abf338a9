import Quilibrium.Theorems.FrameTree

/-! Pruning keeps the forest, the fork choice leaves the tree alone and moves the head to a leaf, and pending frames
    are released one by one. -/

namespace Quilibrium
open List Option FrameTree

variable {F S : Type}

namespace TimeReel

variable {R : Reel F S} {W : World F} {st : TimeReel F S} {id : Bytes}

/-! ### Visits -/

theorem mem_visit : id ∈ (st.visit W).1 ↔ st.Has id := by
  rw [visit, (W.perm_order _ _).mem_iff, List.mem_map, has_iff]
  constructor
  · rintro ⟨⟨k, n⟩, hm, rfl⟩
    exact ⟨n, OrdMap.get_eq_some.mpr hm⟩
  · rintro ⟨n, hn⟩
    exact ⟨(id, n), OrdMap.get_eq_some.mp hn, rfl⟩

theorem nodup_visit : (st.visit W).1.Nodup := by
  rw [visit, (W.perm_order _ _).nodup_iff, Nodup, pairwise_map]
  exact st.nodes.sorted.imp ne_of_lt

/-! ### Pruning -/

/-- What pruning leaves of the reel besides the tree. -/
structure SameOutputs (st st' : TimeReel F S) : Prop where
  head : st'.head = st.head
  store : st'.store = st.store
  events : st'.events = st.events
  effects : st'.effects = st.effects

theorem SameOutputs.refl (st : TimeReel F S) : SameOutputs st st := ⟨rfl, rfl, rfl, rfl⟩

theorem SameOutputs.trans {st₁ st₂ st₃ : TimeReel F S} (h : SameOutputs st₁ st₂) (h' : SameOutputs st₂ st₃) :
    SameOutputs st₁ st₃ :=
  ⟨h'.head.trans h.head, h'.store.trans h.store, h'.events.trans h.events, h'.effects.trans h.effects⟩

variable (R W st id) in
theorem pruneNode_sameOutputs (minDepth : Nat) : SameOutputs st (pruneNode R W minDepth st id) := by
  rw [pruneNode]
  split_ifs
  · exact ⟨rfl, rfl, rfl, rfl⟩
  · exact ⟨rfl, rfl, rfl, rfl⟩

variable (R W st id) in
theorem pruneNode_tree (minDepth : Nat) :
    (st.root ≠ some id ∧ (pruneNode R W minDepth st id).toFrameTree = st.removeNode R id) ∨
      (st.root = some id ∧ ∃ visited, (∀ c, c ∈ visited ↔ (st.removeNode R id).Has c) ∧
        (pruneNode R W minDepth st id).toFrameTree = (st.removeNode R id).chooseRoot R minDepth visited) := by
  rw [pruneNode]
  split_ifs with h
  · exact .inr ⟨root_removeNode.symm.trans h, _, fun _ => mem_visit, rfl⟩
  · exact .inl ⟨fun heq => h (root_removeNode.trans heq), rfl⟩

/-- What pruning does not touch, and the invariants it keeps without knowing the tree. -/
structure Keeps (R : Reel F S) (st st' : TimeReel F S) : Prop extends SameOutputs st st' where
  pendingFrames : st'.pendingFrames = st.pendingFrames
  equivocators : st'.equivocators = st.equivocators
  indexed : st.Indexed R → st'.Indexed R
  listed : st.Listed → st'.Listed
  anchored : ∀ number, st.Anchored R number → st'.Anchored R number

theorem Keeps.refl (st : TimeReel F S) : Keeps R st st :=
  ⟨SameOutputs.refl st, rfl, rfl, fun h => h, fun h => h, fun _ h => h⟩

theorem Keeps.trans {st₁ st₂ st₃ : TimeReel F S} (h : Keeps R st₁ st₂) (h' : Keeps R st₂ st₃) : Keeps R st₁ st₃ :=
  ⟨h.toSameOutputs.trans h'.toSameOutputs, h'.pendingFrames.trans h.pendingFrames, h'.equivocators.trans h.equivocators,
    fun hi => h'.indexed (h.indexed hi), fun hl => h'.listed (h.listed hl),
    fun number ha => h'.anchored number (h.anchored number ha)⟩

variable (R W st id) in
theorem pruneNode_keeps (minDepth : Nat) : Keeps R st (pruneNode R W minDepth st id) := by
  have ho := pruneNode_sameOutputs R W st id minDepth
  rcases pruneNode_tree R W st id minDepth with ⟨hne, heq⟩ | ⟨hrt, visited, -, heq⟩
  · refine ⟨ho, ?_, ?_, fun hi => ?_, fun hl => ?_, fun number ha => ?_⟩
    · rw [heq, pendingFrames_removeNode]
    · rw [heq, equivocators_removeNode]
    · rw [heq]
      exact hi.removeNode id
    · rw [heq]
      exact hl.removeNode id
    · intro c f hf hnum
      rw [heq, frameOf_removeNode] at hf
      rw [heq, root_removeNode]
      split_ifs at hf
      exact ha c f hf hnum
  · refine ⟨ho, ?_, ?_, fun hi => ?_, fun hl => ?_, fun number ha => ?_⟩
    · rw [heq]
      exact pendingFrames_removeNode
    · rw [heq]
      exact equivocators_removeNode
    · rw [heq]
      exact (hi.removeNode id).chooseRoot visited
    · rw [heq]
      exact hl.removeNode id
    · intro c f hf hnum
      rw [heq, frameOf_chooseRoot, frameOf_removeNode] at hf
      split_ifs at hf with hc
      -- the only node of this number was the root that is removed
      exact absurd (some.inj ((ha c f hf hnum).symm.trans hrt)) hc

section
variable {t : FrameTree F} (hg : Lineage.Graded t.parentOf t.depthOf)
include hg

section
variable {minDepth : Nat} (hroots : ∀ c, t.depthOf c = minDepth → t.parentOf c = none)
include hroots

theorem foldl_pruneNode (ids : List Bytes) (hids : ∀ id ∈ ids, t.depthOf id < minDepth) (st : TimeReel F S)
    (h : t.Pruning minDepth st.toFrameTree ids) :
    t.Pruning minDepth (ids.foldl (pruneNode R W minDepth) st).toFrameTree [] ∧
      Keeps R st (ids.foldl (pruneNode R W minDepth) st) := by
  induction ids generalizing st with
  | nil => exact ⟨h, .refl st⟩
  | cons id ids ih =>
    have hst : t.Pruning minDepth (pruneNode R W minDepth st id).toFrameTree ids := by
      have hr := h.removeNode hg (hids id mem_cons_self) R
      rcases pruneNode_tree R W st id minDepth with ⟨-, heq⟩ | ⟨-, visited, -, heq⟩
      · rwa [heq]
      · rw [heq]
        exact hr.chooseRoot hroots R visited
    obtain ⟨hdn, hkp⟩ := ih (fun id' hid' => hids id' (mem_cons_of_mem id hid')) _ hst
    exact ⟨hdn, (pruneNode_keeps R W st id minDepth).trans hkp⟩

theorem foldl_pruneNode_root {k r : Bytes} (hk : t.IsRootAt minDepth k) (ids : List Bytes)
    (hids : ∀ id ∈ ids, t.depthOf id < minDepth) (st : TimeReel F S) (h : t.Pruning minDepth st.toFrameTree ids)
    (hr : st.root = some r) (hrs : r ∈ ids ∨ t.IsRootAt minDepth r) :
    ∃ r', (ids.foldl (pruneNode R W minDepth) st).root = some r' ∧ t.IsRootAt minDepth r' := by
  induction ids generalizing st r with
  | nil => exact ⟨r, hr, hrs.resolve_left not_mem_nil⟩
  | cons id ids ih =>
    have hids' : ∀ id' ∈ ids, t.depthOf id' < minDepth := fun id' hid' => hids id' (mem_cons_of_mem id hid')
    have hrem := h.removeNode hg (hids id mem_cons_self) R
    rcases pruneNode_tree R W st id minDepth with ⟨hne, heq⟩ | ⟨-, visited, hv, heq⟩
    · refine ih hids' _ (heq ▸ hrem) (r := r) ?_ (hrs.imp_left fun hm => ?_)
      · rw [heq, root_removeNode, hr]
      · exact (mem_cons.mp hm).resolve_left fun hrid => hne (hrid ▸ hr)
    · -- nodes at the least depth are still there
      have hkp : ∀ c, (st.removeNode R id).depthOf c = minDepth → (st.removeNode R id).Has c → t.IsRootAt minDepth c := by
        intro c hdp hc
        obtain ⟨n, hn⟩ := has_iff.mp hc
        rw [depthOf, hn, elim_some] at hdp
        by_cases hlt : t.depthOf c < minDepth
        · have := (hrem.left hlt hn).2.2
          omega
        · have hget := (hrem.kept (not_lt.mp hlt)).symm.trans hn
          exact ⟨has_iff.mpr ⟨n, hget⟩, by rw [depthOf, hget]; exact hdp⟩
      have hkH : (st.removeNode R id).IsRootAt minDepth k := by
        obtain ⟨n, hn⟩ := has_iff.mp hk.1
        have hget := (hrem.kept hk.2.ge).trans hn
        have hdp := hk.2
        rw [depthOf, hn] at hdp
        exact ⟨has_iff.mpr ⟨n, hget⟩, by rw [depthOf, hget]; exact hdp⟩
      obtain ⟨hat, hsm⟩ := chooseRoot_root (t := st.removeNode R id) (R := R) minDepth visited
      obtain ⟨r', hr'⟩ := ne_none_iff_exists'.mp (hsm ⟨k, (hv k).mpr hkH.1, hkH⟩)
      refine ih hids' _ (heq ▸ hrem.chooseRoot hroots R visited) (r := r') ?_ (.inr ?_)
      · rw [heq, hr']
      · exact hkp r' (hat r' hr').2 (hat r' hr').1

end

end

/-- What pruning starts from: the nodes to remove, and the tree in which the others no longer have them as parents. -/
theorem pruneOldFrames_eq (h : st.WF R) : pruneOldFrames R W st = st ∨
    ∃ (head : Bytes) (minDepth : Nat) (ids : List Bytes) (t : FrameTree F), st.head = some head ∧ minDepth + maxTreeDepth = st.depthOf head + 1 ∧
      (∀ id, id ∈ ids ↔ st.Has id ∧ st.depthOf id < minDepth) ∧ (∃ nodes, t = { st.toFrameTree with nodes }) ∧
      (∀ c, t.nodes.get c = (st.nodes.get c).map fun n => if n.depth = minDepth then n.orphan else n) ∧
      pruneOldFrames R W st = ids.foldl (pruneNode R W minDepth) ((st.visit W).2.withTree t) := by
  rw [pruneOldFrames]
  cases hhd : st.head with
  | none => exact .inl rfl
  | some head =>
    dsimp only
    split_ifs with hdp
    · exact .inl rfl
    · right
      have hm : ∀ id, id ∈ (st.visit W).1.filter
          (fun id => (st.visit W).2.depthOf id < st.depthOf head - maxTreeDepth + 1) ↔
            st.Has id ∧ st.depthOf id < st.depthOf head - maxTreeDepth + 1 := by
        intro id
        rw [mem_filter, mem_visit]
        exact and_congr_right fun _ => decide_eq_true_iff
      exact ⟨head, _, _, _, rfl, by omega, hm, foldl_orphanChildren_eq _ _ st.toFrameTree, get_orphaned h hm, rfl⟩

theorem pruneOldFrames_spec (h : st.WF R) : pruneOldFrames R W st = st ∨
    ∃ head minDepth, st.head = some head ∧ minDepth + maxTreeDepth = st.depthOf head + 1 ∧
      (∀ c, (pruneOldFrames R W st).nodes.get c = (st.nodes.get c).bind (FrameNode.pruned minDepth)) ∧
      Keeps R st (pruneOldFrames R W st) := by
  rcases pruneOldFrames_eq (W := W) h with heq | ⟨head, minDepth, ids, t, hhd, hmin, hm, ⟨nodes, hot⟩, hget, heq⟩
  · exact .inl heq
  · refine .inr ⟨head, minDepth, hhd, hmin, ?_⟩
    have hfr : t.frameOf = st.frameOf := frameOf_orphaned hget
    have hdp : t.depthOf = st.depthOf := depthOf_orphaned hget
    obtain ⟨hdn, hkp⟩ := foldl_pruneNode (R := R) (W := W) (h.graded_orphaned hget) (roots_orphaned hget)
      ids (fun id hid => hdp ▸ ((hm id).mp hid).2) ((st.visit W).2.withTree t)
      (.refl fun c hc hlt => (hm c).mpr ⟨has_orphaned hget ▸ hc, hdp ▸ hlt⟩)
    have hst : Keeps R st ((st.visit W).2.withTree t) := by
      refine ⟨⟨rfl, rfl, rfl, rfl⟩, ?_, ?_, fun hi number id => ?_, fun hl number => ?_, fun number ha id f => ?_⟩
      · change t.pendingFrames = _
        rw [hot]
      · change t.equivocators = _
        rw [hot]
      · have hls : t.framesByNumber = st.framesByNumber := by rw [hot]
        change id ∈ t.framesByNumber number ↔ ∃ f, t.frameOf id = some f ∧ _
        rw [hls, hfr]
        exact hi number id
      · have hls : t.framesByNumber = st.framesByNumber := by rw [hot]
        change (t.framesByNumber number).Nodup
        rw [hls]
        exact hl number
      · have hrt : t.root = st.root := by rw [hot]
        change t.frameOf id = some f → _ → t.root = _
        rw [hfr, hrt]
        exact ha id f
    rw [heq]
    refine ⟨fun c => ?_, hst.trans hkp⟩
    by_cases hc : t.depthOf c < minDepth
    · have hnn : (ids.foldl (pruneNode R W minDepth) ((st.visit W).2.withTree t)).nodes.get c = none :=
        eq_none_iff_forall_ne_some.mpr fun n hn => not_mem_nil (hdn.left hc hn).1
      rw [hnn]
      cases hn : st.nodes.get c with
      | none => rfl
      | some n =>
        rw [hdp, depthOf, hn, elim_some] at hc
        exact (if_pos hc).symm
    · rw [hdn.kept (not_lt.mp hc), hget]
      cases hn : st.nodes.get c with
      | none => rfl
      | some n =>
        rw [hdp, depthOf, hn, elim_some] at hc
        rw [map_some, bind_some, FrameNode.pruned, if_neg hc]
        split_ifs
        · rfl
        · rfl

/-! ### Transactions -/

/-- What a transaction over these frames adds to the effects. -/
def committed (W : World F) (frames : List F) : List (Effect F) :=
  if frames.all W.materialize then frames.map .materialized else []

/-- What a rewind of these frames adds to the effects. -/
def undone (R : Reel F S) (W : World F) (frames : List F) : List (Effect F) :=
  let frames := frames.filter fun f => !R.skipsRewind f
  if frames.all W.revert then frames.map .reverted else []

section effects

variable (R W st) (frames : List F) (ids : List Bytes) (event : TimeReelEvent F)

theorem persist_tree : (persistCanonicalFrames R W st frames).2.toFrameTree = st.toFrameTree := by
  rw [persistCanonicalFrames]
  split_ifs
  · rfl
  · rfl
  · rfl

theorem persist_head : (persistCanonicalFrames R W st frames).2.head = st.head := by
  rw [persistCanonicalFrames]
  split_ifs
  · rfl
  · rfl
  · rfl

theorem persist_effects : (persistCanonicalFrames R W st frames).2.effects = st.effects ++ committed W frames := by
  rw [persistCanonicalFrames, committed]
  split_ifs with hem hall hall
  · rw [isEmpty_iff.mp hem]
    simp
  · simp
  · rfl
  · simp

theorem rewind_tree : (rewindFrames R W st ids).toFrameTree = st.toFrameTree := by
  rw [rewindFrames]
  split_ifs
  · rfl
  · rfl

theorem rewind_head : (rewindFrames R W st ids).head = st.head := by
  rw [rewindFrames]
  split_ifs
  · rfl
  · rfl

theorem rewind_effects : (rewindFrames R W st ids).effects = st.effects ++ undone R W (st.frames ids) := by
  rw [rewindFrames, undone]
  split_ifs
  · rfl
  · simp

theorem foldl_sendEvent (l : List F) : l.foldl (fun st f => st.sendEvent (.newHead f none)) st =
    { st with events := st.events ++ l.map fun f => .newHead f none } := by
  induction l generalizing st with
  | nil => simp
  | cons f l ih =>
    rw [foldl_cons, ih, sendEvent]
    simp

variable (ancestor newHead : Bytes)

theorem emitReplay_tree : (emitReplayEvents R W st ancestor newHead).toFrameTree = st.toFrameTree := by
  rw [emitReplayEvents]
  dsimp only
  rw [foldl_sendEvent]
  exact persist_tree R W st _

theorem emitReplay_head : (emitReplayEvents R W st ancestor newHead).head = st.head := by
  rw [emitReplayEvents]
  dsimp only
  rw [foldl_sendEvent]
  exact persist_head R W st _

theorem emitReplay_effects : (emitReplayEvents R W st ancestor newHead).effects =
    st.effects ++ committed W (st.frames ((st.lineage newHead).takeWhile (· ≠ ancestor)).reverse) := by
  rw [emitReplayEvents]
  dsimp only
  rw [foldl_sendEvent]
  exact persist_effects R W st _

theorem sendHeadEvent_eq (oldHead : Option Bytes) : ∃ events, st.sendHeadEvent newHead oldHead = { st with events } := by
  rw [sendHeadEvent]
  split
  · exact ⟨_, rfl⟩
  · split_ifs
    · exact ⟨_, rfl⟩
    · exact ⟨_, rfl⟩

end effects

/-! ### The fork choice -/

section forkChoice

variable (R W st) (oldHead chosen : Bytes) (persisted : List F)

theorem reorganize_tree : (reorganize R W st oldHead chosen).toFrameTree = st.toFrameTree := by
  rw [reorganize]
  dsimp only
  split
  · rw [rewind_tree]
    cases st.frameOf chosen <;> rfl
  · rw [emitReplay_tree, rewind_tree]
    cases st.frameOf chosen <;> rfl

theorem advance_tree : (advance R W st oldHead chosen persisted).toFrameTree = st.toFrameTree := by
  rw [advance]
  dsimp only
  cases ((persistCanonicalFrames R W { st with head := some chosen } persisted).2.frameOf chosen) with
  | none | some f => exact persist_tree R W _ persisted

theorem updateHead_tree : (updateHead R W st oldHead chosen persisted).toFrameTree = st.toFrameTree := by
  rw [updateHead]
  split_ifs
  · rfl
  · exact advance_tree R W st oldHead chosen persisted
  · exact reorganize_tree R W st oldHead chosen

theorem reorganize_head : (reorganize R W st oldHead chosen).head = some chosen := by
  rw [reorganize]
  dsimp only
  split
  · rw [rewind_head]
    cases st.frameOf chosen <;> rfl
  · rw [emitReplay_head, rewind_head]
    cases st.frameOf chosen <;> rfl

theorem advance_head : (advance R W st oldHead chosen persisted).head = some chosen := by
  rw [advance]
  dsimp only
  cases ((persistCanonicalFrames R W { st with head := some chosen } persisted).2.frameOf chosen) with
  | none | some f => exact persist_head R W _ persisted

theorem updateHead_head (h : st.head = some oldHead) :
    (updateHead R W st oldHead chosen persisted).head = some chosen := by
  rw [updateHead]
  split_ifs with hsm
  · rw [h, hsm]
  · exact advance_head R W st oldHead chosen persisted
  · exact reorganize_head R W st oldHead chosen

end forkChoice

/-! ### Leaves and the choice among them -/

theorem mem_leafNodes : id ∈ (findLeafNodes W st).1 ↔ st.IsLeaf id := by
  rw [findLeafNodes, mem_filter, mem_visit, IsLeaf]
  exact and_congr_right fun _ => isEmpty_iff

theorem nodup_leafNodes : (findLeafNodes W st).1.Nodup := nodup_visit.filter _

theorem foldl_max (depth : Bytes → Nat) (l : List Bytes) (d : Nat) :
    d ≤ l.foldl (fun d x => max d (depth x)) d ∧ (∀ x ∈ l, depth x ≤ l.foldl (fun d x => max d (depth x)) d) ∧
      (l.foldl (fun d x => max d (depth x)) d = d ∨ ∃ x ∈ l, depth x = l.foldl (fun d x => max d (depth x)) d) := by
  induction l generalizing d with
  | nil => simp
  | cons a l ih =>
    rw [foldl_cons]
    obtain ⟨hd, hall, hex⟩ := ih (max d (depth a))
    refine ⟨by omega, forall_mem_cons.mpr ⟨by omega, hall⟩, ?_⟩
    rcases hex with hex | ⟨x, hx, hex⟩
    · rcases le_total d (depth a) with hle | hle
      · exact .inr ⟨a, mem_cons_self, by omega⟩
      · exact .inl (by omega)
    · exact .inr ⟨x, mem_cons_of_mem a hx, hex⟩

theorem mem_competingLeaves {leaves : List Bytes} : id ∈ st.competingLeaves leaves ↔
    id ∈ leaves ∧ ∀ leaf ∈ leaves, st.depthOf leaf ≤ st.depthOf id := by
  obtain ⟨-, hall, hex⟩ := foldl_max st.depthOf leaves 0
  rw [competingLeaves, mem_filter, decide_eq_true_iff]
  refine and_congr_right fun hid => ⟨fun heq leaf hlf => heq ▸ hall leaf hlf, fun hm => ?_⟩
  refine le_antisymm (hall id hid) ?_
  rcases hex with hex | ⟨x, hx, hex⟩
  · rw [hex]
    exact Nat.zero_le _
  · exact hex ▸ hm x hx

theorem mem_competing : id ∈ st.competingLeaves (findLeafNodes W st).1 ↔ st.IsTop id := by
  rw [mem_competingLeaves, mem_leafNodes, FrameTree.IsTop]
  exact and_congr_right fun _ => forall_congr' fun leaf => by rw [mem_leafNodes]

variable (st) in
theorem exists_mem_competing {leaves : List Bytes} (h : leaves ≠ []) : ∃ id, id ∈ st.competingLeaves leaves := by
  obtain ⟨-, hall, hex⟩ := foldl_max st.depthOf leaves 0
  rcases hex with hex | ⟨x, hx, hex⟩
  · obtain ⟨a, ha⟩ := exists_mem_of_ne_nil leaves h
    refine ⟨a, mem_competingLeaves.mpr ⟨ha, fun leaf hlf => ?_⟩⟩
    have := hall leaf hlf
    omega
  · exact ⟨x, mem_competingLeaves.mpr ⟨hx, fun leaf hlf => hex ▸ hall leaf hlf⟩⟩

variable (R st) in
theorem chooseLeaf_spec (head : Bytes) {leaves : List Bytes} (h : leaves ≠ []) :
    ∃ chosen ∈ leaves, st.chooseLeaf R head leaves = some chosen ∧
      ∀ leaf ∈ leaves, st.score R leaf ≤ st.score R chosen + R.forkChoiceParams.epsilon := by
  obtain ⟨prev, hpr⟩ : ∃ i, i = if leaves.contains head then leaves.idxOf head else 0 := ⟨_, rfl⟩
  have hlt : prev < (leaves.map (st.nodeToBranch R)).length := by
    rw [length_map, hpr]
    split_ifs with hc
    · exact idxOf_lt_length_of_mem (contains_iff_mem.mp hc)
    · exact length_pos_of_ne_nil h
  obtain ⟨hsm, hall⟩ := ForkChoice.forkChoice_spec R.forkChoiceParams (leaves.map (st.nodeToBranch R)) prev
  have hidx := hsm.elim (·.trans_lt hlt) fun h => ForkChoice.lt_of_scoreAt_pos _ _ (Nat.zero_lt_of_lt h)
  rw [length_map] at hidx
  rw [chooseLeaf, ← hpr]
  refine ⟨_, getElem_mem hidx, getElem?_eq_getElem hidx, fun leaf hlf => ?_⟩
  have hle := hall _ (mem_map_of_mem hlf)
  rwa [ForkChoice.scoreAt, getElem?_map, getElem?_eq_getElem hidx] at hle

theorem eq_of_length_le_one {α : Type} {l : List α} {a b : α} (h : l.length ≤ 1) (ha : a ∈ l) (hb : b ∈ l) : a = b := by
  match l, h with
  | [x], _ => rw [mem_singleton.mp ha, mem_singleton.mp hb]

inductive Evaluated (R : Reel F S) (W : World F) (st : TimeReel F S) (head newNode : Bytes) (st' : TimeReel F S) : Prop
  /-- One leaf, and the new node is not deeper than the head. -/
  | stay (single : ∀ l l', st.IsLeaf l → st.IsLeaf l' → l = l') (depth : st.depthOf newNode ≤ st.depthOf head)
      (eq : st' = (findLeafNodes W st).2)
  | extend (events : List (TimeReelEvent F)) (single : ∀ l l', st.IsLeaf l → st.IsLeaf l' → l = l')
      (depth : st.depthOf head < st.depthOf newNode)
      (eq : st' = { (persistCanonicalFrames R W { (findLeafNodes W st).2 with head := some newNode }
        (st.frames [newNode])).2 with events })
  | deepest (chosen : Bytes) (top : st.IsTop chosen) (only : ∀ other, st.IsTop other → other = chosen)
      (eq : st' = updateHead R W (findLeafNodes W st).2 head chosen ((findLeafNodes W st).2.advanceFrames R newNode chosen))
  | best (chosen : Bytes) (top : st.IsTop chosen) (several : ∃ other, st.IsTop other ∧ other ≠ chosen)
      (score : ∀ other, st.IsTop other → st.score R other ≤ st.score R chosen + R.forkChoiceParams.epsilon)
      (eq : st' = updateHead R W (findLeafNodes W st).2 head chosen [])

variable (R W) in
theorem evaluated {head : Bytes} (hhd : st.head = some head) (newNode : Bytes) :
    Evaluated R W st head newNode (evaluateForkChoice R W st newNode) := by
  rw [evaluateForkChoice, hhd]
  dsimp only
  split_ifs with hlen hdp
  · have hs : ∀ l l', st.IsLeaf l → st.IsLeaf l' → l = l' := fun l l' hl hl' =>
      eq_of_length_le_one hlen (mem_leafNodes.mpr hl) (mem_leafNodes.mpr hl')
    obtain ⟨events, heq⟩ := sendHeadEvent_eq (persistCanonicalFrames R W
      { (findLeafNodes W st).2 with head := some newNode } ((findLeafNodes W st).2.frames [newNode])).2 newNode (some head)
    exact .extend events hs hdp heq
  · have hs : ∀ l l', st.IsLeaf l → st.IsLeaf l' → l = l' := fun l l' hl hl' =>
      eq_of_length_le_one hlen (mem_leafNodes.mpr hl) (mem_leafNodes.mpr hl')
    exact .stay hs (not_lt.mp hdp) rfl
  · have hne : (findLeafNodes W st).1 ≠ [] := fun hnil => hlen (by rw [hnil]; exact Nat.zero_le _)
    have hm : ∀ id, id ∈ st.competingLeaves (findLeafNodes W st).1 ↔ st.IsTop id := fun id => mem_competing
    have hnd : (st.competingLeaves (findLeafNodes W st).1).Nodup := nodup_leafNodes.filter _
    obtain ⟨top, ht⟩ := exists_mem_competing st hne
    have hv : (findLeafNodes W st).2.competingLeaves (findLeafNodes W st).1 =
      st.competingLeaves (findLeafNodes W st).1 := rfl
    rw [hv]
    generalize st.competingLeaves (findLeafNodes W st).1 = leaves at hm hnd ht ⊢
    split
    next chosen =>
      refine .deepest chosen ((hm chosen).mp mem_cons_self) (fun other hot => ?_) rfl
      exact mem_singleton.mp ((hm other).mpr hot)
    next hsev =>
      obtain ⟨chosen, hc, heq, hsc⟩ := chooseLeaf_spec R (findLeafNodes W st).2 head (ne_nil_of_mem ht)
      rw [heq]
      refine .best chosen ((hm chosen).mp hc) ?_ (fun other hot => hsc other ((hm other).mpr hot)) rfl
      -- two different leaves cannot both be the chosen one
      match leaves with
      | [a] => exact absurd rfl (hsev a)
      | a :: b :: rest =>
        have hab : a ≠ b := fun heq => (nodup_cons.mp hnd).1 (heq ▸ mem_cons_self)
        by_cases ha : a = chosen
        · exact ⟨b, (hm b).mp (mem_cons_of_mem a mem_cons_self), fun hb => hab (ha.trans hb.symm)⟩
        · exact ⟨a, (hm a).mp mem_cons_self, ha⟩

variable (R W st) in
theorem evaluateForkChoice_tree (newNode : Bytes) : (evaluateForkChoice R W st newNode).toFrameTree = st.toFrameTree := by
  cases hhd : st.head with
  | none =>
    obtain ⟨events, heq⟩ := sendHeadEvent_eq { st with head := some newNode } newNode none
    rw [evaluateForkChoice, hhd, heq]
  | some head =>
    cases evaluated R W hhd newNode with
    | stay _ _ heq =>
      rw [heq]
      rfl
    | extend events _ _ heq =>
      rw [heq]
      exact persist_tree R W _ _
    | deepest chosen _ _ heq | best chosen _ _ _ heq =>
      rw [heq]
      exact updateHead_tree R W _ _ _ _

/-! ### What happens to the store -/

section store

-- the store changes only where frames of the tree are persisted
variable {P : S → Prop} {N : F → Prop}
  (hpersist : ∀ head frames s, (∀ f ∈ frames, N f) → P s → P (R.persist head frames s))
include hpersist

theorem persist_store {frames : List F} (hfrs : ∀ f ∈ frames, N f) (h : P st.store) :
    P (persistCanonicalFrames R W st frames).2.store := by
  rw [persistCanonicalFrames]
  split_ifs
  · exact h
  · exact hpersist _ frames _ hfrs h
  · exact h

variable (hN : ∀ id f, st.frameOf id = some f → N f)
include hN

section
variable (h : P st.store)
include h

theorem emitReplay_store (ancestor newHead : Bytes) : P (emitReplayEvents R W st ancestor newHead).store := by
  rw [emitReplayEvents]
  dsimp only
  rw [foldl_sendEvent]
  refine persist_store hpersist (fun f hf => ?_) h
  obtain ⟨id, -, hid⟩ := mem_frames.mp hf
  exact hN id f hid

theorem reorganize_store (oldHead chosen : Bytes) : P (reorganize R W st oldHead chosen).store := by
  have hr : ∀ (st' : TimeReel F S) ids, (rewindFrames R W st' ids).store = st'.store := by
    intro st' ids
    rw [rewindFrames]
    split_ifs
    · rfl
    · rfl
  have hann : ∀ st' : TimeReel F S, ((st'.frameOf chosen).elim st' fun f =>
      st'.sendEvent (.forkDetected f (st'.frameOf oldHead))).store = st'.store ∧ ((st'.frameOf chosen).elim st' fun f =>
      st'.sendEvent (.forkDetected f (st'.frameOf oldHead))).toFrameTree = st'.toFrameTree := by
    intro st'
    cases st'.frameOf chosen with
    | none => exact ⟨rfl, rfl⟩
    | some f => exact ⟨rfl, rfl⟩
  obtain ⟨hst, htr⟩ := hann { st with head := some chosen }
  rw [reorganize]
  dsimp only
  split
  · rw [hr, hst]
    exact h
  · refine emitReplay_store hpersist (fun id f hf => hN id f ?_) (by rw [hr, hst]; exact h) _ _
    rwa [rewind_tree, htr] at hf

omit hN in
theorem advance_store (oldHead chosen : Bytes) {persisted : List F} (hfrs : ∀ f ∈ persisted, N f) :
    P (advance R W st oldHead chosen persisted).store := by
  have hper : P (persistCanonicalFrames R W { st with head := some chosen } persisted).2.store :=
    persist_store hpersist hfrs h
  rw [advance]
  dsimp only
  cases ((persistCanonicalFrames R W { st with head := some chosen } persisted).2.frameOf chosen) with
  | none => exact hper
  | some f => exact hper

theorem updateHead_store (oldHead chosen : Bytes) {persisted : List F} (hfrs : ∀ f ∈ persisted, N f) :
    P (updateHead R W st oldHead chosen persisted).store := by
  rw [updateHead]
  split_ifs
  · exact h
  · exact advance_store hpersist h oldHead chosen hfrs
  · exact reorganize_store hpersist hN h oldHead chosen

end

theorem evaluateForkChoice_store (hadv : ∀ new chosen, R.advanceFrame new chosen = new ∨ R.advanceFrame new chosen = chosen)
    (h : P st.store) (newNode : Bytes) : P (evaluateForkChoice R W st newNode).store := by
  have hN' : ∀ id f, (findLeafNodes W st).2.frameOf id = some f → N f := hN
  have h' : P (findLeafNodes W st).2.store := h
  cases hhd : st.head with
  | none =>
    obtain ⟨events, heq⟩ := sendHeadEvent_eq { st with head := some newNode } newNode none
    rw [evaluateForkChoice, hhd, heq]
    exact h
  | some head =>
    cases evaluated R W hhd newNode with
    | stay _ _ heq => rwa [heq]
    | extend events _ _ heq =>
      rw [heq]
      refine persist_store hpersist (fun f hf => ?_) h'
      obtain ⟨id, -, hid⟩ := mem_frames.mp hf
      exact hN id f hid
    | deepest chosen _ _ heq =>
      rw [heq]
      refine updateHead_store hpersist hN' h' head chosen fun f hf => ?_
      rw [advanceFrames] at hf
      split at hf
      next new g hnew hg =>
        rw [mem_singleton.mp hf]
        rcases hadv new g with heq | heq
        · rw [heq]
          exact hN' _ new hnew
        · rw [heq]
          exact hN' _ g hg
      · cases hf
    | best chosen _ _ _ heq =>
      rw [heq]
      exact updateHead_store hpersist hN' h' head chosen nofun

end store

/-! ### Sound reels -/

/-- The tree is well-formed, and the head is one of its nodes. -/
structure Sound (R : Reel F S) (st : TimeReel F S) : Prop where
  tree : st.toFrameTree.WF R
  keyed : st.Keyed R
  head : ∀ {id}, st.head = some id → st.Has id
  headed : st.head = none → ∀ id, ¬st.Has id

theorem sound_new (R : Reel F S) (store : S) : (new store : TimeReel F S).Sound R where
  tree := wf_empty R
  keyed sel f h := by cases h
  head h := by cases h
  headed _ id h := by cases h

namespace Sound

variable {st' : TimeReel F S} {f : F} {p : Bytes} (h : st.Sound R)
include h

theorem congr (hnd : st'.nodes = st.nodes) (hpn : st'.pendingFrames = st.pendingFrames)
    (hhd : st'.head = st.head) : st'.Sound R := by
  have hh : ∀ id, st'.Has id ↔ st.Has id := by
    intro id
    rw [FrameTree.Has, hnd, FrameTree.Has]
  refine ⟨h.tree.congr hnd, fun sel f hf => h.keyed sel f ?_, fun hid => ?_, fun hid id => ?_⟩
  · rwa [FrameTree.pending, hpn] at hf
  · exact (hh _).mpr (h.head (hhd ▸ hid))
  · exact fun hc => h.headed (hhd ▸ hid) id ((hh id).mp hc)

theorem withTree {t : FrameTree F} (hnd : t.nodes = st.nodes) (hky : t.Keyed R) : (st.withTree t).Sound R := by
  have hh : ∀ id, t.Has id ↔ st.Has id := by
    intro id
    rw [FrameTree.Has, hnd, FrameTree.Has]
  exact ⟨h.tree.congr hnd, hky, fun hid => (hh _).mpr (h.head hid),
    fun hid id hc => h.headed hid id ((hh id).mp hc)⟩

theorem takePending (sel : Bytes) : (st.withTree (st.takePending R sel)).Sound R := by
  refine h.withTree ?_ fun sel' f hf => h.keyed sel' f (mem_pending_takePending hf)
  rw [FrameTree.takePending]
  split_ifs
  · rfl
  · rfl

theorem addPendingFrame (f : F) : (st.withTree (st.addPendingFrame R f)).Sound R := by
  refine h.withTree rfl fun sel g hg => ?_
  rcases mem_pending_addPendingFrame.mp hg with hg | ⟨rfl, rfl⟩
  · exact h.keyed sel g hg
  · rfl

theorem pruneOldPendingFrames (now : Int) : (st.withTree (st.pruneOldPendingFrames R now)).Sound R :=
  h.withTree rfl fun sel f hf => h.keyed sel f (mem_pending_pruneOldPendingFrames hf)

theorem attach (hfr : ¬st.Has (R.frameId f)) (hp : st.Has p)
    (hs : ∀ g, st.frameOf p = some g → R.selector g = R.parentSelector f) :
    (st.withTree (st.attach R f p)).Sound R := by
  refine ⟨h.tree.attach hfr hp hs, h.keyed, fun hid => ?_, fun hid => absurd hp (h.headed hid p)⟩
  exact (has_attach hfr hp).mpr (.inr (h.head hid))

theorem plantHead (hfr : ¬st.Has (R.frameId f)) : (st.plantHead R f).Sound R := by
  refine ⟨h.tree.plantRoot hfr, h.keyed, fun hid => ?_, nofun⟩
  exact has_plantRoot.mpr (.inl (some.inj hid).symm)

theorem evaluate (W : World F) {id : Bytes} (hid : st.Has id) : (evaluateForkChoice R W st id).Sound R := by
  have htr := evaluateForkChoice_tree R W st id
  suffices hhd : ∃ c, (evaluateForkChoice R W st id).head = some c ∧ st.Has c by
    obtain ⟨c, hc, hh⟩ := hhd
    refine ⟨htr ▸ h.tree, htr ▸ h.keyed, fun hid => ?_, fun hnn => ?_⟩
    · rw [hc] at hid
      rw [htr, ← some.inj hid]
      exact hh
    · rw [hc] at hnn
      cases hnn
  cases hhd : st.head with
  | none => exact absurd hid (h.headed hhd id)
  | some head =>
    cases evaluated R W hhd id with
    | stay _ _ heq => exact ⟨head, by rw [heq]; exact hhd, h.head hhd⟩
    | extend events _ _ heq => exact ⟨id, by rw [heq]; exact persist_head R W _ _, hid⟩
    | deepest chosen ht _ heq | best chosen ht _ _ heq =>
      exact ⟨chosen, by rw [heq]; exact updateHead_head R W _ _ _ _ hhd, ht.1.1⟩

theorem pruneOldFrames (W : World F) : (pruneOldFrames R W st).Sound R := by
  rcases pruneOldFrames_spec (W := W) h.tree with heq | ⟨head, minDepth, hhd, hm, hget, hkp⟩
  · rwa [heq]
  · refine ⟨h.tree.pruned hget, fun sel f hf => h.keyed sel f ?_, fun hid => ?_, fun hnn => ?_⟩
    · rwa [FrameTree.pending, hkp.pendingFrames] at hf
    · rw [hkp.head, hhd] at hid
      refine (has_pruned hget).mpr ⟨h.head (hhd.trans hid), ?_⟩
      rw [← some.inj hid]
      have : maxTreeDepth = 360 := rfl
      omega
    · rw [hkp.head, hhd] at hnn
      cases hnn

theorem grounded_pruneOldFrames (W : World F) (hg : st.Grounded) : (TimeReel.pruneOldFrames R W st).Grounded := by
  rcases pruneOldFrames_spec (W := W) h.tree with heq | ⟨head, minDepth, hhd, hmin, hget, -⟩
  · rwa [heq]
  rcases pruneOldFrames_eq (W := W) h.tree with heq | ⟨head', minDepth', ids, t, hhd', hm', hm, ⟨nodes, hot⟩, ho, heq⟩
  · rwa [heq]
  cases some.inj (hhd.symm.trans hhd')
  obtain rfl : minDepth' = minDepth := by omega
  have hdp : t.depthOf = st.depthOf := depthOf_orphaned ho
  have hh : t.Has = st.Has := has_orphaned ho
  intro c hc hnn
  obtain ⟨hcH, hcDe⟩ := (has_pruned hget).mp hc
  obtain ⟨r, hr, hrH, hrN, htp, hls⟩ := h.tree.exists_root hg hcH
  -- a node without a parent stands at the least depth that is kept, or had none before
  have hcT : st.depthOf c = minDepth' ∨ st.depthOf c = st.depthOf r := by
    by_cases hd : st.depthOf c = minDepth'
    · exact .inl hd
    · refine .inr (htp c hcH (eq_none_iff_forall_ne_some.mpr fun p hp => ?_))
      rw [(parentOf_pruned hget).mpr ⟨hp, by omega⟩] at hnn
      cases hnn
  have hor : ∀ a, st.Has a → st.depthOf a = minDepth' ∨ st.parentOf a = none ∧ minDepth' ≤ st.depthOf a →
      (TimeReel.pruneOldFrames R W st).Has a ∧ (TimeReel.pruneOldFrames R W st).parentOf a = none := by
    intro a ha hcs
    refine ⟨(has_pruned hget).mpr ⟨ha, by omega⟩, eq_none_iff_forall_ne_some.mpr fun p hp => ?_⟩
    obtain ⟨hp, hlt⟩ := (parentOf_pruned hget).mp hp
    rcases hcs with hd | ⟨hn, -⟩
    · omega
    · rw [hn] at hp
      cases hp
  rw [depthOf_pruned hget hc]
  rcases Nat.lt_or_ge (st.depthOf r) minDepth' with hlt | hge
  · have hhea : minDepth' ≤ st.depthOf head := by
      have : maxTreeDepth = 360 := rfl
      omega
    obtain ⟨k, hk, hkd⟩ := h.tree.exists_at_depth (fun a ha hn => (htp a ha hn).trans_le hlt.le) (h.head hhd) hhea
    obtain ⟨r', hr', hat⟩ := foldl_pruneNode_root (R := R) (W := W) (h.tree.graded_orphaned ho)
      (roots_orphaned ho) (k := k) (r := r) ⟨hh ▸ hk, hdp ▸ hkd⟩ ids
      (fun id hid => hdp ▸ ((hm id).mp hid).2) ((st.visit W).2.withTree t)
      (.refl fun a ha hlt => (hm a).mpr ⟨hh ▸ ha, hdp ▸ hlt⟩)
      (by change t.root = _; rw [hot]; exact hr) (.inl ((hm r).mpr ⟨hrH, hlt⟩))
    rw [IsRootAt, hh, hdp] at hat
    obtain ⟨hr'Has, hr'N⟩ := hor r' hat.1 (.inl hat.2)
    refine ⟨r', heq ▸ hr', hr'Has, hr'N, ?_⟩
    rw [depthOf_pruned hget hr'Has, hat.2]
    omega
  · have hnil : ids = [] := eq_nil_iff_forall_not_mem.mpr fun id hid => by
      have := hls id ((hm id).mp hid).1
      have := ((hm id).mp hid).2
      omega
    obtain ⟨hr'Has, hr'N⟩ := hor r hrH (.inr ⟨hrN, hge⟩)
    refine ⟨r, ?_, hr'Has, hr'N, ?_⟩
    · rw [heq, hnil]
      rw [hot]
      exact hr
    · rw [depthOf_pruned hget hr'Has]
      have := hls c hcH
      omega

end Sound

/-! ### Releasing pending frames -/

/-- What an invariant has to bear for `processPendingFrames` to keep it. It may depend on attached nodes whose fork
    choice is to come; `Known` holds of the frames that may be attached. -/
structure Releases (R : Reel F S) (W : World F) (Known : F → Prop) (I : List Bytes → TimeReel F S → Prop) : Prop where
  sound : ∀ {waiting st}, I waiting st → st.Sound R
  known : ∀ {waiting st sel f}, I waiting st → f ∈ st.pending sel → Known f
  take : ∀ {waiting st} (sel), I waiting st → I waiting (st.withTree (st.takePending R sel))
  attach : ∀ {waiting st f p g}, I waiting st → Known f → ¬st.Has (R.frameId f) → st.frameOf p = some g →
    R.selector g = R.parentSelector f → I (R.frameId f :: waiting) (st.withTree (st.attach R f p))
  evaluate : ∀ {waiting st id}, I (id :: waiting) st → st.Has id → I waiting (evaluateForkChoice R W st id)

theorem frameOf_takePending {sel : Bytes} : (st.takePending R sel).frameOf id = st.frameOf id := by
  rw [takePending]
  split_ifs
  · rfl
  · rfl

/-- Frames stay in the tree while others are released. -/
def Extends (st st' : TimeReel F S) : Prop := ∀ id f, st.frameOf id = some f → st'.frameOf id = some f

theorem Releases.processPendingFrames {Known : F → Prop} {I : List Bytes → TimeReel F S → Prop}
    (h : Releases R W Known I) (waiting : List Bytes) (fuel : Nat) {st : TimeReel F S} (hI : I waiting st) (parent : Bytes) :
    I waiting (processPendingFrames R W fuel st parent) ∧ Extends st (processPendingFrames R W fuel st parent) := by
  induction fuel generalizing waiting st parent with
  | zero => exact ⟨hI, fun _ _ hf => hf⟩
  | succ fuel ih =>
    rw [TimeReel.processPendingFrames]
    cases hpar : st.frameOf parent with
    | none => exact ⟨hI, fun _ _ hf => hf⟩
    | some g =>
      dsimp only
      split_ifs
      · exact ⟨hI, fun _ _ hf => hf⟩
      · have hls : ∀ f ∈ st.pending (R.selector g), Known f ∧ R.selector g = R.parentSelector f := fun f hf =>
          ⟨h.known hI hf, ((h.sound hI).keyed _ f hf).symm⟩
        have hst : Extends st (st.withTree (st.takePending R (R.selector g))) := fun id f hf =>
          frameOf_takePending.trans hf
        have hI' := h.take (R.selector g) hI
        -- the loop keeps the invariant and the frames that were there
        generalize st.withTree (st.takePending R (R.selector g)) = st₁ at hst hI'
        generalize st.pending (R.selector g) = l at hls
        induction l generalizing st₁ with
        | nil => exact ⟨hI', hst⟩
        | cons f l ihl =>
          obtain ⟨⟨hkn, hs⟩, hrs⟩ := forall_mem_cons.mp hls
          rw [foldl_cons]
          split_ifs with hh
          · exact ihl st₁ hst hI' hrs
          · have hp := hst parent g hpar
            have hpH : st₁.Has parent := has_iff_frameOf.mpr ⟨g, hp⟩
            have hatt := h.attach hI' hkn hh hp hs
            have hexs : Extends st₁ (st₁.withTree (st₁.attach R f parent)) := by
              intro id f' hf'
              have hne : id ≠ R.frameId f := fun heq => hh (has_iff_frameOf.mpr ⟨f', heq ▸ hf'⟩)
              exact (frameOf_attach hh hpH).trans ((if_neg hne).trans hf')
            obtain ⟨hr, hext⟩ := ih _ hatt (R.frameId f)
            have hnew : (TimeReel.processPendingFrames R W fuel (st₁.withTree (st₁.attach R f parent))
                (R.frameId f)).Has (R.frameId f) :=
              has_iff_frameOf.mpr ⟨f, hext _ _ ((frameOf_attach hh hpH).trans (if_pos rfl))⟩
            refine ihl _ (fun id f' hf' => ?_) (h.evaluate hr hnew) hrs
            rw [evaluateForkChoice_tree]
            exact hext id f' (hexs id f' (hst id f' hf'))

end TimeReel

end Quilibrium
