import Mathlib.Algebra.Order.BigOperators.Group.List
import Quilibrium.Time.Insert

/-! The tree of a time reel: what attaching, planting and pruning do to it, and that it stays a forest. -/

namespace Quilibrium
open Function List Option OrdMap

variable {F S : Type}

def FrameNode.orphan (n : FrameNode F) : FrameNode F := { n with parent := none }

/-- Nodes above the least depth are pruned, and those at it have no parent. -/
def FrameNode.pruned (minDepth : Nat) (n : FrameNode F) : Option (FrameNode F) :=
  if n.depth < minDepth then none else if n.depth = minDepth then some n.orphan else some n

namespace FrameTree

/-! ### Well-formed trees -/

def Has (t : FrameTree F) (id : Bytes) : Prop := (t.nodes.get id).isSome = true

instance instDecidableHas (t : FrameTree F) (id : Bytes) : Decidable (t.Has id) :=
  inferInstanceAs (Decidable ((t.nodes.get id).isSome = true))

/-- Nodes are filed under their IDs, and `Parent` and `Children` agree. -/
structure WF (R : Reel F S) (t : FrameTree F) : Prop where
  frameId : ∀ {id f}, t.frameOf id = some f → R.frameId f = id
  has_parent : ∀ {c p}, t.parentOf c = some p → t.Has p
  depth : ∀ {c p}, t.parentOf c = some p → t.depthOf c = t.depthOf p + 1
  mem_children : ∀ {c p}, t.parentOf c = some p → c ∈ t.childrenOf p
  parent_of_mem : ∀ {c p}, c ∈ t.childrenOf p → t.parentOf c = some p
  selector : ∀ {c p f g}, t.parentOf c = some p → t.frameOf c = some f → t.frameOf p = some g →
    R.selector g = R.parentSelector f

def Anchored (R : Reel F S) (number : Nat) (t : FrameTree F) : Prop :=
  ∀ id f, t.frameOf id = some f → R.frameNumber f = number → t.root = some id

def Indexed (R : Reel F S) (t : FrameTree F) : Prop :=
  ∀ number id, id ∈ t.framesByNumber number ↔ ∃ f, t.frameOf id = some f ∧ R.frameNumber f = number

def Listed (t : FrameTree F) : Prop := ∀ number, (t.framesByNumber number).Nodup

/-- The root stands at the depth of every node that has no parent. -/
def Grounded (t : FrameTree F) : Prop :=
  ∀ c, t.Has c → t.parentOf c = none → ∃ r, t.root = some r ∧ t.Has r ∧ t.parentOf r = none ∧ t.depthOf r = t.depthOf c

variable {R : Reel F S} {t t' : FrameTree F} {id c p : Bytes} {n : FrameNode F} {f g : F}

theorem has_iff : t.Has id ↔ ∃ n, t.nodes.get id = some n := isSome_iff_exists

theorem has_iff_frameOf : t.Has id ↔ ∃ f, t.frameOf id = some f := by
  rw [Has, ← isSome_map (f := FrameNode.frame), isSome_iff_exists]
  rfl

theorem mem_frames {l : List Bytes} : f ∈ t.frames l ↔ ∃ id ∈ l, t.frameOf id = some f := mem_filterMap

theorem has_of_parentOf (h : t.parentOf c = some p) : t.Has c := by
  obtain ⟨n, hn, -⟩ := bind_eq_some_iff.mp h
  exact has_iff.mpr ⟨n, hn⟩

theorem wf_empty (R : Reel F S) : (empty : FrameTree F).WF R where
  frameId h := by cases h
  has_parent h := by cases h
  depth h := by cases h
  mem_children h := by cases h
  parent_of_mem h := by cases h
  selector h := by cases h

theorem indexed_empty (R : Reel F S) : (empty : FrameTree F).Indexed R := by
  intro number id
  constructor
  · intro h
    cases h
  · rintro ⟨f, h, -⟩
    cases h

theorem WF.congr (h : t.WF R) (heq : t'.nodes = t.nodes) : t'.WF R := by
  have hfr : t'.frameOf = t.frameOf := by
    funext id
    rw [frameOf, heq, frameOf]
  have hprn : t'.parentOf = t.parentOf := by
    funext id
    rw [parentOf, heq, parentOf]
  have hch : t'.childrenOf = t.childrenOf := by
    funext id
    rw [childrenOf, heq, childrenOf]
  have hdp : t'.depthOf = t.depthOf := by
    funext id
    rw [depthOf, heq, depthOf]
  have hh : t'.Has = t.Has := by
    funext id
    rw [Has, heq, Has]
  constructor
  all_goals simp only [hfr, hprn, hch, hdp, hh]
  exacts [h.frameId, h.has_parent, h.depth, h.mem_children, h.parent_of_mem, h.selector]

namespace WF

variable (h : t.WF R)
include h

theorem graded : Lineage.Graded t.parentOf t.depthOf := fun _ _ hp => h.depth hp

theorem has_of_mem_lineage (hid : t.Has id) (hc : c ∈ t.lineage id) : t.Has c := by
  induction id using Lineage.induct h.graded with
  | root id hp =>
    rw [lineage, Lineage.lineage_none hp, mem_singleton] at hc
    rwa [hc]
  | child id p hp ih =>
    rcases (Lineage.mem_lineage_some h.graded hp).mp hc with rfl | hc
    · exact hid
    · exact ih (h.has_parent hp) hc

theorem mem_lineage_self : id ∈ t.lineage id := Lineage.self_mem h.graded id

theorem exists_top (hid : t.Has id) : ∃ a, t.Has a ∧ t.parentOf a = none ∧ t.depthOf a ≤ t.depthOf id := by
  induction id using Lineage.induct h.graded with
  | root id hp => exact ⟨id, hid, hp, le_rfl⟩
  | child id p hp ih =>
    obtain ⟨a, ha, hnn, hle⟩ := ih (h.has_parent hp)
    have := h.depth hp
    exact ⟨a, ha, hnn, by omega⟩

theorem exists_at_depth {d : Nat} (htp : ∀ c, t.Has c → t.parentOf c = none → t.depthOf c ≤ d) (hid : t.Has id)
    (hd : d ≤ t.depthOf id) : ∃ a, t.Has a ∧ t.depthOf a = d := by
  induction id using Lineage.induct h.graded with
  | root id hp => exact ⟨id, hid, le_antisymm (htp id hid hp) hd⟩
  | child id p hp ih =>
    have hdp := h.depth hp
    rcases Nat.lt_or_ge (t.depthOf p) d with hlt | hge
    · exact ⟨id, hid, by omega⟩
    · exact ih (h.has_parent hp) hge

theorem exists_root (hg : t.Grounded) (hid : t.Has id) : ∃ r, t.root = some r ∧ t.Has r ∧ t.parentOf r = none ∧
    (∀ c, t.Has c → t.parentOf c = none → t.depthOf c = t.depthOf r) ∧ ∀ c, t.Has c → t.depthOf r ≤ t.depthOf c := by
  obtain ⟨a, ha, hnn, -⟩ := h.exists_top hid
  obtain ⟨r, hr, hrH, hrN, -⟩ := hg a ha hnn
  have htp : ∀ c, t.Has c → t.parentOf c = none → t.depthOf c = t.depthOf r := by
    intro c hc hcn
    obtain ⟨r', hr', -, -, hd⟩ := hg c hc hcn
    rw [← hd, some.inj (hr.symm.trans hr')]
  refine ⟨r, hr, hrH, hrN, htp, fun c hc => ?_⟩
  obtain ⟨b, hb, hbn, hle⟩ := h.exists_top hc
  rwa [htp b hb hbn] at hle

end WF

/-! ### Leaves -/

def IsLeaf (t : FrameTree F) (id : Bytes) : Prop := t.Has id ∧ t.childrenOf id = []

def IsTop (t : FrameTree F) (id : Bytes) : Prop := t.IsLeaf id ∧ ∀ leaf, t.IsLeaf leaf → t.depthOf leaf ≤ t.depthOf id

theorem exists_depth_bound (t : FrameTree F) : ∃ bound, ∀ id, t.depthOf id ≤ bound := by
  refine ⟨(t.nodes.entries.map fun e => e.2.depth).sum, fun id => ?_⟩
  rw [depthOf]
  cases hn : t.nodes.get id with
  | none => exact Nat.zero_le _
  | some n =>
    exact le_sum_of_mem
      (mem_map.mpr ⟨(id, n), get_eq_some.mp hn, rfl⟩)

namespace WF

variable (h : t.WF R)
include h

theorem exists_leaf (hid : t.Has id) : ∃ leaf, t.IsLeaf leaf ∧ id ∈ t.lineage leaf := by
  obtain ⟨bound, hbn⟩ := exists_depth_bound t
  -- children are deeper, and depths are bounded
  generalize hk : bound - t.depthOf id = k
  induction k using Nat.strong_induction_on generalizing id with
  | _ k ih =>
    cases hc : t.childrenOf id with
    | nil => exact ⟨id, ⟨hid, hc⟩, h.mem_lineage_self⟩
    | cons c cs =>
      have hp := h.parent_of_mem (p := id) (c := c) (by rw [hc]; exact mem_cons_self)
      have hd := h.depth hp
      have hle := hbn c
      obtain ⟨leaf, hlf, hm⟩ := ih (bound - t.depthOf c) (by omega) (has_of_parentOf hp) rfl
      refine ⟨leaf, hlf, Lineage.trans h.graded hm ?_⟩
      exact (Lineage.mem_lineage_some h.graded hp).mpr (.inr h.mem_lineage_self)

theorem depth_le_top {top : Bytes} (ht : t.IsTop top) (hid : t.Has id) : t.depthOf id ≤ t.depthOf top := by
  obtain ⟨leaf, hlf, hm⟩ := h.exists_leaf hid
  exact (Lineage.depth_le h.graded hm).trans (ht.2 leaf hlf)

end WF

def score (R : Reel F S) (t : FrameTree F) (id : Bytes) : Nat :=
  ForkChoice.branchScore (t.nodeToBranch R id) R.forkChoiceParams

/-! ### A new node -/

section attach

variable (hfresh : ¬t.Has (R.frameId f)) (hp : t.Has p)
include hfresh hp

theorem get_attach : (t.attach R f p).nodes.get c =
    if c = p then (t.nodes.get c).map fun n => { n with children := n.children ++ [R.frameId f] }
    else if c = R.frameId f then some ⟨f, some p, [], t.depthOf p + 1⟩ else t.nodes.get c := by
  have hne : p ≠ R.frameId f := fun heq => hfresh (heq ▸ hp)
  rw [attach, get_modify, get_set]
  split_ifs with h₁ h₂
  · exact absurd (h₁ ▸ h₂) hne
  · rfl
  · rfl
  · rfl

theorem frameOf_attach : (t.attach R f p).frameOf c = if c = R.frameId f then some f else t.frameOf c := by
  have hne : p ≠ R.frameId f := fun heq => hfresh (heq ▸ hp)
  rw [frameOf, get_attach hfresh hp]
  split_ifs with h₁ h₂ h₂
  · exact absurd (h₁ ▸ h₂) hne
  · rw [Option.map_map]
    rfl
  · rfl
  · rfl

theorem parentOf_attach : (t.attach R f p).parentOf c = if c = R.frameId f then some p else t.parentOf c := by
  have hne : p ≠ R.frameId f := fun heq => hfresh (heq ▸ hp)
  rw [parentOf, get_attach hfresh hp]
  split_ifs with h₁ h₂ h₂
  · exact absurd (h₁ ▸ h₂) hne
  · rw [parentOf]
    cases t.nodes.get c <;> rfl
  · rfl
  · rfl

theorem depthOf_attach : (t.attach R f p).depthOf c = if c = R.frameId f then t.depthOf p + 1 else t.depthOf c := by
  have hne : p ≠ R.frameId f := fun heq => hfresh (heq ▸ hp)
  rw [depthOf, get_attach hfresh hp]
  split_ifs with h₁ h₂ h₂
  · exact absurd (h₁ ▸ h₂) hne
  · rw [depthOf]
    cases t.nodes.get c <;> rfl
  · rfl
  · rfl

theorem childrenOf_attach : (t.attach R f p).childrenOf c =
    if c = p then t.childrenOf p ++ [R.frameId f] else t.childrenOf c := by
  rw [childrenOf, get_attach hfresh hp]
  split_ifs with h₁ h₂
  · obtain ⟨np, hnp⟩ := has_iff.mp hp
    rw [h₁, childrenOf, hnp]
    rfl
  · rw [childrenOf, h₂, not_isSome_iff_eq_none.mp hfresh]
    rfl
  · rfl

theorem has_attach : (t.attach R f p).Has c ↔ c = R.frameId f ∨ t.Has c := by
  rw [has_iff_frameOf, frameOf_attach hfresh hp]
  split_ifs with h
  · simp [h]
  · rw [← has_iff_frameOf]
    simp [h]

theorem WF.attach (h : t.WF R) (hs : ∀ g, t.frameOf p = some g → R.selector g = R.parentSelector f) :
    (t.attach R f p).WF R := by
  have hne : p ≠ R.frameId f := fun heq => hfresh (heq ▸ hp)
  -- no old node points to the new one
  have hprn : ∀ {c q}, t.parentOf c = some q → q ≠ R.frameId f := fun hq heq => hfresh (heq ▸ h.has_parent hq)
  constructor
  · intro id g hg
    rw [frameOf_attach hfresh hp] at hg
    split_ifs at hg with hid
    · cases hg
      exact hid.symm
    · exact h.frameId hg
  · intro c q hq
    rw [has_attach hfresh hp]
    rw [parentOf_attach hfresh hp] at hq
    split_ifs at hq with hc
    · cases hq
      exact .inr hp
    · exact .inr (h.has_parent hq)
  · intro c q hq
    rw [parentOf_attach hfresh hp] at hq
    rw [depthOf_attach hfresh hp, depthOf_attach hfresh hp]
    split_ifs at hq ⊢ with hc
    · rcases hq with ⟨⟩
      exact absurd ‹_› hne
    · cases hq
      rfl
    · exact absurd ‹_› (hprn hq)
    · exact h.depth hq
  · intro c q hq
    rw [parentOf_attach hfresh hp] at hq
    rw [childrenOf_attach hfresh hp]
    split_ifs at hq ⊢ with hqp hc hc
    · rw [hc]
      exact mem_append_right _ (mem_singleton_self _)
    · exact mem_append_left _ (hqp ▸ h.mem_children hq)
    · exact absurd (some.inj hq).symm hqp
    · exact h.mem_children hq
  · intro c q hc
    rw [childrenOf_attach hfresh hp] at hc
    rw [parentOf_attach hfresh hp]
    have old : c ∈ t.childrenOf q → (if c = R.frameId f then some p else t.parentOf c) = some q := by
      intro hm
      have hq := h.parent_of_mem hm
      have hc : c ≠ R.frameId f := fun heq => hfresh (heq ▸ has_of_parentOf hq)
      rwa [if_neg hc]
    split_ifs at hc with hqp
    · rcases mem_append.mp hc with hc | hc
      · exact old (hqp ▸ hc)
      · rw [if_pos (mem_singleton.mp hc), hqp]
    · exact old hc
  · intro c q f' g hq hf hg
    rw [parentOf_attach hfresh hp] at hq
    rw [frameOf_attach hfresh hp] at hf hg
    split_ifs at hq hf hg with hc hqid hqid
    · cases hq
      exact absurd hqid hne
    · cases hq
      cases hf
      exact hs g hg
    · exact absurd hqid (hprn hq)
    · exact h.selector hq hf hg

theorem Indexed.attach (h : t.Indexed R) : (t.attach R f p).Indexed R := by
  intro number id
  have hls : (t.attach R f p).framesByNumber = update t.framesByNumber (R.frameNumber f)
    (t.framesByNumber (R.frameNumber f) ++ [R.frameId f]) := rfl
  rw [hls, update_apply, frameOf_attach hfresh hp]
  split_ifs with hnum hid hid
  · simp [hid, hnum]
  · rw [mem_append, h, mem_singleton, hnum]
    simp [hid]
  · rw [h]
    constructor
    · rintro ⟨g, hg, -⟩
      exact absurd (has_iff_frameOf.mpr ⟨g, hid ▸ hg⟩) hfresh
    · rintro ⟨g, ⟨⟩, hg⟩
      exact absurd hg.symm hnum
  · exact h number id

theorem Grounded.attach (h : t.Grounded) : (t.attach R f p).Grounded := by
  have ho : ∀ {c}, t.Has c → c ≠ R.frameId f := fun hc heq => hfresh (heq ▸ hc)
  intro c hc hnn
  rw [parentOf_attach hfresh hp] at hnn
  split_ifs at hnn with hid
  obtain ⟨r, hr, hrH, hrN, hdp⟩ := h c (((has_attach hfresh hp).mp hc).resolve_left hid) hnn
  refine ⟨r, hr, (has_attach hfresh hp).mpr (.inr hrH), ?_, ?_⟩
  · rw [parentOf_attach hfresh hp, if_neg (ho hrH)]
    exact hrN
  · rw [depthOf_attach hfresh hp, depthOf_attach hfresh hp, if_neg (ho hrH), if_neg hid]
    exact hdp

omit hp in
theorem Listed.attach (h : t.Listed) (hi : t.Indexed R) : (t.attach R f p).Listed := by
  intro number
  have hls : (t.attach R f p).framesByNumber = update t.framesByNumber (R.frameNumber f)
    (t.framesByNumber (R.frameNumber f) ++ [R.frameId f]) := rfl
  rw [hls, update_apply]
  split_ifs
  · refine (h _).append (nodup_singleton _) fun id hid hid' => hfresh ?_
    obtain ⟨g, hg, -⟩ := (hi _ id).mp hid
    exact has_iff_frameOf.mpr ⟨g, mem_singleton.mp hid' ▸ hg⟩
  · exact h number

end attach

/-! ### A new root -/

section plantRoot

variable (hfresh : ¬t.Has (R.frameId f))

theorem frameOf_plantRoot : (t.plantRoot R f).frameOf c = if c = R.frameId f then some f else t.frameOf c := by
  rw [frameOf, plantRoot, get_set]
  split_ifs
  · rfl
  · rfl

theorem depthOf_plantRoot : (t.plantRoot R f).depthOf c = if c = R.frameId f then 0 else t.depthOf c := by
  rw [depthOf, plantRoot, get_set]
  split_ifs
  · rfl
  · rfl

theorem has_plantRoot : (t.plantRoot R f).Has c ↔ c = R.frameId f ∨ t.Has c := by
  rw [has_iff_frameOf, frameOf_plantRoot]
  split_ifs with h
  · simp [h]
  · rw [← has_iff_frameOf]
    simp [h]

include hfresh

theorem parentOf_plantRoot : (t.plantRoot R f).parentOf c = t.parentOf c := by
  rw [parentOf, plantRoot, get_set]
  split_ifs with h
  · rw [parentOf, h, not_isSome_iff_eq_none.mp hfresh]
    rfl
  · rfl

theorem childrenOf_plantRoot : (t.plantRoot R f).childrenOf c = t.childrenOf c := by
  rw [childrenOf, plantRoot, get_set]
  split_ifs with h
  · rw [childrenOf, h, not_isSome_iff_eq_none.mp hfresh]
    rfl
  · rfl

theorem WF.plantRoot (h : t.WF R) : (t.plantRoot R f).WF R := by
  have ho : ∀ {c}, t.Has c → c ≠ R.frameId f := fun hc heq => hfresh (heq ▸ hc)
  constructor
  · intro id g hg
    rw [frameOf_plantRoot] at hg
    split_ifs at hg with hid
    · cases hg
      exact hid.symm
    · exact h.frameId hg
  · intro c p hp
    rw [parentOf_plantRoot hfresh] at hp
    exact has_plantRoot.mpr (.inr (h.has_parent hp))
  · intro c p hp
    rw [parentOf_plantRoot hfresh] at hp
    rw [depthOf_plantRoot, depthOf_plantRoot, if_neg (ho (has_of_parentOf hp)), if_neg (ho (h.has_parent hp))]
    exact h.depth hp
  · intro c p hp
    rw [parentOf_plantRoot hfresh] at hp
    rw [childrenOf_plantRoot hfresh]
    exact h.mem_children hp
  · intro c p hc
    rw [childrenOf_plantRoot hfresh] at hc
    rw [parentOf_plantRoot hfresh]
    exact h.parent_of_mem hc
  · intro c p g g' hp hg hg'
    rw [parentOf_plantRoot hfresh] at hp
    rw [frameOf_plantRoot, if_neg (ho (has_of_parentOf hp))] at hg
    rw [frameOf_plantRoot, if_neg (ho (h.has_parent hp))] at hg'
    exact h.selector hp hg hg'

theorem Indexed.plantRoot (h : t.Indexed R)
    (hon : ∀ id g, t.frameOf id = some g → R.frameNumber g ≠ R.frameNumber f) : (t.plantRoot R f).Indexed R := by
  intro number id
  have hls : (t.plantRoot R f).framesByNumber = update t.framesByNumber (R.frameNumber f) [R.frameId f] := rfl
  rw [hls, update_apply, frameOf_plantRoot]
  split_ifs with hnum hid hid
  · simp [hid, hnum]
  · rw [mem_singleton]
    constructor
    · exact fun heq => absurd heq hid
    · rintro ⟨g, hg, hgn⟩
      exact absurd (hgn.trans hnum) (hon id g hg)
  · rw [h]
    constructor
    · rintro ⟨g, hg, -⟩
      exact absurd (has_iff_frameOf.mpr ⟨g, hid ▸ hg⟩) hfresh
    · rintro ⟨g, ⟨⟩, hg⟩
      exact absurd hg.symm hnum
  · exact h number id

omit hfresh in
theorem Listed.plantRoot (h : t.Listed) : (t.plantRoot R f).Listed := by
  intro number
  have hls : (t.plantRoot R f).framesByNumber = update t.framesByNumber (R.frameNumber f) [R.frameId f] := rfl
  rw [hls, update_apply]
  split_ifs
  · exact nodup_singleton _
  · exact h number

end plantRoot

/-! ### Pruned nodes -/

section prune

variable (minDepth : Nat)

def orphan (t : FrameTree F) (child : Bytes) : FrameTree F :=
  if minDepth ≤ t.depthOf child then { t with nodes := t.nodes.modify child fun n => { n with parent := none } } else t

theorem get_orphans (t : FrameTree F) (ch : List Bytes) (c : Bytes) : (ch.foldl (orphan minDepth) t).nodes.get c =
      (t.nodes.get c).map fun n => if c ∈ ch ∧ minDepth ≤ n.depth then n.orphan else n := by
  induction ch generalizing t with
  | nil => simp
  | cons child ch ih =>
    rw [foldl_cons, ih, orphan]
    by_cases hdp : minDepth ≤ t.depthOf child
    · rw [if_pos hdp, get_modify]
      split_ifs with hc
      · subst hc
        cases hn : t.nodes.get c with
        | none => rfl
        | some n =>
          rw [depthOf, hn, elim_some] at hdp
          simp [hdp, FrameNode.orphan]
      · simp [hc]
    · rw [if_neg hdp]
      cases hn : t.nodes.get c with
      | none => rfl
      | some n =>
        by_cases hc : c = child
        · rw [← hc, depthOf, hn, elim_some] at hdp
          simp [hdp]
        · simp [hc]

theorem get_orphanChildren (t : FrameTree F) (id c : Bytes) : (t.orphanChildren minDepth id).nodes.get c =
    (t.nodes.get c).map fun n => if c ∈ t.childrenOf id ∧ minDepth ≤ n.depth then n.orphan else n :=
  get_orphans minDepth t (t.childrenOf id) c

theorem childrenOf_orphanChildren (t : FrameTree F) (id : Bytes) : (t.orphanChildren minDepth id).childrenOf = t.childrenOf := by
  funext c
  rw [childrenOf, get_orphanChildren]
  change _ = (t.nodes.get c).elim [] FrameNode.children
  cases t.nodes.get c with
  | none => rfl
  | some n =>
    rw [map_some, elim_some, elim_some]
    split_ifs
    · rfl
    · rfl

theorem get_foldl_orphanChildren (ids : List Bytes) (t : FrameTree F) (c : Bytes) :
    (ids.foldl (orphanChildren minDepth) t).nodes.get c =
      (t.nodes.get c).map fun n => if (∃ id ∈ ids, c ∈ t.childrenOf id) ∧ minDepth ≤ n.depth then n.orphan else n := by
  induction ids generalizing t with
  | nil => simp
  | cons id ids ih =>
    rw [foldl_cons, ih, childrenOf_orphanChildren, get_orphanChildren, Option.map_map]
    congr 1
    funext n
    by_cases hdp : minDepth ≤ n.depth
    · by_cases hc : c ∈ t.childrenOf id
      · simp [hdp, hc, FrameNode.orphan]
      · simp [hdp, hc]
    · simp [hdp]

theorem get_orphaned {minDepth : Nat} {ids : List Bytes} (h : t.WF R)
    (hids : ∀ id, id ∈ ids ↔ t.Has id ∧ t.depthOf id < minDepth) (c : Bytes) :
    (ids.foldl (orphanChildren minDepth) t).nodes.get c =
      (t.nodes.get c).map fun n => if n.depth = minDepth then n.orphan else n := by
  rw [get_foldl_orphanChildren]
  cases hn : t.nodes.get c with
  | none => rfl
  | some n =>
    have hdp : t.depthOf c = n.depth := by rw [depthOf, hn, elim_some]
    have hprn : t.parentOf c = n.parent := by rw [parentOf, hn, bind_some]
    rw [map_some, map_some, some_inj]
    by_cases hd : n.depth = minDepth
    · rw [if_pos hd]
      cases hp : n.parent with
      | none =>
        have hsm : n.orphan = n := by rw [FrameNode.orphan, ← hp]
        rw [hsm, ite_self]
      | some p =>
        have hpc := hprn.trans hp
        have hpd := h.depth hpc
        exact if_pos ⟨⟨p, (hids p).mpr ⟨h.has_parent hpc, by omega⟩, h.mem_children hpc⟩, hd.ge⟩
    · rw [if_neg hd, if_neg]
      rintro ⟨⟨id, hid, hc⟩, hle⟩
      have := h.depth (h.parent_of_mem hc)
      have := ((hids id).mp hid).2
      omega

section orphaned

variable {minDepth : Nat}
  (hget : ∀ c, t'.nodes.get c = (t.nodes.get c).map fun n => if n.depth = minDepth then n.orphan else n)
include hget

theorem frameOf_orphaned : t'.frameOf = t.frameOf := by
  funext c
  rw [frameOf, hget, Option.map_map, frameOf]
  refine congrArg (Option.map · (t.nodes.get c)) (funext fun n => ?_)
  rw [comp_apply]
  split_ifs
  · rfl
  · rfl

theorem depthOf_orphaned : t'.depthOf = t.depthOf := by
  funext c
  rw [depthOf, hget, depthOf]
  cases t.nodes.get c with
  | none => rfl
  | some n =>
    rw [map_some, elim_some, elim_some]
    split_ifs
    · rfl
    · rfl

theorem has_orphaned : t'.Has = t.Has := by
  funext c
  rw [Has, hget, isSome_map, Has]

theorem parentOf_orphaned (hp : t'.parentOf c = some p) : t.depthOf c ≠ minDepth ∧ t.parentOf c = some p := by
  obtain ⟨n', hn', hp⟩ := bind_eq_some_iff.mp hp
  obtain ⟨n, hn, rfl⟩ := map_eq_some_iff.mp ((hget c).symm.trans hn')
  rw [depthOf, parentOf, hn, elim_some, bind_some]
  split_ifs at hp with hd
  · cases hp
  · exact ⟨hd, hp⟩

theorem roots_orphaned (c : Bytes) (hc : t'.depthOf c = minDepth) : t'.parentOf c = none := by
  refine eq_none_iff_forall_ne_some.mpr fun p hp => (parentOf_orphaned hget hp).1 ?_
  rwa [depthOf_orphaned hget] at hc

theorem WF.graded_orphaned (h : t.WF R) : Lineage.Graded t'.parentOf t'.depthOf := by
  intro c p hp
  rw [depthOf_orphaned hget]
  exact h.depth (parentOf_orphaned hget hp).2

end orphaned

theorem foldl_orphanChildren_eq (ids : List Bytes) (t : FrameTree F) :
    ∃ nodes, ids.foldl (orphanChildren minDepth) t = { t with nodes } := by
  have inner : ∀ (ch : List Bytes) (t : FrameTree F), ∃ nodes, ch.foldl (orphan minDepth) t = { t with nodes } := by
    intro ch
    induction ch with
    | nil => exact fun t => ⟨t.nodes, rfl⟩
    | cons child ch ih =>
      intro t
      rw [foldl_cons, orphan]
      split_ifs
      · obtain ⟨nodes, hn⟩ := ih { t with nodes := t.nodes.modify child fun n => { n with parent := none } }
        exact ⟨nodes, hn⟩
      · exact ih t
  induction ids generalizing t with
  | nil => exact ⟨t.nodes, rfl⟩
  | cons id ids ih =>
    obtain ⟨nodes, hn⟩ : ∃ nodes, t.orphanChildren minDepth id = _ := inner (t.childrenOf id) t
    obtain ⟨nodes', hn'⟩ := ih (t.orphanChildren minDepth id)
    refine ⟨nodes', ?_⟩
    rw [foldl_cons, hn', hn]

variable {minDepth}

theorem get_removeNode (hn : t.nodes.get id = some n) : (t.removeNode R id).nodes.get c = if c = id then none
    else (t.nodes.get c).map fun m => if n.parent = some c then { m with children := m.children.filter (· ≠ id) } else m := by
  rw [removeNode, hn]
  dsimp only
  cases hp : n.parent with
  | none => simp [get_delete]
  | some p =>
    rw [elim_some, get_modify, get_delete]
    by_cases hid : c = id
    · simp [hid]
    · by_cases hcp : c = p
      · subst hcp
        simp [hid]
      · simp [hid, hcp, Ne.symm hcp]

theorem frameOf_removeNode : (t.removeNode R id).frameOf c = if c = id then none else t.frameOf c := by
  cases hn : t.nodes.get id with
  | none =>
    have hsm : t.removeNode R id = t := by rw [removeNode, hn]
    rw [hsm]
    split_ifs with h
    · rw [frameOf, h, hn, map_none]
    · rfl
  | some n =>
    rw [frameOf, get_removeNode hn]
    by_cases hid : c = id
    · simp [hid]
    · rw [if_neg hid, if_neg hid, Option.map_map]
      refine congrArg (Option.map · (t.nodes.get c)) (funext fun m => ?_)
      split_ifs
      · rfl
      · rfl

theorem Indexed.removeNode (h : t.Indexed R) (id : Bytes) : (t.removeNode R id).Indexed R := by
  intro number c
  rw [frameOf_removeNode]
  cases hn : t.nodes.get id with
  | none =>
    have hsm : t.removeNode R id = t := by rw [FrameTree.removeNode, hn]
    rw [hsm, h]
    split_ifs with hc
    · simp [hc, frameOf, hn]
    · rfl
  | some n =>
    have hls : (t.removeNode R id).framesByNumber = update t.framesByNumber (R.frameNumber n.frame)
        ((t.framesByNumber (R.frameNumber n.frame)).filter (· ≠ id)) := by
      rw [FrameTree.removeNode, hn]
    rw [hls, update_apply]
    split_ifs with hnum hc hc
    · simp [hc]
    · rw [mem_filter, h, hnum]
      simp [hc]
    · rw [h]
      simp only [hc, false_and, exists_false, iff_false]
      rintro ⟨g, hg, hgn⟩
      rw [frameOf, hn, map_some, some_inj] at hg
      rw [← hg] at hgn
      exact hnum hgn.symm
    · exact h number c

theorem Listed.removeNode (h : t.Listed) (id : Bytes) : (t.removeNode R id).Listed := by
  intro number
  rw [FrameTree.removeNode]
  split
  · exact h number
  · dsimp only
    rw [update_apply]
    split_ifs
    · exact (h _).filter _
    · exact h number

theorem root_removeNode : (t.removeNode R id).root = t.root := by
  rw [removeNode]
  split
  · rfl
  · rfl

theorem pendingFrames_removeNode : (t.removeNode R id).pendingFrames = t.pendingFrames := by
  rw [removeNode]
  split
  · rfl
  · rfl

theorem equivocators_removeNode : (t.removeNode R id).equivocators = t.equivocators := by
  rw [removeNode]
  split
  · rfl
  · rfl

theorem frameOf_chooseRoot {visited : List Bytes} : (t.chooseRoot R minDepth visited).frameOf c = t.frameOf c := by
  rw [frameOf, chooseRoot]
  cases foldl _ _ visited with
  | none => rfl
  | some r =>
    rw [elim_some, get_modify]
    split_ifs
    · rw [Option.map_map]
      rfl
    · rfl

theorem Indexed.chooseRoot (h : t.Indexed R) (visited : List Bytes) : (t.chooseRoot R minDepth visited).Indexed R := by
  intro number c
  rw [frameOf_chooseRoot]
  exact h number c

def IsRootAt (t : FrameTree F) (minDepth : Nat) (id : Bytes) : Prop := t.Has id ∧ t.depthOf id = minDepth

theorem foldl_choice {α : Type} {P : α → Prop} {step : Option α → α → Option α} (l : List α) {root : Option α}
    (hkp : ∀ root a, (∀ x, root = some x → P x) → ∀ x, step root a = some x → P x)
    (htk : ∀ root a, root ≠ none ∨ P a → step root a ≠ none) (hrt : ∀ x, root = some x → P x) :
    (∀ x, l.foldl step root = some x → P x) ∧ ((root ≠ none ∨ ∃ x ∈ l, P x) → l.foldl step root ≠ none) := by
  induction l generalizing root with
  | nil => exact ⟨hrt, fun h => h.resolve_right (by simp)⟩
  | cons a l ih =>
    obtain ⟨hP, hsm⟩ := ih (hkp root a hrt)
    refine ⟨hP, fun h => hsm ?_⟩
    rcases h with h | ⟨x, hx, hPx⟩
    · exact .inl (htk root a (.inl h))
    · rcases mem_cons.mp hx with rfl | hx
      · exact .inl (htk root x (.inr hPx))
      · exact .inr ⟨x, hx, hPx⟩

variable (minDepth) in
theorem chooseRoot_root (visited : List Bytes) :
    (∀ id, (t.chooseRoot R minDepth visited).root = some id → t.IsRootAt minDepth id) ∧
      ((∃ id ∈ visited, t.IsRootAt minDepth id) → (t.chooseRoot R minDepth visited).root ≠ none) := by
  rw [chooseRoot]
  refine (foldl_choice visited (fun root a hrt id hid => ?_) (fun root a h => ?_) nofun).imp id
    fun h hv => h (.inr hv)
  · split at hid
    next f best hf hbs =>
      split_ifs at hid with hc
      · exact some.inj hid ▸ ⟨has_iff_frameOf.mpr ⟨f, hf⟩, hc.1⟩
      · exact hrt id hid
    next f hf hnn =>
      split_ifs at hid with hc
      · exact some.inj hid ▸ ⟨has_iff_frameOf.mpr ⟨f, hf⟩, hc⟩
      · exact hrt id hid
    next hnn => exact hrt id hid
  · split
    next f best hf hbs =>
      have hsm : root ≠ none := fun hnn => by
        rw [hnn] at hbs
        cases hbs
      split_ifs
      · exact some_ne_none a
      · exact hsm
    next f hf hnn =>
      split_ifs with hc
      · exact some_ne_none a
      · exact h.resolve_right fun hat => hc hat.2
    next hnn =>
      refine h.resolve_right fun hat => ?_
      obtain ⟨f, hf⟩ := has_iff_frameOf.mp hat.1
      rw [hnn] at hf
      cases hf

/-- Part way through pruning `t`: the nodes to keep are as they were, and of the others those in `rest` are left. -/
structure Pruning (minDepth : Nat) (t t' : FrameTree F) (rest : List Bytes) : Prop where
  kept : ∀ {c}, minDepth ≤ t.depthOf c → t'.nodes.get c = t.nodes.get c
  left : ∀ {c n}, t.depthOf c < minDepth → t'.nodes.get c = some n →
    c ∈ rest ∧ t.parentOf c = n.parent ∧ n.depth = t.depthOf c

namespace Pruning

variable {rest : List Bytes}

theorem refl (hrs : ∀ c, t.Has c → t.depthOf c < minDepth → c ∈ rest) : Pruning minDepth t t rest where
  kept _ := rfl
  left hc hn := ⟨hrs _ (has_iff.mpr ⟨_, hn⟩) hc, by rw [parentOf, hn]; rfl, by rw [depthOf, hn]; rfl⟩

theorem removeNode (h : Pruning minDepth t t' (id :: rest)) (hg : Lineage.Graded t.parentOf t.depthOf)
    (hid : t.depthOf id < minDepth) (R : Reel F S) : Pruning minDepth t (t'.removeNode R id) rest := by
  cases hn : t'.nodes.get id with
  | none =>
    have hsm : t'.removeNode R id = t' := by rw [FrameTree.removeNode, hn]
    rw [hsm]
    refine ⟨h.kept, fun hc hnc => ?_⟩
    obtain ⟨hmem, hrs⟩ := h.left hc hnc
    refine ⟨(mem_cons.mp hmem).resolve_left fun heq => ?_, hrs⟩
    rw [heq, hn] at hnc
    cases hnc
  | some n =>
    obtain ⟨-, hprn, -⟩ := h.left hid hn
    constructor
    · intro c hc
      have hne : c ≠ id := fun heq => by
        rw [heq] at hc
        omega
      -- the parent of a pruned node is pruned too
      have hnp : n.parent ≠ some c := fun hp => by
        have := hg id c (hprn.trans hp)
        omega
      rw [get_removeNode hn, if_neg hne, h.kept hc]
      simp [hnp]
    · intro c m hc hm
      rw [get_removeNode hn] at hm
      have hne : c ≠ id := fun heq => by
        rw [if_pos heq] at hm
        cases hm
      rw [if_neg hne] at hm
      obtain ⟨m₀, hm₀, rfl⟩ := map_eq_some_iff.mp hm
      obtain ⟨hmem, hpar, hd⟩ := h.left hc hm₀
      refine ⟨(mem_cons.mp hmem).resolve_left hne, ?_⟩
      split_ifs
      · exact ⟨hpar, hd⟩
      · exact ⟨hpar, hd⟩

theorem chooseRoot (h : Pruning minDepth t t' rest)
    (hrt : ∀ c, t.depthOf c = minDepth → t.parentOf c = none) (R : Reel F S) (visited : List Bytes) :
    Pruning minDepth t (t'.chooseRoot R minDepth visited) rest := by
  -- a node at the least depth has no parent to lose
  have hsm : ∀ c, (t'.chooseRoot R minDepth visited).nodes.get c = t'.nodes.get c := by
    intro c
    have hnd : (t'.chooseRoot R minDepth visited).nodes = (t'.chooseRoot R minDepth visited).root.elim t'.nodes
      fun id => t'.nodes.modify id fun n => { n with parent := none } := rfl
    rw [hnd]
    cases hro : (t'.chooseRoot R minDepth visited).root with
    | none => rfl
    | some r =>
      have hdp := ((chooseRoot_root minDepth visited).1 r hro).2
      rw [elim_some, get_modify]
      split_ifs with hc
      · cases hn : t'.nodes.get c with
        | none => rfl
        | some n =>
          rw [← hc, depthOf, hn, elim_some] at hdp
          have hle : minDepth ≤ t.depthOf c := by
            by_contra hlt
            have := (h.left (not_le.mp hlt) hn).2.2
            omega
          have hget := h.kept hle
          rw [hn] at hget
          have hpar := hrt c (by rw [depthOf, ← hget]; exact hdp)
          rw [parentOf, ← hget, bind_some] at hpar
          rw [map_some, ← hpar]
      · rfl
  constructor
  · intro c hc
    rw [hsm]
    exact h.kept hc
  · intro c n hc hn
    rw [hsm] at hn
    exact h.left hc hn

end Pruning

end prune

/-! ### The pruned tree -/

section pruned

variable {minDepth : Nat} (hget : ∀ c, t'.nodes.get c = (t.nodes.get c).bind (FrameNode.pruned minDepth))
include hget

theorem get_pruned (hn : t'.nodes.get c = some n) :
    ∃ n₀, t.nodes.get c = some n₀ ∧ n = if n₀.depth = minDepth then n₀.orphan else n₀ := by
  obtain ⟨n₀, hn₀, hpru⟩ := bind_eq_some_iff.mp ((hget c).symm.trans hn)
  rw [FrameNode.pruned] at hpru
  split_ifs at hpru with hlt heq
  · exact ⟨n₀, hn₀, by rw [if_pos heq, some.inj hpru]⟩
  · exact ⟨n₀, hn₀, by rw [if_neg heq, some.inj hpru]⟩

theorem has_pruned : t'.Has c ↔ t.Has c ∧ minDepth ≤ t.depthOf c := by
  rw [Has, hget, Has, depthOf]
  cases t.nodes.get c with
  | none => simp
  | some n =>
    rw [bind_some, FrameNode.pruned, elim_some]
    split_ifs with hlt heq
    · simp [hlt]
    · simp [heq]
    · simp [not_lt.mp hlt]

theorem depthOf_pruned (hc : t'.Has c) : t'.depthOf c = t.depthOf c := by
  obtain ⟨n, hn⟩ := has_iff.mp hc
  obtain ⟨n₀, hn₀, rfl⟩ := get_pruned hget hn
  rw [depthOf, depthOf, hn, hn₀, elim_some, elim_some]
  split_ifs
  · rfl
  · rfl

theorem frameOf_pruned (hf : t'.frameOf c = some f) : t.frameOf c = some f := by
  obtain ⟨n, hn, rfl⟩ := map_eq_some_iff.mp hf
  obtain ⟨n₀, hn₀, rfl⟩ := get_pruned hget hn
  rw [frameOf, hn₀, map_some]
  split_ifs
  · rfl
  · rfl

theorem parentOf_pruned : t'.parentOf c = some p ↔ t.parentOf c = some p ∧ minDepth < t.depthOf c := by
  rw [parentOf, hget, parentOf, depthOf]
  cases t.nodes.get c with
  | none => simp
  | some n =>
    rw [bind_some, FrameNode.pruned, elim_some, bind_some]
    split_ifs with hlt heq
    · simp [hlt.le]
    · simp [heq, FrameNode.orphan]
    · simp [lt_of_le_of_ne (not_lt.mp hlt) (Ne.symm heq)]

theorem mem_childrenOf_pruned : c ∈ t'.childrenOf p ↔ c ∈ t.childrenOf p ∧ minDepth ≤ t.depthOf p := by
  rw [childrenOf, hget, childrenOf, depthOf]
  cases t.nodes.get p with
  | none => simp
  | some n =>
    rw [bind_some, FrameNode.pruned, elim_some, elim_some]
    split_ifs with hlt heq
    · simp [hlt]
    · simp [heq, FrameNode.orphan]
    · simp [not_lt.mp hlt]

theorem WF.pruned (h : t.WF R) : t'.WF R := by
  constructor
  · intro id f hf
    exact h.frameId (frameOf_pruned hget hf)
  · intro c p hp
    obtain ⟨hp, hlt⟩ := (parentOf_pruned hget).mp hp
    have := h.depth hp
    exact (has_pruned hget).mpr ⟨h.has_parent hp, by omega⟩
  · intro c p hp'
    obtain ⟨hp, hlt⟩ := (parentOf_pruned hget).mp hp'
    have hd := h.depth hp
    rw [depthOf_pruned hget (has_of_parentOf hp'),
      depthOf_pruned hget ((has_pruned hget).mpr ⟨h.has_parent hp, by omega⟩)]
    exact hd
  · intro c p hp
    obtain ⟨hp, hlt⟩ := (parentOf_pruned hget).mp hp
    have := h.depth hp
    exact (mem_childrenOf_pruned hget).mpr ⟨h.mem_children hp, by omega⟩
  · intro c p hc
    obtain ⟨hc, hle⟩ := (mem_childrenOf_pruned hget).mp hc
    have hp := h.parent_of_mem hc
    have := h.depth hp
    exact (parentOf_pruned hget).mpr ⟨hp, by omega⟩
  · intro c p f g hp hf hg
    exact h.selector ((parentOf_pruned hget).mp hp).1 (frameOf_pruned hget hf) (frameOf_pruned hget hg)

end pruned

/-! ### Pending frames -/

def Keyed (R : Reel F S) (t : FrameTree F) : Prop := ∀ sel f, f ∈ t.pending sel → R.parentSelector f = sel

variable {sel sel' : Bytes}

theorem mem_pending_takePending (h : f ∈ (t.takePending R sel).pending sel') : f ∈ t.pending sel' := by
  rw [takePending] at h
  split_ifs at h
  · exact h
  · rw [pending, get_delete] at h
    split_ifs at h
    · cases h
    · exact h

theorem mem_pending_addPendingFrame :
    g ∈ (t.addPendingFrame R f).pending sel ↔ g ∈ t.pending sel ∨ (g = f ∧ sel = R.parentSelector f) := by
  rw [pending, addPendingFrame, get_set]
  split_ifs with h
  · simp [h, mem_append]
  · simp [h, pending]

theorem mem_pending_pruneOldPendingFrames {now : Int} (h : f ∈ (t.pruneOldPendingFrames R now).pending sel) :
    f ∈ t.pending sel := by
  rw [pending, pruneOldPendingFrames, get_mapValues] at h
  rw [pending]
  cases hl : t.pendingFrames.get sel with
  | none =>
    rw [hl] at h
    cases h
  | some l =>
    rw [hl] at h
    exact (mem_filter.mp h).1

end FrameTree

end Quilibrium
